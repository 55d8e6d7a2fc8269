import LoxLex.Proofs.Outcome

/-!
# What arguments ask for

Every argument is an option that is known, an option that is not, or the name of a script. Which
options are in force, or why arguments are rejected, is told here by the arguments of these kinds
as a whole and not by reading one after the other.

## Main definitions

* `Options.isUnknown`, `Options.isPositional`, `Options.listing?` — the kinds of arguments.
* `Options.asked` — the options that accepted arguments put in force.
* `Options.verdict` — what arguments come to, accepted or not.
* `Options.read` — the options or what is said instead.
* `Options.Understood` — how arguments are read.

## Main statements

* `Options.add_eq`: all that one argument can do.
* `Options.foldlM_add_eq`: all that many arguments can do.
* `Options.parse_eq_ok_iff`: which arguments are accepted, and what they ask for.
* `Options.read_understood`: all arguments are understood.
-/

namespace LoxLex.Options

variable {o next : Options} {argument : Bytes} {arguments others : List Bytes} {log : Log}

/-! ## Kinds of arguments -/

/-- Options that are known. -/
def known : List Bytes := [ascii "--debug", ascii "--tokens=list", ascii "--tokens=table"]

/-- What begins with two dashes is an option. -/
def isUnknown (argument : Bytes) : Bool :=
  (ascii "--").isPrefixOf argument && argument ∉ known

/-- What does not begin with two dashes names a script. -/
def isPositional (argument : Bytes) : Bool := !(ascii "--").isPrefixOf argument

/-- The listing that an option chooses. -/
def listing? (argument : Bytes) : Option Listing :=
  if argument = ascii "--tokens=list" then some .list
  else if argument = ascii "--tokens=table" then some .table
  else none

/-- Options that are about listings begin so. -/
def isTokens (argument : Bytes) : Bool := (ascii "--tokens=").isPrefixOf argument

theorem ne_debug_of_isPositional (h : isPositional argument = true) :
    argument ≠ ascii "--debug" := by
  rintro rfl
  exact absurd h (by decide)

theorem listing?_of_isPositional (h : isPositional argument = true) : listing? argument = none := by
  unfold listing?
  split_ifs with hlist htable
  · subst hlist
    exact absurd h (by decide)
  · subst htable
    exact absurd h (by decide)
  · rfl

theorem isTokens_of_listing? {listing : Listing} (h : listing? argument = some listing) :
    isTokens argument = true := by
  unfold listing? at h
  split_ifs at h with hlist htable
  · subst hlist
    decide
  · subst htable
    decide

/-! ## One argument -/

/-- All that one argument can do. Debug messages, once asked for, stay so. -/
theorem add_eq (o : Options) (argument : Bytes) : o.add argument =
    if isUnknown argument then .error (.unknownOption argument)
    else if isPositional argument then
      if o.script.isSome then .error .secondScript else .ok { o with script := some argument }
    else .ok { o with
      debug := o.debug || ascii "--debug" = argument
      listing := (listing? argument).getD o.listing } := by
  by_cases hknown : argument ∈ known
  · -- `add` compares with one option after the other, so it counts that they differ
    have hne : ascii "--debug" ≠ ascii "--tokens=list" ∧ ascii "--debug" ≠ ascii "--tokens=table" ∧
        ascii "--tokens=list" ≠ ascii "--tokens=table" := by decide
    have hcases : argument = ascii "--debug" ∨ argument = ascii "--tokens=list" ∨
        argument = ascii "--tokens=table" := by
      simpa [known] using hknown
    have hdashes : (ascii "--").isPrefixOf argument = true := by
      rcases hcases with rfl | rfl | rfl <;> decide
    rw [if_neg (by simp [isUnknown, hknown]), if_neg (by simp [isPositional, hdashes])]
    obtain ⟨hlist, htable, hlistings⟩ := hne
    rcases hcases with rfl | rfl | rfl
    · simp [add, listing?, hlist, htable]
    · simp [add, listing?, hlist, hlist.symm]
    · simp [add, listing?, htable, htable.symm, hlistings.symm]
  · have hne : argument ≠ ascii "--debug" ∧ argument ≠ ascii "--tokens=list" ∧
        argument ≠ ascii "--tokens=table" := by
      simpa [known] using hknown
    cases hdashes : (ascii "--").isPrefixOf argument <;>
      simp [add, isUnknown, isPositional, hne, hknown, hdashes]

/-! ## Many arguments -/

/-- The options in force after accepted arguments. The last choice of a listing counts. -/
def asked (o : Options) (arguments : List Bytes) : Options where
  script := o.script.or (arguments.filter isPositional).head?
  listing := (arguments.filterMap listing?).getLastD o.listing
  debug := o.debug || ascii "--debug" ∈ arguments

/-- The number of scripts that are named. -/
def scripts (o : Options) (arguments : List Bytes) : Nat :=
  o.script.toList.length + arguments.countP isPositional

theorem asked_nil (o : Options) : o.asked [] = o := by
  simp [asked]

theorem asked_of_isPositional (h : isPositional argument = true) (hscript : o.script = none) :
    ({ o with script := some argument } : Options).asked arguments =
      o.asked (argument :: arguments) := by
  have hdebug : ascii "--debug" ≠ argument := (ne_debug_of_isPositional h).symm
  simp [asked, h, hscript, hdebug, listing?_of_isPositional h]

theorem asked_of_not_isPositional (h : isPositional argument = false) :
    ({ o with
      debug := o.debug || ascii "--debug" = argument
      listing := (listing? argument).getD o.listing } : Options).asked arguments =
      o.asked (argument :: arguments) := by
  have hlisting : (arguments.filterMap listing?).getLastD ((listing? argument).getD o.listing) =
      ((argument :: arguments).filterMap listing?).getLastD o.listing := by
    cases hargument : listing? argument with
    | none => rw [List.filterMap_cons_none hargument, Option.getD_none]
    | some l => rw [List.filterMap_cons_some hargument, List.getLastD_cons, Option.getD_some]
  simp only [asked, hlisting]
  simp [h, Bool.or_assoc]

/-- What arguments come to. It counts whether a second script is named before the first option that
is not known. -/
def verdict (o : Options) (arguments : List Bytes) : Except Rejection Options :=
  if o.scripts (arguments.takeWhile (!isUnknown ·)) ≤ 1 then
    match arguments.find? isUnknown with
    | some argument => .error (.unknownOption argument)
    | none => .ok (o.asked arguments)
  else .error .secondScript

theorem scripts_nil_le (o : Options) : o.scripts [] ≤ 1 := by
  cases h : o.script <;> simp [scripts, h]

/-- Options that are known leave the verdict to the other arguments. -/
theorem verdict_cons (h : isUnknown argument = false)
    (hscripts : ∀ behind, next.scripts behind = o.scripts (argument :: behind))
    (hasked : next.asked arguments = o.asked (argument :: arguments)) :
    next.verdict arguments = o.verdict (argument :: arguments) := by
  have htake : (argument :: arguments).takeWhile (!isUnknown ·) =
      argument :: arguments.takeWhile (!isUnknown ·) := List.takeWhile_cons_of_pos (by simp [h])
  have hfind : (argument :: arguments).find? isUnknown = arguments.find? isUnknown :=
    List.find?_cons_of_neg (by simp [h])
  rw [verdict, verdict, htake, hfind, ← hscripts, ← hasked]

/-- All that many arguments can do. -/
theorem foldlM_add_eq (o : Options) (arguments : List Bytes) :
    arguments.foldlM add o = o.verdict arguments := by
  -- the induction changes the options: a script that is named counts from then on
  induction arguments generalizing o with
  | nil => simp [verdict, scripts_nil_le, asked_nil, pure, Except.pure]
  | cons a arguments ih =>
    rw [List.foldlM_cons, add_eq]
    cases hunknown : isUnknown a with
    | true => simp [verdict, hunknown, scripts_nil_le, bind, Except.bind]
    | false =>
      cases hpositional : isPositional a with
      | true =>
        cases hscript : o.script with
        | none =>
          refine (ih _).trans (verdict_cons hunknown ?_ (asked_of_isPositional hpositional hscript))
          intro behind
          simp [scripts, hpositional, hscript, Nat.add_comm]
        | some script =>
          have htwo : ¬ o.scripts (a :: arguments.takeWhile (!isUnknown ·)) ≤ 1 := by
            simp [scripts, hpositional, hscript]
          simp [verdict, hunknown, htwo, bind, Except.bind]
      | false =>
        refine (ih _).trans (verdict_cons hunknown ?_ (asked_of_not_isPositional hpositional))
        intro behind
        simp [scripts, hpositional]

theorem parse_eq (arguments : List Bytes) : parse arguments = ({} : Options).verdict arguments :=
  foldlM_add_eq {} arguments

/-- Arguments are accepted if all options are known and at most one script is named. -/
theorem parse_eq_ok_iff : parse arguments = .ok o ↔
    (∀ a ∈ arguments, isUnknown a = false) ∧ arguments.countP isPositional ≤ 1 ∧
      o = ({} : Options).asked arguments := by
  rw [parse_eq, verdict]
  cases hfind : arguments.find? isUnknown with
  | none =>
    have hknown : ∀ a ∈ arguments, isUnknown a = false := by
      simpa [List.find?_eq_none] using hfind
    have hall : arguments.takeWhile (!isUnknown ·) = arguments :=
      List.takeWhile_eq_self_iff.mpr (by simpa using hknown)
    have hscripts : ({} : Options).scripts arguments = arguments.countP isPositional :=
      Nat.zero_add _
    rw [hall, hscripts]
    split <;> grind
  | some argument =>
    have hunknown : isUnknown argument = true := List.find?_some hfind
    have hmem := List.mem_of_find?_eq_some hfind
    split <;> grind

/-! ## Reordered arguments -/

theorem filterMap_listing?_filter (arguments : List Bytes) :
    (arguments.filter isTokens).filterMap listing? = arguments.filterMap listing? := by
  rw [List.filterMap_filter]
  refine List.filterMap_congr fun a _ => ?_
  cases h : listing? a with
  | none => simp
  | some listing => simp [isTokens_of_listing? h]

theorem filter_isPositional_cases (hcount : arguments.countP isPositional ≤ 1) :
    arguments.filter isPositional = [] ∨ ∃ script, arguments.filter isPositional = [script] := by
  rw [List.countP_eq_length_filter] at hcount
  match h : arguments.filter isPositional with
  | [] => exact .inl rfl
  | [script] => exact .inr ⟨script, rfl⟩
  | _ :: _ :: _ => simp [h] at hcount

/-- The order of accepted arguments does not count, but for those that choose a listing. -/
theorem asked_of_perm (hperm : others.Perm arguments) (hcount : arguments.countP isPositional ≤ 1)
    (htokens : others.filter isTokens = arguments.filter isTokens) (o : Options) :
    o.asked others = o.asked arguments := by
  have hscript : others.filter isPositional = arguments.filter isPositional := by
    have hfilter := hperm.filter isPositional
    -- lists of at most one member are rearranged in one way
    obtain h | ⟨script, h⟩ := filter_isPositional_cases hcount <;> rw [h] at hfilter ⊢
    · exact List.perm_nil.mp hfilter
    · exact List.perm_singleton.mp hfilter
  have hlisting : others.filterMap listing? = arguments.filterMap listing? := by
    rw [← filterMap_listing?_filter, htokens, filterMap_listing?_filter]
  simp only [asked, hscript, hlisting, hperm.mem_iff]

/-! ## What is read and what is said -/

/-- The options that arguments ask for, if they are accepted, and the log behind it. -/
def read (arguments : List Bytes) (log : Log) : Option Options × Log :=
  match parse arguments with
  | .ok options => (some options, log)
  | .error rejection => (none, rejection.report log)

/-- A run begins with what is read, and rejected arguments are told how the program is called. -/
theorem start_eq (arguments : List Bytes) : Program.start arguments =
    match read arguments {} with
    | (some options, log) => .ok (options, if options.debug then log.enable .debug else log)
    | (none, log) => .error (Program.logUsage log) := by
  unfold Program.start read
  cases parse arguments <;> rfl

/-- The first option that is not known, unless a second script is named before it. -/
def offence? (arguments : List Bytes) : Option Bytes :=
  if (arguments.takeWhile (!isUnknown ·)).countP isPositional ≤ 1 then arguments.find? isUnknown
  else none

/-- What is said about an option that is not known. -/
def complaint (argument : Bytes) : Bytes := ascii "Unknown option '" ++ argument ++ ascii "'\n"

/-- How arguments are read. They are rejected if there is an option that is not known or more than
one script. Then the first offence is complained about if it is such an option, and nothing else
is said. If they are accepted nothing is said; the script is the only one that is named, the
listing the last that is chosen, and debug messages are asked for by `--debug`. In another order
accepted arguments ask for the same, if those about listings keep theirs. -/
structure Understood (arguments : List Bytes) (log : Log) : Prop where
  rejects_iff : (read arguments log).1 = none ↔
    (∃ a ∈ arguments, isUnknown a = true) ∨ 2 ≤ arguments.countP isPositional
  rejected : (read arguments log).1 = none → ∀ stream,
    (read arguments log).2.text stream = log.text stream ++
      if log.settings .error = ⟨true, some stream⟩ then
        ((offence? arguments).map complaint).getD [] else []
  accepted : ∀ options, (read arguments log).1 = some options →
    (read arguments log).2 = log ∧
    options.script.toList = arguments.filter isPositional ∧
    (options.debug = true ↔ ascii "--debug" ∈ arguments) ∧
    options.listing = (arguments.filterMap listing?).getLastD .list
  reordered : ∀ options, (read arguments log).1 = some options → ∀ others,
    others.Perm arguments → others.filter isTokens = arguments.filter isTokens →
      read others log = (some options, log)

/-- The offence is what is said of rejected arguments. -/
theorem offence?_of_error {rejection : Rejection} (h : parse arguments = .error rejection) :
    (offence? arguments).map complaint = rejection.message?.map (· ++ ascii "\n") := by
  have hline : ascii "'\n" = ascii "'" ++ ascii "\n" := rfl
  have hscripts : ∀ behind, ({} : Options).scripts behind = behind.countP isPositional :=
    fun _ => Nat.zero_add _
  rw [parse_eq, verdict, hscripts] at h
  unfold offence?
  split at h
  case isTrue hcount =>
    rw [if_pos hcount]
    cases hfind : arguments.find? isUnknown with
    | none => simp [hfind] at h
    | some argument =>
      obtain rfl : rejection = .unknownOption argument := by simpa [hfind, eq_comm] using h
      simp [complaint, Rejection.message?, hline]
  case isFalse hcount =>
    obtain rfl : rejection = .secondScript := by simpa [eq_comm] using h
    rw [if_neg hcount]
    rfl

theorem text_report (rejection : Rejection) (log : Log) (stream : Stream) :
    (rejection.report log).text stream = log.text stream ++
      if log.settings .error = ⟨true, some stream⟩ then
        (rejection.message?.map (· ++ ascii "\n")).getD [] else [] := by
  unfold Rejection.report
  cases rejection.message? with
  | none => simp
  | some message => simp [Log.post_eq, Log.text_tell]

theorem read_of_ok {options : Options} (h : parse arguments = .ok options) (log : Log) :
    read arguments log = (some options, log) := by
  rw [read, h]

theorem read_of_error {rejection : Rejection} (h : parse arguments = .error rejection) (log : Log) :
    read arguments log = (none, rejection.report log) := by
  rw [read, h]

/-- Arguments are rejected for an option that is not known or for a second script. -/
theorem read_fst_eq_none_iff (arguments : List Bytes) (log : Log) :
    (read arguments log).1 = none ↔
      (∃ a ∈ arguments, isUnknown a = true) ∨ 2 ≤ arguments.countP isPositional := by
  cases hparse : parse arguments with
  | error rejection =>
    have hrejected : ¬ ((∀ a ∈ arguments, isUnknown a = false) ∧
        arguments.countP isPositional ≤ 1) := by
      rintro ⟨hknown, hcount⟩
      rw [parse_eq_ok_iff.mpr ⟨hknown, hcount, rfl⟩] at hparse
      cases hparse
    rw [read_of_error hparse]
    grind
  | ok options =>
    obtain ⟨hknown, hcount, -⟩ := parse_eq_ok_iff.mp hparse
    have hfew : ¬ 2 ≤ arguments.countP isPositional := by omega
    simpa [read_of_ok hparse, hfew] using hknown

/-- Accepted arguments are accepted in another order. -/
theorem parse_of_perm (h : parse arguments = .ok o) (hperm : others.Perm arguments)
    (htokens : others.filter isTokens = arguments.filter isTokens) : parse others = .ok o := by
  obtain ⟨hknown, hcount, hoptions⟩ := parse_eq_ok_iff.mp h
  refine parse_eq_ok_iff.mpr ⟨?_, ?_, ?_⟩
  · exact fun a ha => hknown a (hperm.mem_iff.mp ha)
  · rwa [hperm.countP_eq]
  · rw [asked_of_perm hperm hcount htokens, hoptions]

/-- All arguments are understood. -/
theorem read_understood (arguments : List Bytes) (log : Log) : Understood arguments log := by
  have hrejects := read_fst_eq_none_iff arguments log
  cases hparse : parse arguments with
  | error rejection =>
    have hread := read_of_error hparse log
    constructor
    case rejects_iff => exact hrejects
    case rejected =>
      intro _ stream
      rw [hread, text_report, offence?_of_error hparse]
    all_goals simp [hread]
  | ok options =>
    have hread := read_of_ok hparse log
    obtain ⟨-, hcount, hoptions⟩ := parse_eq_ok_iff.mp hparse
    constructor
    case rejects_iff => exact hrejects
    case rejected => simp [hread]
    case accepted =>
      intro o ho
      obtain rfl : options = o := by simpa [hread] using ho
      refine ⟨by rw [hread], ?_, ?_, ?_⟩
      · obtain h | ⟨script, h⟩ := filter_isPositional_cases hcount <;> simp [hoptions, asked, h]
      · simp [hoptions, asked]
      · simp [hoptions, asked]
    case reordered =>
      intro o ho others hperm htokens
      obtain rfl : options = o := by simpa [hread] using ho
      exact read_of_ok (parse_of_perm hparse hperm htokens) log

example : read [ascii "a.lox", ascii "-x", ascii "--", ascii "--debug"] {} = (none, {}) := rfl

end LoxLex.Options
