import Mathlib.Data.List.Basic
import LoxLex.Proofs.Chain
import LoxLex.Proofs.Placed
import LoxLex.Proofs.Position

/-!
# Scanning line by line

A newline outside a string ends every segment, so nothing but the place is carried over it. A
text can be scanned in two parts that meet there: what is found in the second part is found in
the whole text as well, only farther down.

## Main definitions

* `Position.shift`, `Span.shift`, `Token.shift`, `Diagnostic.shift` — where things of a text
  are found once another text stands before it.

## Main statements

* `Segment.segments_append_of_newline`: a text is cut where a line ends.
* `Source.scan_append_of_newline`: a text is scanned in two parts that meet where a line ends.
-/

namespace LoxLex

/-! ## Places farther down -/

/-- The place `p` of a text once the lines `before` stand before it. -/
def Position.shift (before : Bytes) (p : Position) : Position where
  line := p.line + (before.count Byte.newline).toUInt32
  column := p.column
  offset := p.offset + before.length

def Span.shift (before : Bytes) (s : Span) : Span :=
  { s with start := s.start.shift before, stop := s.stop.shift before }

def Token.shift (before : Bytes) (t : Token) : Token :=
  { t with line := t.line + (before.count Byte.newline).toUInt32, span := t.span.shift before }

def Diagnostic.shift (before : Bytes) (d : Diagnostic) : Diagnostic :=
  { d with span := d.span.shift before }

def Placed.shift (before : Bytes) (p : Placed) : Placed :=
  { p with span := p.span.shift before }

namespace Position

variable {before : Bytes} {p : Position}

theorem step_shift (b : Byte) : (p.shift before).step b = (p.step b).shift before := by
  have hline : p.line + (before.count Byte.newline).toUInt32 + 1 =
      p.line + 1 + (before.count Byte.newline).toUInt32 := by
    rw [UInt32.add_assoc, UInt32.add_comm _ 1, UInt32.add_assoc]
  unfold step shift
  split
  · simp only [hline, Nat.add_right_comm]
  · simp only [Nat.add_right_comm]

theorem after_shift (text : Bytes) :
    (p.shift before).after text = (p.after text).shift before := by
  induction text generalizing p with
  | nil => rfl
  | cons b text ih => rw [after_cons, after_cons, step_shift, ih]

/-- Behind whole lines a text begins anew, only farther down. -/
theorem start_after_of_newline (h : before.getLast? = some Byte.newline) :
    start.after before = start.shift before := by
  obtain ⟨lines, rfl⟩ := List.getLast?_eq_some_iff.mp h
  rw [start_after]
  simp [behind, shift, start]

end Position

namespace Segment

variable {file : UInt32} {start : Position} {before : Bytes}

theorem place_shift (l : List Segment) :
    place file (start.shift before) l = (place file start l).map (Placed.shift before) := by
  induction l generalizing start with
  | nil => rfl
  | cons s l ih =>
    rw [place, place, Position.after_shift, ih]
    rfl

/-! ## Lines end segments -/

variable {s : Segment} {tail : Bytes}

/-- What stops before whole lines stops before them whatever follows. -/
theorem StopsAt.append_of_newline (h : s.StopsAt tail)
    (hlast : tail.getLast? = some Byte.newline) (behind : Bytes) : s.StopsAt (tail ++ behind) := by
  obtain ⟨lines, rfl⟩ := List.getLast?_eq_some_iff.mp hlast
  have hnewline : StopsLike [Byte.newline] (Byte.newline :: behind) := .cons_of_isBlank rfl
  rw [List.append_assoc]
  exact h.of_stopsLike (hnewline.append lines)

/-- Only what is still open goes on behind a newline that it ends with. -/
theorem Formed.stopsAt_of_newline (h : s.Formed) (hlast : s.text.getLast? = some Byte.newline)
    (hclosed : s.shape ≠ .unclosed) (tail : Bytes) : s.StopsAt tail := by
  have hsolid : s.shape.isSolid = false := by
    rw [← Bool.not_eq_true]
    exact fun hsolid => h.newline_notMem hsolid (List.mem_of_getLast? hlast)
  obtain ⟨shape, text⟩ := s
  cases shape with
  | blank => trivial
  | string => trivial
  | comment => exact .inl hlast
  | unclosed => exact absurd rfl hclosed
  | _ => cases hsolid

theorem Chained.segments_append_of_newline {l : List Segment} (h : Chained l)
    (hlast : (l.flatMap (·.text)).getLast? = some Byte.newline)
    (hclosed : ∀ s ∈ l, s.shape ≠ .unclosed) (behind : Bytes) :
    Bytes.segments (l.flatMap (·.text) ++ behind) = l ++ behind.segments := by
  induction h with
  | nil => cases hlast
  | @cons s rest hs hstop hrest ih =>
    obtain ⟨hs', hrest'⟩ := List.forall_mem_cons.mp hclosed
    rw [List.flatMap_cons] at hlast ⊢
    rw [List.append_assoc]
    by_cases hnil : rest.flatMap (·.text) = []
    · rw [hnil, List.append_nil] at hlast
      have hrest := segments_flatMap_text hrest
      rw [hnil, Bytes.segments_nil] at hrest
      subst hrest
      exact segments_append hs (hs.stopsAt_of_newline hlast hs' behind)
    · rw [List.getLast?_append_of_ne_nil _ hnil] at hlast
      rw [segments_append hs (hstop.append_of_newline hlast behind), ih hlast hrest',
        List.cons_append]

/-- A text is cut where a line ends, unless a string is open there. -/
theorem segments_append_of_newline {a : Bytes} (hlast : a.getLast? = some Byte.newline)
    (hclosed : ∀ s ∈ a.segments, s.shape ≠ .unclosed) (b : Bytes) :
    Bytes.segments (a ++ b) = a.segments ++ b.segments := by
  have hchain := chained_segments a
  rw [← a.flatMap_text_segments] at hlast
  simpa using hchain.segments_append_of_newline hlast hclosed b

end Segment

/-! ## Scans of two parts -/

theorem Placed.token?_shift (before : Bytes) (p : Placed) :
    (p.shift before).token? = p.token?.map (Token.shift before) := by
  simp only [token?, Option.map_map]
  rfl

theorem Placed.fault?_shift (before origin : Bytes) (p : Placed) :
    (p.shift before).fault?.map (Fault.diagnostic origin) =
      (p.fault?.map (Fault.diagnostic origin)).map (Diagnostic.shift before) := by
  unfold fault?
  rw [show (p.shift before).segment = p.segment from rfl]
  split <;> rfl

namespace Source

variable {a b path origin : Bytes} {id : UInt32}

/-- A scan that reports no string without an end has met none. -/
theorem shape_ne_unclosed {s : Source}
    (h : (s.scan ⟨origin, []⟩).2.count (some .unterminatedString) = 0) :
    ∀ t ∈ s.text.segments, t.shape ≠ .unclosed := by
  intro t ht hshape
  rw [← s.map_segment_placed] at ht
  obtain ⟨p, hp, rfl⟩ := List.mem_map.mp ht
  have hfault : p.fault? = some (.unterminatedString p.span.atEnd) := by
    rw [Placed.fault?, hshape]
  have hmem : Fault.unterminatedString p.span.atEnd ∈ s.faults :=
    List.mem_filterMap.mpr ⟨p, hp, hfault⟩
  rw [scan_eq] at h
  have hcount := List.countP_eq_zero.mp h _
    (List.mem_append_right _ (List.mem_map_of_mem (f := Fault.diagnostic origin) hmem))
  exact hcount rfl

/-- What is placed behind whole lines is placed as if it stood alone, only farther down. -/
theorem placed_append (hlast : a.getLast? = some Byte.newline)
    (hclosed : ∀ s ∈ a.segments, s.shape ≠ .unclosed) :
    (⟨a ++ b, path, id⟩ : Source).placed = (⟨a, path, id⟩ : Source).placed ++
      (⟨b, path, id⟩ : Source).placed.map (Placed.shift a) := by
  simp only [placed]
  rw [Segment.segments_append_of_newline hlast hclosed, Segment.place_append,
    Bytes.flatMap_text_segments, Position.start_after_of_newline hlast, Segment.place_shift]

theorem eof_append (hlast : a.getLast? = some Byte.newline) :
    (⟨a ++ b, path, id⟩ : Source).eof = (⟨b, path, id⟩ : Source).eof.shift a := by
  simp only [eof, stop]
  rw [Position.after_append, Position.start_after_of_newline hlast, Position.after_shift]
  rfl

theorem tokens_append (hlast : a.getLast? = some Byte.newline)
    (hclosed : ∀ s ∈ a.segments, s.shape ≠ .unclosed) :
    (⟨a ++ b, path, id⟩ : Source).tokens =
      (⟨a, path, id⟩ : Source).tokens.filter (·.kind ≠ .eof) ++
        (⟨b, path, id⟩ : Source).tokens.map (Token.shift a) := by
  have hpick := funext (Placed.token?_shift a)
  rw [filter_kind_tokens]
  simp only [tokens_eq]
  rw [placed_append hlast hclosed, eof_append hlast, List.filterMap_append, List.filterMap_map,
    List.map_append, List.map_filterMap, List.append_assoc, ← hpick]
  rfl

theorem map_diagnostic_faults_append (hlast : a.getLast? = some Byte.newline)
    (hclosed : ∀ s ∈ a.segments, s.shape ≠ .unclosed) :
    (⟨a ++ b, path, id⟩ : Source).faults.map (Fault.diagnostic origin) =
      (⟨a, path, id⟩ : Source).faults.map (Fault.diagnostic origin) ++
        ((⟨b, path, id⟩ : Source).faults.map (Fault.diagnostic origin)).map
          (Diagnostic.shift a) := by
  have hpick := funext (Placed.fault?_shift a origin)
  simp only [faults]
  rw [placed_append hlast hclosed, List.filterMap_append, List.map_append, List.filterMap_map,
    List.map_filterMap, List.map_filterMap, List.map_filterMap, List.map_filterMap, ← hpick]
  rfl

/-- Scanning composes where a line ends: what a scan finds in two parts that meet there is what
it finds in the first and, farther down, what it finds in the second. -/
theorem scan_append_of_newline (a b path : Bytes) (id : UInt32) (sink : Sink)
    (hlast : a.getLast? = some Byte.newline)
    (hclosed : ((⟨a, path, id⟩ : Source).scan ⟨sink.origin, []⟩).2.count
      (some .unterminatedString) = 0) :
    let whole := (⟨a ++ b, path, id⟩ : Source).scan sink
    let first := (⟨a, path, id⟩ : Source).scan sink
    let second := (⟨b, path, id⟩ : Source).scan ⟨sink.origin, []⟩
    whole.1 = first.1.filter (·.kind ≠ .eof) ++ second.1.map (Token.shift a) ∧
      whole.2.entries = first.2.entries ++ second.2.entries.map (Diagnostic.shift a) := by
  intro whole first second
  have hshape : ∀ s ∈ a.segments, s.shape ≠ .unclosed := shape_ne_unclosed hclosed
  simp only [whole, first, second, scan_eq, Sink.addFaults]
  refine ⟨tokens_append hlast hshape, ?_⟩
  rw [map_diagnostic_faults_append hlast hshape, List.append_assoc]
  rfl

/-- The first part ends in a comment, and both have a character that is no token. -/
theorem scan_append_of_newline_at :
    let a := ascii "\"x\ny\" 1.\n@ // \"\n"
    let b := ascii "2\n@ z"
    let whole := (⟨a ++ b, [], 0⟩ : Source).scan ⟨[], []⟩
    let first := (⟨a, [], 0⟩ : Source).scan ⟨[], []⟩
    let second := (⟨b, [], 0⟩ : Source).scan ⟨[], []⟩
    a.getLast? = some Byte.newline ∧ first.2.count (some .unterminatedString) = 0 ∧
      whole.1 = first.1.filter (·.kind ≠ .eof) ++ second.1.map (Token.shift a) ∧
      whole.2.entries = first.2.entries ++ second.2.entries.map (Diagnostic.shift a) :=
  ⟨by decide, by decide +kernel,
    scan_append_of_newline _ _ [] 0 ⟨[], []⟩ (by decide) (by decide +kernel)⟩

end Source

end LoxLex
