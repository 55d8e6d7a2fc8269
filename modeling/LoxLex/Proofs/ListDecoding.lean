import Mathlib.Data.List.Basic
import LoxLex.Proofs.LongestMatch
import LoxLex.Proofs.Places
import LoxLex.Proofs.Spacing
import LoxLex.Token.Listing

/-!
# Reading a list of tokens back

Lexemes and literals are listed as they are, and a string may hold whatever separates them. Still
a listed token tells where it ends: its kind is known by the first blank, and a lexeme of a known
kind by the next blank or, in a string, by the next quote. The literal is then known as well.

## Main definitions

* `Kind.Spells` — the lexemes and literals that tokens of a kind have.
* `SelfDelimiting` — whether what is written can be read off the beginning of a text.

## Main statements

* `Source.spells_of_mem_scan`: every token of a scan is spelled as its kind is.
* `Token.selfDelimiting_format`: a listed token tells where it ends.
* `Source.scan_listText_eq_iff`: scans with the same list have the same kinds, lexemes and
  literals.
-/

namespace LoxLex

/-! ## What is written can be read -/

/-- Whether a text that begins with what `write` makes of a thing with the property `p` tells what
`g` makes of it, and where it ends. -/
def SelfDelimiting {α β : Type} (p : α → Prop) (write : α → Bytes) (g : α → β) : Prop :=
  ∀ a b, p a → p b → ∀ rest rest', write a ++ rest = write b ++ rest' → g a = g b ∧ rest = rest'

/-- Things that tell where they end are read back one after the other. -/
theorem SelfDelimiting.map_eq {α β : Type} {p : α → Prop} {write : α → Bytes} {g : α → β}
    (h : SelfDelimiting p write g) (hne : ∀ a, write a ≠ []) {l l' : List α} (hl : ∀ a ∈ l, p a)
    (hl' : ∀ a ∈ l', p a) (heq : l.flatMap write = l'.flatMap write) : l.map g = l'.map g := by
  induction l generalizing l' with
  | nil =>
    cases l' with
    | nil => rfl
    | cons b l' => simp [hne] at heq
  | cons a l ih =>
    cases l' with
    | nil => simp [hne] at heq
    | cons b l' =>
      obtain ⟨ha, hl⟩ := List.forall_mem_cons.mp hl
      obtain ⟨hb, hl'⟩ := List.forall_mem_cons.mp hl'
      rw [List.flatMap_cons, List.flatMap_cons] at heq
      obtain ⟨hg, hrest⟩ := h a b ha hb _ _ heq
      rw [List.map_cons, List.map_cons, hg, ih hl hl' hrest]

/-- What stands before the first byte `c` and what stands behind it. -/
theorem append_cons_inj {c : Byte} {a b rest rest' : Bytes} (ha : c ∉ a) (hb : c ∉ b)
    (h : a ++ c :: rest = b ++ c :: rest') : a = b ∧ rest = rest' := by
  induction a generalizing b with
  | nil => cases b <;> grind
  | cons d a ih => cases b <;> grind

/-! ## Names of kinds -/

namespace Kind

@[simp] theorem ofName?_name (kind : Kind) : ofName? kind.name = some kind := by
  have names : ∀ kind ∈ all, ofName? kind.name = some kind := by decide +kernel
  exact names kind kind.mem_all

theorem name_injective {kind other : Kind} (h : kind.name = other.name) : kind = other := by
  rw [← Option.some_inj, ← ofName?_name, h, ofName?_name]

theorem blank_notMem_name (kind : Kind) : ' '.toUInt8 ∉ kind.name := by
  have names : ∀ kind ∈ all, ' '.toUInt8 ∉ kind.name := by decide +kernel
  exact names kind kind.mem_all

/-! ## Spelling -/

/-- The lexemes of the tokens of a kind and their literals. -/
inductive Spells : Kind → Bytes → Option Literal → Prop where
  | symbol (s : Symbol) : Spells (.symbol s) s.spelling none
  | keyword (k : Keyword) : Spells (.keyword k) k.spelling none
  | identifier {word : Bytes} (hword : ' '.toUInt8 ∉ word) : Spells .identifier word none
  | number {numeral : Bytes} (hnumeral : ' '.toUInt8 ∉ numeral) :
      Spells .number numeral (some (.number (Decimal.ofNumeral numeral).toBinary64))
  | string {body : Bytes} (hbody : Byte.quote ∉ body) :
      Spells .string (Byte.quote :: body ++ [Byte.quote]) (some (.string body))
  | eof : Spells .eof [] none

variable {kind : Kind} {lexeme lexeme' : Bytes} {literal literal' : Option Literal}

/-- A lexeme has one literal. -/
theorem Spells.literal_unique (h : kind.Spells lexeme literal) (h' : kind.Spells lexeme literal') :
    literal = literal' := by
  cases h with
  | string hbody =>
    generalize hlexeme : Byte.quote :: _ ++ [Byte.quote] = lexeme at h'
    cases h' with
    | string hbody' => simpa using hlexeme
  | _ =>
    cases h'
    rfl

/-- A lexeme of a known kind tells where it ends, if a blank stands behind it. -/
theorem Spells.append_blank_inj {rest rest' : Bytes} (h : kind.Spells lexeme literal)
    (h' : kind.Spells lexeme' literal')
    (heq : lexeme ++ ' '.toUInt8 :: rest = lexeme' ++ ' '.toUInt8 :: rest') :
    lexeme = lexeme' ∧ rest = rest' := by
  cases h with
  | identifier hword =>
    cases h' with
    | identifier hword' =>
      exact append_cons_inj hword hword' heq
  | number hnumeral =>
    cases h' with
    | number hnumeral' =>
      exact append_cons_inj hnumeral hnumeral' heq
  | string hbody =>
    cases h' with
    | string hbody' =>
      simp only [List.cons_append, List.append_assoc, List.nil_append, List.cons.injEq,
        true_and] at heq
      obtain ⟨rfl, hrest⟩ := append_cons_inj hbody hbody' heq
      exact ⟨rfl, (List.cons.inj hrest).2⟩
  | _ =>
    cases h'
    simpa using heq

end Kind

/-! ## Tokens of a scan -/

namespace Segment

variable {s : Segment} {kind : Kind} {literal : Option Literal}

theorem blank_notMem (h : s.Formed) (hsolid : s.shape.isSolid) : ' '.toUInt8 ∉ s.text := by
  intro hmem
  cases h.isBlank_eq_false hsolid _ hmem

theorem Means.spells (h : s.Means kind literal) (hs : s.Formed) :
    kind.Spells s.text literal := by
  cases h with
  | symbol symbol => exact .symbol symbol
  | keyword k => exact .keyword k
  | identifier => exact .identifier (blank_notMem hs rfl)
  | number => exact .number (blank_notMem hs rfl)
  | string body =>
    obtain ⟨body', hbody, htext⟩ := hs.exists_body rfl
    obtain rfl : body = body' := by simpa using htext
    exact .string hbody

end Segment

/-- Every token of a scan is spelled as its kind is. -/
theorem Source.spells_of_mem_scan {s : Source} {sink : Sink} {t : Token}
    (h : t ∈ (s.scan sink).1) : t.kind.Spells t.lexeme t.literal := by
  rw [scan_eq] at h
  rcases exists_of_mem_tokens h with rfl | ⟨p, hp, ht⟩
  · exact .eof
  · have hs := formed_of_mem_placed hp
    have htoken := hs.token? p.span
    rw [ht] at htoken
    split at htoken
    · obtain ⟨u, hu, hmeans, hlexeme⟩ := htoken
      obtain rfl : t = u := Option.mem_some.mp hu
      exact hlexeme ▸ hmeans.spells hs
    · cases htoken

namespace Token

theorem format_append_newline (t : Token) (rest : Bytes) : t.format ++ ascii "\n" ++ rest =
    t.kind.name ++ ' '.toUInt8 ::
      (t.lexeme ++ ' '.toUInt8 :: (t.literalText ++ Byte.newline :: rest)) := by
  simp [format, ascii, Byte.newline]

/-- A listed token tells its content and where it ends. -/
theorem selfDelimiting_format : SelfDelimiting (fun t : Token => t.kind.Spells t.lexeme t.literal)
    (fun t => t.format ++ ascii "\n") content := by
  intro t u ht hu rest rest' h
  rw [format_append_newline, format_append_newline] at h
  obtain ⟨hname, h⟩ := append_cons_inj t.kind.blank_notMem_name u.kind.blank_notMem_name h
  have hkind := Kind.name_injective hname
  rw [← hkind] at hu
  obtain ⟨hlexeme, h⟩ := ht.append_blank_inj hu h
  have hliteral : t.literal = u.literal := ht.literal_unique (hlexeme ▸ hu)
  have htext : t.literalText = u.literalText := by rw [literalText, literalText, hliteral]
  rw [htext, List.append_cancel_left_eq] at h
  exact ⟨by rw [content, content, hkind, hlexeme, hliteral], (List.cons.inj h).2⟩

/-- A list tells nothing but contents. -/
theorem listText_eq (tokens : List Token) : listText tokens = (tokens.map content).flatMap
    fun c => format { kind := c.1, lexeme := c.2.1, literal := c.2.2 } ++ ascii "\n" := by
  rw [listText, List.flatMap_map]
  rfl

end Token

/-- Scans have the same list of tokens if and only if they have the same kinds, lexemes and
literals in the same order. -/
theorem Source.scan_listText_eq_iff (s t : Source) (sink sink' : Sink) :
    let tokens := (s.scan sink).1
    let others := (t.scan sink').1
    Listing.format .list tokens = Listing.format .list others ↔
      tokens.map Token.content = others.map Token.content := by
  intro tokens others
  constructor
  · exact Token.selfDelimiting_format.map_eq (by simp [ascii]) (fun _ => spells_of_mem_scan)
      fun _ => spells_of_mem_scan
  · intro hcontent
    rw [Listing.format, Token.listText_eq, Token.listText_eq, hcontent]

end LoxLex
