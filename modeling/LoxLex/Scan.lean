import LoxLex.Diagnostic.Sink
import LoxLex.Source.Cursor
import LoxLex.Token.Basic

/-!
# Scanning

A scanner reads a source with a cursor, one byte after the other. The first byte of a segment tells
how the others are read. Some segments are tokens, some are reported to a sink, and the others are
left out.

## Main definitions

* `Scanner.scanToken` — reads one segment.
* `Scanner.scan`, `Scanner.scanTimes` — scans of a whole source.
* `Source.scan` — a scan by a new scanner.
-/

namespace LoxLex

structure Scanner where
  cursor : Source.Cursor
  sink : Sink
deriving DecidableEq, Repr

namespace Scanner

/-- What was read since the mark, as a token. -/
def token (s : Scanner) (kind : Kind) (literal : Option Literal := none) : Token :=
  { kind, lexeme := s.cursor.lexeme, literal, line := s.cursor.here.line, span := s.cursor.span }

def report (s : Scanner) (f : Fault) : Scanner :=
  { s with sink := s.sink.error (some f.code) f.message f.span }

def advance (s : Scanner) : Scanner := { s with cursor := s.cursor.advance.2 }

def readWhile (p : Byte → Bool) (s : Scanner) : Scanner :=
  { s with cursor := s.cursor.readWhile p }

def accept (s : Scanner) (b : Byte) : Bool × Scanner :=
  let (accepted, cursor) := s.cursor.accept b
  (accepted, { s with cursor })

/-- Behind two slashes, reads to the end of the line and over it. -/
def skipComment (s : Scanner) : Scanner :=
  ((s.readWhile (· ≠ Byte.newline)).accept Byte.newline).2

/-- The symbol that ends where the cursor stands. -/
def scanSymbol (s : Scanner) (symbol : Symbol) : Option Token × Scanner :=
  (some (s.token (.symbol symbol)), s)

/-- Behind a symbol that an equals sign makes a longer one of. -/
def scanLonger (s : Scanner) (longer symbol : Symbol) : Option Token × Scanner :=
  let (accepted, s) := s.accept '='.toUInt8
  s.scanSymbol (if accepted then longer else symbol)

/-- Behind a slash. A second one begins a comment. -/
def scanSlash (s : Scanner) : Option Token × Scanner :=
  let (accepted, s) := s.accept Byte.slash
  if accepted then (none, s.skipComment) else s.scanSymbol .slash

/-- Behind a quote, reads to the next one. -/
def scanString (s : Scanner) : Option Token × Scanner :=
  let s := s.readWhile (· ≠ Byte.quote)
  if s.cursor.isAtEnd then (none, s.report (.unterminatedString s.cursor.span.atEnd))
  else
    let s := s.advance
    (some (s.token .string (some (.string (s.cursor.lexeme.drop 1).dropLast))), s)

/-- Behind a digit, reads the other digits, and a fraction if a digit follows the dot. -/
def scanNumber (s : Scanner) : Option Token × Scanner :=
  let s := s.readWhile Byte.isDigit
  let s :=
    if s.cursor.peek = Byte.dot ∧ s.cursor.peekNext.isDigit then
      s.advance.readWhile Byte.isDigit
    else s
  (some (s.token .number (some (.number (Decimal.ofNumeral s.cursor.lexeme).toBinary64))), s)

def scanWord (s : Scanner) : Option Token × Scanner :=
  let s := s.readWhile Byte.isWordPart
  (some (s.token (.ofWord s.cursor.lexeme)), s)

/-- Behind a byte that begins no token, reads what belongs to the same character. -/
def reportStray (s : Scanner) (b : Byte) : Scanner :=
  let s := if b.isLead then s.readWhile Byte.isContinuation else s
  s.report (.unexpectedCharacter s.cursor.lexeme s.cursor.span)

/-- Reads one segment from its first byte on; not every segment is a token. -/
def scanToken (s : Scanner) : Option Token × Scanner :=
  let b := s.cursor.advance.1
  let s := s.advance
  match Char.ofUInt8 b with
  | '(' => s.scanSymbol .leftParen
  | ')' => s.scanSymbol .rightParen
  | '\x7b' => s.scanSymbol .leftBrace
  | '\x7d' => s.scanSymbol .rightBrace
  | ',' => s.scanSymbol .comma
  | '.' => s.scanSymbol .dot
  | '-' => s.scanSymbol .minus
  | '+' => s.scanSymbol .plus
  | ';' => s.scanSymbol .semicolon
  | '*' => s.scanSymbol .star
  | '!' => s.scanLonger .bangEqual .bang
  | '=' => s.scanLonger .equalEqual .equal
  | '<' => s.scanLonger .lessEqual .less
  | '>' => s.scanLonger .greaterEqual .greater
  | '/' => s.scanSlash
  | ' ' | '\t' | '\r' | '\n' => (none, s)
  | '"' => s.scanString
  | _ =>
    if b.isDigit then s.scanNumber
    else if b.isWordStart then s.scanWord
    else (none, s.reportStray b)

def markHere (s : Scanner) : Scanner := { s with cursor := s.cursor.markHere }

/-! ### Every segment is read -/

theorem left_accept_le (s : Scanner) (b : Byte) :
    (s.accept b).2.cursor.left ≤ s.cursor.left := s.cursor.left_accept_le b

theorem left_readWhile_le (s : Scanner) (p : Byte → Bool) :
    (s.readWhile p).cursor.left ≤ s.cursor.left := s.cursor.left_readWhile_le p

theorem left_skipComment_le (s : Scanner) : s.skipComment.cursor.left ≤ s.cursor.left :=
  Nat.le_trans (left_accept_le _ _) (s.left_readWhile_le _)

theorem left_scanLonger_le (s : Scanner) (longer symbol : Symbol) :
    (s.scanLonger longer symbol).2.cursor.left ≤ s.cursor.left := s.left_accept_le _

theorem left_scanSlash_le (s : Scanner) : s.scanSlash.2.cursor.left ≤ s.cursor.left := by
  unfold scanSlash
  dsimp only
  split
  · exact Nat.le_trans (left_skipComment_le _) (s.left_accept_le _)
  · exact s.left_accept_le _

theorem left_scanString_le (s : Scanner) : s.scanString.2.cursor.left ≤ s.cursor.left := by
  unfold scanString
  dsimp only
  split
  · exact s.left_readWhile_le _
  · exact Nat.le_trans (Source.Cursor.left_advance_le _) (s.left_readWhile_le _)

theorem left_scanNumber_le (s : Scanner) : s.scanNumber.2.cursor.left ≤ s.cursor.left := by
  unfold scanNumber
  dsimp only
  split
  · exact Nat.le_trans (left_readWhile_le _ _)
      (Nat.le_trans (Source.Cursor.left_advance_le _) (s.left_readWhile_le _))
  · exact s.left_readWhile_le _

theorem left_reportStray_le (s : Scanner) (b : Byte) :
    (s.reportStray b).cursor.left ≤ s.cursor.left := by
  unfold reportStray
  dsimp only [report]
  split
  · exact s.left_readWhile_le _
  · exact Nat.le_refl _

theorem left_scanToken_lt {s : Scanner} (h : s.cursor.isAtEnd = false) :
    s.scanToken.2.cursor.left < s.cursor.left := by
  refine Nat.lt_of_le_of_lt ?_ (Source.Cursor.left_advance_lt h)
  unfold scanToken
  dsimp only
  split
  case h_11 | h_12 | h_13 | h_14 => exact left_scanLonger_le _ _ _
  case h_15 => exact left_scanSlash_le _
  case h_20 => exact left_scanString_le _
  case h_21 =>
    split
    · exact left_scanNumber_le _
    · split
      · exact left_readWhile_le _ _
      · exact left_reportStray_le _ _
  all_goals exact Nat.le_refl _

/-! ### Whole scans -/

/-- Reads segment after segment to the end of the text. -/
def scanRest (s : Scanner) : List Token × Scanner :=
  if s.cursor.isAtEnd then ([], s)
  else
    let found := s.markHere.scanToken
    let rest := scanRest found.2
    (found.1.toList ++ rest.1, rest.2)
termination_by s.cursor.left
decreasing_by
  have h : s.cursor.isAtEnd = false := by simp_all
  exact left_scanToken_lt (s := s.markHere) h

/-- Scans the source from its beginning, wherever the cursor stands. -/
def scan (s : Scanner) : List Token × Scanner :=
  let (tokens, last) := scanRest { s with cursor := s.cursor.reset }
  (tokens ++ [last.markHere.token .eof], last.markHere)

/-- Scans the source `n` times over. -/
def scanTimes : Nat → Scanner → List (List Token) × Scanner
  | 0, s => ([], s)
  | n + 1, s =>
    let (tokens, next) := s.scan
    let (more, last) := scanTimes n next
    (tokens :: more, last)

end Scanner

namespace Source

/-- Scans a source and reports its faults to a sink. -/
def scan (s : Source) (sink : Sink) : List Token × Sink :=
  let (tokens, scanner) := Scanner.scan { cursor := { source := s }, sink }
  (tokens, scanner.sink)

/-- The tokens of a source; the last one is the end-of-file token. -/
def tokens (s : Source) : List Token := (s.scan ⟨ascii "Scanner", []⟩).1

/-- What one scanner finds when it scans a source `n` times over. -/
def scanTimes (s : Source) (n : Nat) (sink : Sink) : List (List Token) × Sink :=
  let (scans, scanner) := Scanner.scanTimes n { cursor := { source := s }, sink }
  (scans, scanner.sink)

end Source

end LoxLex
