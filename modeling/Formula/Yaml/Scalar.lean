import Formula.Yaml.Plain

/-!
# Texts as YAML scalars

A text is written plainly where that reads back as the same text, between single
quotes if all its characters are printable ASCII or line breaks, and else between
double quotes with escapes. A line that has become wider than `width` is broken:
at a single space, or anywhere between double quotes.
-/

namespace Formula.Yaml

-- ---------------------------------------------------------------------------
-- Styles
-- ---------------------------------------------------------------------------

inductive Style where
  | plain
  | single
  | double
  deriving DecidableEq

def indicators : List Char :=
  ['#', ',', '[', ']', '\x7b', '\x7d', '&', '*', '!', '|', '>', '\'', '"', '%', '@', '\x60']

def breaksInside : List Char → Bool
  | ':' :: ' ' :: _ => true
  | [':'] => true
  | ' ' :: '#' :: _ => true
  | _ :: rest => breaksInside rest
  | [] => false

def startsBadly : List Char → Bool
  | [] => true
  | [c] => indicators.contains c || c == '-' || c == '?' || c == ':' || c == ' '
  | c :: d :: _ =>
    indicators.contains c || c == ' ' || (d == ' ' && (c == '-' || c == '?' || c == ':'))

def isMarker (text : List Char) : Bool :=
  ['-', '-', '-'].isPrefixOf text || ['.', '.', '.'].isPrefixOf text

def isPrintableAscii (c : Char) : Bool := ' ' ≤ c && c ≤ '~'

def hasSpaceAtBreak : List Char → Bool
  | ' ' :: '\n' :: _ | '\n' :: ' ' :: _ => true
  | _ :: rest => hasSpaceAtBreak rest
  | [] => false

def Style.ofText (text : List Char) : Style :=
  if hasSpaceAtBreak text || !text.all (fun c => isPrintableAscii c || c == '\n') then .double
  else if text.contains '\n' || isAmbiguous (String.ofList text) || isMarker text ||
      startsBadly text || breaksInside text || text.getLast? == some ' ' then .single
  else .plain

-- ---------------------------------------------------------------------------
-- Lines
-- ---------------------------------------------------------------------------

/-- The column beyond which a line is broken. -/
def width : Nat := 80

/-- Lines being written: the finished ones, the last one first, and the current
one in reverse with the column it has reached. -/
structure Pen where
  done : List (List Char)
  line : List Char
  column : Nat

namespace Pen

def write (p : Pen) (text : List Char) : Pen :=
  { p with line := text.reverse ++ p.line, column := p.column + text.length }

def newLine (p : Pen) (margin : Nat) : Pen := ⟨p.line.reverse :: p.done, [], margin⟩

def blankLine (p : Pen) : Pen := { p with done := [] :: p.done }

def lines (p : Pen) : List String := ((p.line.reverse :: p.done).reverse).map String.ofList

end Pen

def runs (text : List Char) : List (List Char) :=
  text.splitBy fun c d => (c == ' ') == (d == ' ') && (c == '\n') == (d == '\n')

/-- Writes the stretches of a plain or single-quoted scalar. A single space in a
wide line becomes a line break, and a line break an empty line. -/
def foldRuns (margin : Nat) (p : Pen) (isFirst : Bool) : List (List Char) → Pen
  | [] => p
  | run :: rest =>
    let p := match run with
      | '\n' :: _ => (run.foldl (fun (p : Pen) _ => p.blankLine) (p.newLine margin))
      | [' '] =>
        if width < p.column && !isFirst && !rest.isEmpty then p.newLine margin else p.write run
      | _ => p.write run
    foldRuns margin p false rest

def doubled (text : List Char) : List Char :=
  text.flatMap fun c => if c = '\'' then ['\'', '\''] else [c]

def letterEscape? (c : Char) : Option Char :=
  match c with
  | '\x00' => some '0'
  | '\x07' => some 'a'
  | '\x08' => some 'b'
  | '\t' => some 't'
  | '\n' => some 'n'
  | '\x0B' => some 'v'
  | '\x0C' => some 'f'
  | '\r' => some 'r'
  | '\x1B' => some 'e'
  | '"' => some '"'
  | '\\' => some '\\'
  | '\x85' => some 'N'
  | '\xA0' => some '_'
  | '\u2028' => some 'L'
  | '\u2029' => some 'P'
  | _ => none

def escape? (c : Char) : Option (List Char) :=
  match letterEscape? c with
  | some e => some ['\\', e]
  | none => if isPrintableAscii c then none else some ('\\' :: Text.codePoint .upper c.toNat)

/-- Breaks a line between double quotes, where `next` comes: the break is escaped,
and so is a space after it. -/
def breakEscaped (margin : Nat) (p : Pen) (next : Option Char) : Pen :=
  let p := (p.write ['\\']).newLine margin
  if next == some ' ' then p.write ['\\'] else p

/-- Writes a double-quoted scalar. Of the characters since the last escape, those
in `held`, in reverse, are not written yet. -/
def foldEscaped (margin : Nat) (p : Pen) (held : List Char) (isFirst : Bool) :
    List Char → Pen
  | [] => p.write held.reverse
  | c :: rest =>
    let mayBreak := !isFirst && !rest.isEmpty
    match escape? c with
    | some e =>
      let p := (p.write held.reverse).write e
      let p := if mayBreak && width + 1 < p.column then breakEscaped margin p rest.head? else p
      foldEscaped margin p [] false rest
    | none =>
      if mayBreak && (c == ' ' || held.isEmpty) && width < p.column + held.length then
        foldEscaped margin (breakEscaped margin (p.write held.reverse) (some c)) [c] false rest
      else foldEscaped margin p (c :: held) false rest

/-- The lines of a text that starts at a column, without the indentation of those
after the first, whose texts start at the column `margin`. -/
def scalarLines (margin column : Nat) (s : String) : List String :=
  let text := s.toList
  let p : Pen := ⟨[], [], column⟩
  match Style.ofText text with
  | .plain => (foldRuns margin p true (runs text)).lines
  | .single =>
    ((foldRuns margin (p.write ['\'']) true ((runs text).map doubled)).write ['\'']).lines
  | .double => ((foldEscaped margin (p.write ['"']) [] true text).write ['"']).lines

end Formula.Yaml
