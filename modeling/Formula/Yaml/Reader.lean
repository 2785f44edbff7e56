import Formula.Text.Units
import Formula.Yaml.Plain

/-!
# Stored data from YAML text

Block mappings and lists, flow lists and mappings, plain and quoted scalars, and
comments. A document without content holds nothing. Of two entries with one key
the later one counts.
-/

namespace Formula.Yaml

inductive Fault where
  | scalar
  | layout
  | meaning
  deriving DecidableEq

-- ---------------------------------------------------------------------------
-- Quoted scalars
-- ---------------------------------------------------------------------------

/-- The end of a line inside a scalar counts as a space. -/
def unbroken (c : Char) : Char := if c == '\n' then ' ' else c

def singleQuoted? : List Char → Option (List Char × List Char)
  | [] => none
  | '\'' :: '\'' :: rest => do
    let (text, after) ← singleQuoted? rest
    return ('\'' :: text, after)
  | '\'' :: rest => some ([], rest)
  | c :: rest => do
    let (text, after) ← singleQuoted? rest
    return (unbroken c :: text, after)

def ofLetterEscape? : Char → Option Char
  | '0' => some '\x00'
  | 'a' => some '\x07'
  | 'b' => some '\x08'
  | 't' | '\t' => some '\t'
  | 'n' => some '\n'
  | 'v' => some '\x0B'
  | 'f' => some '\x0C'
  | 'r' => some '\r'
  | 'e' => some '\x1B'
  | ' ' => some ' '
  | '"' => some '"'
  | '/' => some '/'
  | '\\' => some '\\'
  | 'N' => some '\x85'
  | '_' => some '\xA0'
  | 'L' => some '\u2028'
  | 'P' => some '\u2029'
  | _ => none

def escapeWidth : Char → Nat
  | 'x' => 2
  | 'u' => 4
  | 'U' => 8
  | _ => 0

def doubleQuoted? (fuel : Nat) (text : List Char) : Option (List Nat × List Char) :=
  match fuel, text with
  | fuel + 1, '\\' :: e :: rest =>
    match escapeWidth e with
    | 0 => do
      let c ← ofLetterEscape? e
      let (units, after) ← doubleQuoted? fuel rest
      return (c.toNat :: units, after)
    | width => do
      if rest.length < width then none
      let unit ← Text.hexNumber? (rest.take width)
      let (units, after) ← doubleQuoted? fuel (rest.drop width)
      return (unit :: units, after)
  | _ + 1, '"' :: rest => some ([], rest)
  | fuel + 1, c :: rest => do
    let (units, after) ← doubleQuoted? fuel rest
    return ((unbroken c).toNat :: units, after)
  | _, _ => none

def quoted? : List Char → Option (String × List Char)
  | '\'' :: rest => do
    let (text, after) ← singleQuoted? rest
    return (String.ofList text, after)
  | '"' :: rest => do
    let (units, after) ← doubleQuoted? (rest.length + 1) rest
    return (String.ofList (Text.ofUnits units), after)
  | _ => none

def startsQuoted (text : List Char) : Bool :=
  match text with
  | '\'' :: _ | '"' :: _ => true
  | _ => false

-- ---------------------------------------------------------------------------
-- Plain scalars
-- ---------------------------------------------------------------------------

def isSpace (c : Char) : Bool := c == ' ' || c == '\t'

def skipSpace (text : List Char) : List Char := text.dropWhile isSpace

def trimSpace (text : List Char) : List Char := (text.reverse.dropWhile isSpace).reverse

def isRest (text : List Char) : Bool :=
  match skipSpace text with
  | [] => true
  | '#' :: _ => text.head?.any isSpace
  | _ => false

def canStart (c : Char) : Bool :=
  c ∉ ['#', ',', '[', ']', '\x7b', '\x7d', '&', '*', '!', '|', '>', '%', '@', '\x60']

def isPunctuation (c : Char) : Bool := c ∈ [',', '[', ']', '\x7b', '\x7d']

def isBreak (c : Char) : Bool := isSpace c || c == '\n'

/-- The plain scalar at the start of a text, and what follows it. It ends at a
comment, at a colon before a space or the end, and in a flow at its punctuation. -/
def plainRun (inFlow : Bool) : List Char → List Char × List Char
  | [] => ([], [])
  | c :: rest =>
    let ends := match c, rest with
      | ' ', '#' :: _ | '\n', '#' :: _ => true
      | ':', [] => true
      | ':', d :: _ => isBreak d || (inFlow && isPunctuation d)
      | c, _ => if inFlow then isPunctuation c || c == '?' else c == '\n'
    if ends then ([], c :: rest)
    else
      let (run, after) := plainRun inFlow rest
      (unbroken c :: run, after)

-- ---------------------------------------------------------------------------
-- Flows
-- ---------------------------------------------------------------------------

def scalar? (inFlow : Bool) (text : List Char) : Except Fault (Datum × List Char) :=
  if startsQuoted text then
    match quoted? text with
    | some (s, after) => .ok (.text s, after)
    | none => .error .scalar
  else if text.head?.all canStart then
    let (run, after) := plainRun inFlow text
    let run := trimSpace run
    if otherWords.contains (String.ofList run) then .error .meaning else .ok (plain run, after)
  else .error .scalar

def keyed (mapping key d : Datum) : Except Fault Datum :=
  match mapping.insert? key d with
  | some mapping => .ok mapping
  | none => .error .meaning

def skipBreaks (fuel : Nat) (text : List Char) : List Char :=
  match fuel, text.dropWhile isBreak with
  | fuel + 1, '#' :: rest => skipBreaks fuel (rest.dropWhile (· != '\n'))
  | _, rest => rest

def next (text : List Char) : List Char := skipBreaks text.length text

mutual
def flow? (fuel : Nat) (inFlow : Bool) (text : List Char) : Except Fault (Datum × List Char) :=
  match fuel with
  | 0 => .error .layout
  | fuel + 1 =>
    match text with
    | '[' :: rest => do
      let (items, after) ← flowItems? fuel (next rest)
      return (.list items, after)
    | '\x7b' :: rest => do
      flowEntries? fuel (.record []) (next rest)
    | text => scalar? inFlow text
/-- Items up to the closing bracket. An item with a colon is a mapping of one entry. -/
def flowItems? (fuel : Nat) (text : List Char) : Except Fault (List Datum × List Char) :=
  match fuel with
  | 0 => .error .layout
  | fuel + 1 =>
    match text with
    | ']' :: after => .ok ([], after)
    | text => do
      let (d, after) ← flow? fuel true text
      let (d, after) ← match next after with
        | ':' :: rest => do
          let (value, after) ← flowValue? fuel (next rest)
          pure (← keyed (.record []) d value, after)
        | after => pure (d, after)
      match next after with
      | ',' :: rest => do
        let (ds, after) ← flowItems? fuel (next rest)
        return (d :: ds, after)
      | ']' :: rest => return ([d], rest)
      | _ => throw .layout
/-- Entries up to the closing brace, added to the mapping read so far. A key alone has
nothing for its value. -/
def flowEntries? (fuel : Nat) (mapping : Datum) (text : List Char) :
    Except Fault (Datum × List Char) :=
  match fuel with
  | 0 => .error .layout
  | fuel + 1 =>
    match text with
    | '\x7d' :: after => .ok (mapping, after)
    | text => do
      let (key, after) ← scalar? true text
      let (d, after) ← match next after with
        | ':' :: rest => flowValue? fuel (next rest)
        | after => pure (.null, after)
      let mapping ← keyed mapping key d
      match next after with
      | ',' :: rest => flowEntries? fuel mapping (next rest)
      | '\x7d' :: rest => return (mapping, rest)
      | _ => throw .layout
def flowValue? (fuel : Nat) (text : List Char) : Except Fault (Datum × List Char) :=
  match fuel with
  | 0 => .error .layout
  | fuel + 1 =>
    match text with
    | ',' :: _ | ']' :: _ | '\x7d' :: _ => .ok (.null, text)
    | text => flow? fuel true text
end

-- ---------------------------------------------------------------------------
-- Blocks
-- ---------------------------------------------------------------------------

structure Line where
  indent : Nat
  text : List Char

def startsOpen (text : List Char) : Bool :=
  match text with
  | '[' :: _ | '\x7b' :: _ => true
  | text => startsQuoted text

/-- A datum that takes up the rest of a line, up to a comment, and the lines after
it. What has brackets or quotes may take up some of the next lines too. -/
def inline? (text : List Char) (rest : List Line) : Except Fault (Datum × List Line) := do
  let whole := if startsOpen text then text ++ rest.flatMap ('\n' :: ·.text) else text
  let (d, after) ← flow? (2 * whole.length + 2) false whole
  if !isRest (after.takeWhile (· != '\n')) then throw .layout
  return (d, rest.drop (whole.count '\n' - after.count '\n'))

def splitLines (text : List Char) : List (List Char) :=
  text.foldr (fun c lines => if c = '\n' then [] :: lines else match lines with
    | [] => [[c]]
    | line :: rest => (c :: line) :: rest) [[]]

def Line.ofText? (text : List Char) : Option Line :=
  let content := text.dropWhile (· == ' ')
  if isRest (' ' :: content) then none
  else some ⟨text.length - content.length, trimSpace (content.filter (· != '\r'))⟩

def linesOf (text : List Char) : List Line :=
  let lines := (splitLines text).filterMap Line.ofText?
  let body := lines.takeWhile (·.text != ['.', '.', '.'])
  match body with
  | ⟨0, ['-', '-', '-']⟩ :: rest => rest
  | body => body

def key? (text : List Char) : Option (Datum × List Char) := do
  let (key, after) ← (scalar? false text).toOption
  match skipSpace after with
  | ':' :: rest => if rest.isEmpty || rest.head?.any isSpace then some (key, rest) else none
  | _ => none

def Line.item? (l : Line) : Option Line :=
  match l.text with
  | ['-'] => some ⟨l.indent + 1, []⟩
  | '-' :: ' ' :: rest =>
    let content := skipSpace rest
    some ⟨l.indent + (l.text.length - content.length), content⟩
  | _ => none

mutual
def block? (fuel : Nat) (lines : List Line) : Except Fault (Datum × List Line) :=
  match fuel with
  | 0 => .error .layout
  | fuel + 1 =>
    match lines with
    | [] => .ok (.null, [])
    | l :: rest =>
      if l.item?.isSome then do
        let (items, after) ← blockItems? fuel l.indent (l :: rest)
        return (.list items, after)
      else if (key? l.text).isSome then blockEntries? fuel l.indent (.record []) (l :: rest)
      else inline? l.text rest
def blockItems? (fuel indent : Nat) (lines : List Line) : Except Fault (List Datum × List Line) :=
  match fuel with
  | 0 => .error .layout
  | fuel + 1 =>
    match lines with
    | [] => .ok ([], [])
    | l :: rest =>
      match l.item? with
      | some inner =>
        if l.indent != indent then .ok ([], l :: rest)
        else do
          let (d, after) ←
            if isRest (' ' :: inner.text) then nested? fuel (indent + 1) rest
            else block? fuel (inner :: rest)
          let (ds, after) ← blockItems? fuel indent after
          return (d :: ds, after)
      | none => .ok ([], l :: rest)
def blockEntries? (fuel indent : Nat) (mapping : Datum) (lines : List Line) :
    Except Fault (Datum × List Line) :=
  match fuel with
  | 0 => .error .layout
  | fuel + 1 =>
    match lines with
    | [] => .ok (mapping, [])
    | l :: rest =>
      if l.indent != indent || l.item?.isSome then .ok (mapping, l :: rest)
      else match key? l.text with
        | none => .error .layout
        | some (key, content) => do
          let (d, after) ←
            if isRest content then
              match rest with
              | next :: _ =>
                if next.indent == indent && next.item?.isSome then block? fuel rest
                else nested? fuel (indent + 1) rest
              | [] => .ok (.null, [])
            else inline? (skipSpace content) rest
          blockEntries? fuel indent (← keyed mapping key d) after
def nested? (fuel indent : Nat) (lines : List Line) : Except Fault (Datum × List Line) :=
  match fuel with
  | 0 => .error .layout
  | fuel + 1 =>
    match lines with
    | l :: rest => if indent ≤ l.indent then block? fuel (l :: rest) else .ok (.null, l :: rest)
    | [] => .ok (.null, [])
end

def read (text : String) : Except Fault Datum := do
  let cs := text.toList
  let (d, after) ← block? (4 * cs.length + 4) (linesOf cs)
  if after.isEmpty then return d else throw .layout

end Formula.Yaml
