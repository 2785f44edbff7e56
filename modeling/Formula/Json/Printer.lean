import Formula.Datum
import Formula.Text.Hex

/-!
# Stored data as JSON text

On one line, in printable ASCII, with the entries of a mapping in ascending order. Keys
without an order stay as they are.
-/

namespace Formula.Json

open Text (hex)

def numberStyle : Decimal.Style := ⟨"NaN", "Infinity", false⟩

def unitEscape (unit : Nat) : List Char := '\\' :: 'u' :: hex .lower 4 unit

/-- A code point above U+FFFF takes two units. -/
def escape (c : Char) : List Char :=
  if c = '"' || c = '\\' then ['\\', c]
  else if c = '\n' then ['\\', 'n']
  else if c = '\r' then ['\\', 'r']
  else if c = '\t' then ['\\', 't']
  else if c = '\x08' then ['\\', 'b']
  else if c = '\x0C' then ['\\', 'f']
  else if ' ' ≤ c && c ≤ '~' then [c]
  else
    let n := c.toNat
    if n < 0x10000 then unitEscape n
    else unitEscape (0xD800 + (n - 0x10000) / 0x400) ++ unitEscape (0xDC00 + (n - 0x10000) % 0x400)

def quoted (s : String) : String :=
  String.ofList ('"' :: (s.toList.flatMap escape ++ ['"']))

def scalarText : Number → String
  | .whole n => toString n
  | .real x => numberStyle.text x
  | .truth b => if b then "true" else "false"
  | .absent => "null"

mutual
def write : Datum → String
  | .scalar n => scalarText n
  | .text s => quoted s
  | .list items => "[" ++ ", ".intercalate (writeItems items) ++ "]"
  | .mapping fields strays =>
    let named := (writeFields fields).mergeSort fun a b => decide (a.1 ≤ b.1)
    let others := writeStrays strays
    let others := (ascending? (fun a b => a.1.less? b.1) others).getD others
    "\x7b" ++ ", ".intercalate (named.map (fun f => quoted f.1 ++ ": " ++ f.2) ++
      others.map fun f => quoted (scalarText f.1) ++ ": " ++ f.2) ++ "\x7d"
def writeItems : List Datum → List String
  | [] => []
  | d :: ds => write d :: writeItems ds
def writeFields : List (String × Datum) → List (String × String)
  | [] => []
  | (name, d) :: rest => (name, write d) :: writeFields rest
def writeStrays : List (Number × Datum) → List (Number × String)
  | [] => []
  | (key, d) :: rest => (key, write d) :: writeStrays rest
end

end Formula.Json
