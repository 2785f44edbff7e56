import Formula.Yaml.Scalar

/-!
# Stored data as YAML text

In block style, with the entries of a mapping in ascending order; keys without an order
stay as they are. A nested mapping is indented by two; the items of a list stand below
its name, at its indentation.
-/

namespace Formula.Yaml

/-- Doubles; an exponent needs a point before it. -/
def numberStyle : Decimal.Style := ⟨".nan", ".inf", true⟩

def scalarOfNumber : Number → String
  | .whole n => toString n
  | .real x => numberStyle.text x
  | .truth b => if b then "true" else "false"
  | .absent => "null"

inductive Block where
  | inline (lines : List String)
  | mapping (lines : List String)
  | list (lines : List String)

def Block.lines : Block → List String
  | .inline lines | .mapping lines | .list lines => lines

def indented (lines : List String) : List String :=
  lines.map fun line => if line.isEmpty then line else "  " ++ line

def startedBy (start : String) : List String → List String
  | [] => []
  | first :: rest => (start ++ first) :: indented rest

def entryLines (name : String) : Block → List String
  | .inline lines => startedBy (name ++ ": ") lines
  | .mapping lines => (name ++ ":") :: indented lines
  | .list lines => (name ++ ":") :: lines

def nameText (name : String) : String := "".intercalate (scalarLines 0 0 name)

mutual
/-- A datum that starts at a column if it is inline. The lines of a mapping in it
start at the column `margin`, those of a list at `dashes`. -/
def block (margin dashes column : Nat) : Datum → Block
  | .scalar n => .inline [scalarOfNumber n]
  | .text s => .inline (scalarLines margin column s)
  | .list [] => .inline ["[]"]
  | .record [] => .inline ["\x7b\x7d"]
  | .list items => .list (itemLines dashes items)
  | .mapping fields [] =>
    let sorted := (fieldBlocks margin fields).mergeSort fun a b => decide (a.1 ≤ b.1)
    .mapping (sorted.flatMap fun f => entryLines (nameText f.1) f.2)
  | .mapping fields strays =>
    let others := strayBlocks margin strays
    let sorted := (ascending? (fun a b => a.1.less? b.1) others).getD others
    .mapping ((fieldBlocks margin fields).flatMap (fun f => entryLines (nameText f.1) f.2) ++
      sorted.flatMap fun f => entryLines (scalarOfNumber f.1) f.2)
def itemLines (dashes : Nat) : List Datum → List String
  | [] => []
  | d :: ds =>
    startedBy "- " (block (dashes + 2) (dashes + 2) (dashes + 2) d).lines ++ itemLines dashes ds
def fieldBlocks (start : Nat) : List (String × Datum) → List (String × Block)
  | [] => []
  | (name, d) :: rest =>
    (name, block (start + 2) start (start + (nameText name).length + 2) d) ::
      fieldBlocks start rest
def strayBlocks (start : Nat) : List (Number × Datum) → List (Number × Block)
  | [] => []
  | (key, d) :: rest =>
    (key, block (start + 2) start (start + (scalarOfNumber key).length + 2) d) ::
      strayBlocks start rest
end

def isBare : Datum → Bool
  | .scalar _ => true
  | .text s => Style.ofText s.toList == .plain
  | .list _ | .mapping .. => false

/-- A document; a scalar without quotes needs a marker after it. -/
def write (d : Datum) : String :=
  let lines := (block 0 0 0 d).lines ++ (if isBare d then ["..."] else [])
  String.join (lines.map (· ++ "\n"))

end Formula.Yaml
