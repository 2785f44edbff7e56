import Formula.Number
import Formula.Text.Quoted

/-!
# Stored data

What a document holds, whatever its notation: scalars, texts, lists, and mappings. A
mapping has fields under names, and it may have data under scalars that are no names:
these are its strays, and they stand after the fields.
-/

namespace Formula

inductive Datum where
  | scalar (value : Number)
  | text (value : String)
  | list (items : List Datum)
  | mapping (fields : List (String × Datum)) (strays : List (Number × Datum))

namespace Datum

@[match_pattern]
abbrev record (fields : List (String × Datum)) : Datum := .mapping fields []

instance : Inhabited Datum := ⟨.scalar .absent⟩

def null : Datum := .scalar .absent

mutual
def report : Datum → String
  | .scalar n => n.text
  | .text s => Text.quoted s
  | .list items => "[" ++ ", ".intercalate (reportItems items) ++ "]"
  | .mapping fields strays =>
    "\x7b" ++ ", ".intercalate (reportFields fields ++ reportStrays strays) ++ "\x7d"
termination_by structural d => d
def reportItems : List Datum → List String
  | [] => []
  | d :: ds => d.report :: reportItems ds
def reportFields : List (String × Datum) → List String
  | [] => []
  | (key, d) :: rest => s!"{Text.quoted key}: {d.report}" :: reportFields rest
def reportStrays : List (Number × Datum) → List String
  | [] => []
  | (key, d) :: rest => s!"{key.text}: {d.report}" :: reportStrays rest
end

/-- The datum inside a sentence: a text stands without quotes. -/
def words : Datum → String
  | .text s => s
  | d => d.report

def text? : Datum → Option String
  | .text s => some s
  | _ => none

/-- Whether the datum has no parts. Only such data can be gathered in sets, or
looked up. -/
def isAtom : Datum → Bool
  | .scalar _ | .text _ => true
  | .list _ | .mapping .. => false

def field? : List (String × Datum) → String → Option Datum
  | [], _ => none
  | (key, d) :: rest, name => if key = name then some d else field? rest name

theorem sizeOf_field?_lt {fields : List (String × Datum)} {name : String} {d : Datum}
    (h : field? fields name = some d) : sizeOf d < sizeOf fields := by
  induction fields with
  | nil => simp [field?] at h
  | cons f rest ih =>
    obtain ⟨key, v⟩ := f
    simp only [field?] at h
    split at h
    · cases h
      simp
      omega
    · have := ih h
      simp
      omega

/-- The datum under a scalar that is no name. -/
def stray? (strays : List (Number × Datum)) (key : Number) : Option Datum :=
  (strays.find? (·.1.same key)).map (·.2)

/-- The entries with one added at the end, or put in the place of an earlier one. -/
def put {κ : Type} (same : κ → κ → Bool) (entries : List (κ × Datum)) (key : κ) (d : Datum) :
    List (κ × Datum) :=
  match entries with
  | [] => [(key, d)]
  | (first, old) :: rest =>
    if same first key then (first, d) :: rest else (first, old) :: put same rest key d

def insert? (mapping key d : Datum) : Option Datum :=
  match mapping, key with
  | .mapping fields strays, .text name => some (.mapping (put (· == ·) fields name d) strays)
  | .mapping fields strays, .scalar n => some (.mapping fields (put Number.same strays n d))
  | _, _ => none

-- ---------------------------------------------------------------------------
-- Comparing
-- ---------------------------------------------------------------------------

mutual
/-- Equality of data: numbers by exact value, mappings in any order. -/
def same : Datum → Datum → Bool
  | .scalar m, .scalar n => m.same n
  | .text s, .text t => s == t
  | .list ds, .list es => sameItems ds es
  | .mapping fs ss, .mapping gs ts =>
    fs.length == gs.length && ss.length == ts.length && sameFields fs gs && sameStrays ss ts
  | _, _ => false
termination_by structural d => d
def sameItems : List Datum → List Datum → Bool
  | [], [] => true
  | d :: ds, e :: es => d.same e && sameItems ds es
  | _, _ => false
def sameFields : List (String × Datum) → List (String × Datum) → Bool
  | [], _ => true
  | (key, d) :: rest, gs =>
    (match field? gs key with
      | some e => d.same e
      | none => false) && sameFields rest gs
def sameStrays : List (Number × Datum) → List (Number × Datum) → Bool
  | [], _ => true
  | (key, d) :: rest, ts =>
    (match stray? ts key with
      | some e => d.same e
      | none => false) && sameStrays rest ts
end

/-- Whether the datum counts as false: nothing, zero, or empty. -/
def isVoid : Datum → Bool
  | .scalar .absent => true
  | .scalar n => n.same (.whole 0)
  | .text s => s.isEmpty
  | .list items => items.isEmpty
  | .mapping fields strays => fields.isEmpty && strays.isEmpty

def holds (d : Datum) : Bool := !d.isVoid

def less? : Datum → Datum → Option Bool
  | .scalar m, .scalar n => m.less? n
  | .text s, .text t => some (s < t)
  | _, _ => none

def atMost? (d e : Datum) : Option Bool := (d.less? e).map (· || d.same e)

@[simp] theorem same_text (s t : String) : same (.text s) (.text t) = (s == t) := by
  rw [same]

@[simp] theorem same_scalar (m n : Number) : same (.scalar m) (.scalar n) = m.same n := by
  rw [same]

end Datum

def ascending? {α : Type} (less? : α → α → Option Bool) : List α → Option (List α)
  | [] => some []
  | a :: rest => do place a (← ascending? less? rest)
where
  place (a : α) : List α → Option (List α)
    | [] => some [a]
    | b :: rest => do
      if ← less? b a then return b :: (← place a rest) else return a :: b :: rest

end Formula
