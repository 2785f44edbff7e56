import Formula.Datum

/-!
# Values of variables

Names with their numbers in the order in which the names first came. A name that
comes again keeps its place and takes the later number.
-/

namespace Formula

structure Values where
  entries : List (Datum × Number)

namespace Values

instance : EmptyCollection Values := ⟨⟨[]⟩⟩

instance : Inhabited Values := ⟨∅⟩

def find? (entries : List (Datum × Number)) (name : Datum) : Option Number :=
  match entries with
  | [] => none
  | (key, n) :: rest => if key.same name then some n else find? rest name

def put (entries : List (Datum × Number)) (name : Datum) (n : Number) : List (Datum × Number) :=
  match entries with
  | [] => [(name, n)]
  | (key, old) :: rest => if key.same name then (key, n) :: rest else (key, old) :: put rest name n

def get? (vs : Values) (name : Datum) : Option Number := find? vs.entries name

def insert (vs : Values) (name : Datum) (n : Number) : Values := ⟨put vs.entries name n⟩

def ofList (pairs : List (Datum × Number)) : Values :=
  pairs.foldl (fun vs pair => vs.insert pair.1 pair.2) ∅

def x (n : Number) : Values := ⟨[(.text "x", n)]⟩

def size (vs : Values) : Nat := vs.entries.length

def report (vs : Values) : String :=
  let fields := vs.entries.map fun e => e.1.report ++ ": " ++ e.2.text
  "VariableValues(\x7b" ++ ", ".intercalate fields ++ "\x7d)"

end Values

end Formula
