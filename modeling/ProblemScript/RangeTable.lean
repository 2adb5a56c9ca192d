import ProblemScript.Tree.Traversal

/-! Tables from written paths to byte ranges. A table belongs to one text. Paths keep the order in
which they were first entered. -/
namespace ProblemScript

/-- Range and value of the part that a path names. -/
structure RangeEntry where
  range : Span
  value : Option String
deriving DecidableEq, Repr

/-- An ordered table with one entry for each path. -/
@[ext] structure RangeTable where
  entries : List (String × RangeEntry)
  distinct : (entries.map Prod.fst).Nodup
deriving DecidableEq

namespace RangeTable

/-- The list with `entry` under `path`: in the old place if the path is there, else at the end. -/
def put (path : String) (entry : RangeEntry) :
    List (String × RangeEntry) → List (String × RangeEntry)
  | [] => [(path, entry)]
  | e :: es => if e.1 = path then (path, entry) :: es else e :: put path entry es

theorem map_fst_put (path : String) (entry : RangeEntry) (es : List (String × RangeEntry)) :
    (put path entry es).map Prod.fst =
      if path ∈ es.map Prod.fst then es.map Prod.fst else es.map Prod.fst ++ [path] := by
  induction es with
  | nil => simp [put]
  | cons e es ih =>
    by_cases h : e.1 = path
    · simp [put, h]
    · have h' : ¬path = e.1 := fun he => h he.symm
      by_cases hm : path ∈ es.map Prod.fst <;> simp_all [put]

def empty : RangeTable := ⟨[], by simp⟩

instance : Inhabited RangeTable := ⟨empty⟩

def insert (t : RangeTable) (path : String) (entry : RangeEntry) : RangeTable where
  entries := put path entry t.entries
  distinct := by
    rw [map_fst_put]
    split
    · exact t.distinct
    · rename_i h
      exact List.nodup_append.2 ⟨t.distinct, by simp, fun a ha b hb hab => by
        rw [List.mem_singleton.1 hb] at hab
        exact h (hab ▸ ha)⟩

/-- Enters a list in order; a repeated path takes the later entry. -/
def ofList (es : List (String × RangeEntry)) : RangeTable :=
  es.foldl (fun t e => t.insert e.1 e.2) empty

/-- The table of the text that a tree was read from. The placeholder has nothing to name. -/
def ofTree (tree : Node) : RangeTable :=
  if tree.isPlaceholder then empty
  else ofList (tree.nodes.map fun n => (n.path, ⟨n.span, n.value⟩))

def get? (t : RangeTable) (path : String) : Option RangeEntry :=
  (t.entries.find? (·.1 == path)).map (·.2)

theorem find?_put (path q : String) (entry : RangeEntry) (es : List (String × RangeEntry)) :
    (put path entry es).find? (·.1 == q) =
      if path = q then some (path, entry) else es.find? (·.1 == q) := by
  induction es with
  | nil => by_cases h : path = q <;> simp [put, h]
  | cons e es ih =>
    by_cases he : e.1 = path
    · by_cases h : path = q <;> simp_all [put]
    · by_cases h : path = q
      · have hne : ¬e.1 = q := fun h' => he (h'.trans h.symm)
        simp_all [put]
      · simp only [put, he, if_false, List.find?_cons, ih, h]

/-- A look-up finds what was entered last. -/
@[simp] theorem get?_insert (t : RangeTable) (path q : String) (entry : RangeEntry) :
    (t.insert path entry).get? q = if path = q then some entry else t.get? q := by
  simp only [get?, insert, find?_put]
  split <;> rfl

def range? (t : RangeTable) (path : String) : Option Span := (t.get? path).map (·.range)

def contains (t : RangeTable) (path : String) : Bool := (t.get? path).isSome

def paths (t : RangeTable) : List String := t.entries.map (·.1)

def size (t : RangeTable) : Nat := t.entries.length

def isEmpty (t : RangeTable) : Bool := t.entries.isEmpty

/-- The narrower of two entries, and the first when they are equally long. -/
def narrower (best : Option (String × RangeEntry)) (e : String × RangeEntry) :
    Option (String × RangeEntry) :=
  match best with
  | none => some e
  | some b => if e.2.range.length < b.2.range.length then some e else some b

/-- The path of the narrowest range that holds `offset`; the first of several equally narrow. -/
def pathAt? (t : RangeTable) (offset : Nat) : Option String :=
  ((t.entries.filter (·.2.range.contains offset)).foldl narrower none).map (·.1)

end RangeTable
end ProblemScript
