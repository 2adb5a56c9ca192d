/-! The interchange form: untyped values in which trees, tables and settings travel between the
editor, its views and the generation service. Decoding ignores fields it does not know; an optional
field may be left out or empty. A record may also come as the list of its values in order. -/
namespace ProblemScript

/-- An untyped value. Whole numbers below `2 ^ 64` are told apart from all other numbers, which
are kept as written. -/
inductive Wire where
  | null
  | bool (b : Bool)
  | nat (n : Nat)
  | number (literal : String)
  | text (s : String)
  | list (items : List Wire)
  | record (fields : List (String × Wire))
deriving Repr, Inhabited

namespace Wire

/-- The value under a name. -/
def field? (fields : List (String × Wire)) (name : String) : Option Wire :=
  (fields.find? (·.1 == name)).map (·.2)

/-- The fields of a record with the given names. As a list of values in the order of the names it
has to have the first `least` of them. -/
def asRecord? (names : List String) (least : Nat) : Wire → Option (List (String × Wire))
  | record fields => some fields
  | list items =>
    if least ≤ items.length && items.length ≤ names.length then some (names.zip items) else none
  | _ => none

/-- A table has its own names, so it has no form as a list. -/
def asTable? : Wire → Option (List (String × Wire))
  | record fields => some fields
  | _ => none

/-- One of several names, written alone or as a record that holds nothing under it. -/
def asName? : Wire → Option String
  | text s => some s
  | record [(name, null)] => some name
  | _ => none

def asList? : Wire → Option (List Wire)
  | list items => some items
  | _ => none

def asText? : Wire → Option String
  | text s => some s
  | _ => none

def asNat? : Wire → Option Nat
  | nat n => some n
  | _ => none

def asBool? : Wire → Option Bool
  | bool b => some b
  | _ => none

/-- A field that has to be there. -/
def required {α : Type} (decode : Wire → Option α) (fields : List (String × Wire))
    (name : String) : Option α :=
  (field? fields name).bind decode

/-- A field with a value for when it is left out. -/
def defaulted {α : Type} (decode : Wire → Option α) (fallback : α)
    (fields : List (String × Wire)) (name : String) : Option α :=
  match field? fields name with
  | none => some fallback
  | some w => decode w

/-- A value that may be empty. -/
def nullable {α : Type} (decode : Wire → Option α) : Wire → Option (Option α)
  | null => some none
  | w => (decode w).map some

/-- A field that may be left out or empty. -/
def optional {α : Type} (decode : Wire → Option α) (fields : List (String × Wire))
    (name : String) : Option (Option α) :=
  defaulted (nullable decode) none fields name

/-- A list of values of one kind. -/
def listOf {α : Type} (decode : Wire → Option α) (w : Wire) : Option (List α) :=
  w.asList?.bind (·.mapM decode)

/-- An optional value, empty when absent. -/
def ofOption {α : Type} (encode : α → Wire) : Option α → Wire
  | none => null
  | some a => encode a

/-- Fields of which the absent ones are left out. -/
def present (fields : List (String × Option Wire)) : List (String × Wire) :=
  fields.filterMap fun f => f.2.map (f.1, ·)

end Wire
end ProblemScript
