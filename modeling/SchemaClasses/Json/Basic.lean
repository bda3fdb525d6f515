import SchemaClasses.Number.Numeral
import SchemaClasses.Ordered

/-!
# JSON values

Objects keep the order of their keys, and integers are kept apart from other numbers. The accessors
say what a value holds when it has the asked-for form, and nothing otherwise.
-/

namespace SchemaClasses

inductive Json where
  | null
  | bool (value : Bool)
  | num (value : Number)
  | str (value : String)
  | arr (items : List Json)
  | obj (fields : List (String × Json))

namespace Json

def asObject? : Json → Option (List (String × Json))
  | .obj fields => some fields
  | _ => none

def asArray? : Json → Option (List Json)
  | .arr items => some items
  | _ => none

def asString? : Json → Option String
  | .str value => some value
  | _ => none

def asBool? : Json → Option Bool
  | .bool value => some value
  | _ => none

/-- The value of an integer that fits 64 bits with a sign. -/
def asInt64? : Json → Option Int
  | .num (.int value) =>
    if -0x8000000000000000 ≤ value ∧ value ≤ 0x7FFFFFFFFFFFFFFF then some value else none
  | _ => none

def get? (value : Json) (key : String) : Option Json :=
  value.asObject?.bind fun fields => Ordered.get? fields key

def string? (value : Json) (key : String) : Option String := (value.get? key).bind asString?

def array? (value : Json) (key : String) : Option (List Json) := (value.get? key).bind asArray?

def isObject (value : Json) : Bool := value.asObject?.isSome

/-- The only item of an array that has one item. -/
def only? : Json → Option Json
  | .arr [item] => some item
  | _ => none

def ofNat (n : Nat) : Json := .num (.int n)

def ofString? (text : Option String) : Json := text.elim .null .str

def ofStrings (texts : List String) : Json := .arr (texts.map .str)

end Json

end SchemaClasses
