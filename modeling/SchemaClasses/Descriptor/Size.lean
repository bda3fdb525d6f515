import SchemaClasses.Descriptor

/-!
# Size statements

The statements that add up the heap memory a member owns, beyond the size of its class. What is
stored inside its owner already, such as the slots of a container, is not counted again. A member
that may be absent is only looked into under a guard, and the elements of a container inside a loop;
nested loops name their variables by their depth.
-/

namespace SchemaClasses.Descriptor

def accumulator : String := "accum"

def indent (line : String) : String := "  " ++ line

def accumulate (amount : String) : String := accumulator ++ " += " ++ amount ++ ";"

def braced (head : String) (body : List String) : List String :=
  (head ++ " \x7b") :: body.map indent ++ ["\x7d"]

def characters (accessor : String) : String :=
  accumulate ("int64_t(" ++ accessor ++ ".capacity() * sizeof(char))")

def leafStatements (kind : Leaf) (facets : Facets) (accessor : String) : List String :=
  match kind with
  | .integer | .index | .double | .bool => []
  | .string => [characters accessor]
  | .enumeration _ => if facets.valueType = "std::string" then [characters accessor] else []
  | .reference _ _ _ | .inlineObject _ _ | .json =>
    [accumulate (accessor ++ ".getSizeBytes() - int64_t(sizeof(" ++ facets.valueType ++ "))")]

/-- The expression for a value inside its wrapper. -/
def unwrapped (facets : Facets) (accessor : String) : String :=
  if facets.isOptional then "(*" ++ accessor ++ ")" else accessor

def guarded (facets : Facets) (accessor : String) (statements : List String) : List String :=
  if facets.isOptional && !statements.isEmpty then braced ("if (" ++ accessor ++ ")") statements
  else statements

def elementAt (depth : Nat) : String := "value" ++ depth.repr

def keyAt (depth : Nat) : String := "key" ++ depth.repr

/-- The statements for the member at an accessor, inside `depth` loops. -/
def sizeStatements : Descriptor → (accessor : String) → (depth : Nat) → List String
  | leaf (.reference _ _ true) _, accessor, _ =>
    ["if (" ++ accessor ++ ") \x7b " ++ accumulate (accessor ++ "->getSizeBytes()") ++ " \x7d"]
  | leaf kind facets, accessor, _ =>
    guarded facets accessor (leafStatements kind facets (unwrapped facets accessor))
  | array item facets, accessor, depth =>
    let value := unwrapped facets accessor
    let element := elementAt depth
    let inner := item.sizeStatements element (depth + 1)
    let loop :=
      if inner.isEmpty then []
      else braced ("for (const auto& " ++ element ++ " : " ++ value ++ ")") inner
    guarded facets accessor
      (accumulate ("int64_t(sizeof(" ++ item.facets.modelType ++ ") * " ++ value ++
        ".capacity())") :: loop)
  | dictionary member facets, accessor, depth =>
    let value := unwrapped facets accessor
    let key := keyAt depth
    let element := elementAt depth
    let inner := member.sizeStatements element (depth + 1)
    guarded facets accessor
      (accumulate ("int64_t(" ++ value ++ ".bucket_count() * (sizeof(std::string) + sizeof(" ++
          member.facets.modelType ++ ")))") ::
        braced ("for (const auto& [" ++ key ++ ", " ++ element ++ "] : " ++ value ++ ")")
          (characters key :: inner))

end SchemaClasses.Descriptor
