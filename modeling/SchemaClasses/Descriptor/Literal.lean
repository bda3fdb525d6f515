import SchemaClasses.Json.Printer

/-!
# Default literals

The initializer that a JSON default becomes: strings, numbers and truth values as in JSON, arrays in
braces. Nothing with `null` or an object in it has one.
-/

namespace SchemaClasses

mutual

def Json.literal? : Json → Option String
  | .null => none
  | .bool value => some (Json.bool value).compact
  | .num value => some (Json.num value).compact
  | .str value => some (Json.str value).compact
  | .arr items => (Json.literals? items).map fun parts =>
      "\x7b" ++ ", ".intercalate parts ++ "\x7d"
  | .obj _ => none

def Json.literals? : List Json → Option (List String)
  | [] => some []
  | item :: rest => do
    let part ← Json.literal? item
    let parts ← Json.literals? rest
    return part :: parts

end

end SchemaClasses
