import SchemaClasses.Json.Reader
import SchemaClasses.Settings

/-!
# Reading settings

Settings are written in JSON. A record is an object, or an array of its fields in order whose last
fields may be missing. An object's other keys are skipped without a look at their values, but none
of the record's own keys may come twice. A missing field takes its default if it has one, and `null`
stands for a missing value only where a name may be absent.
-/

namespace SchemaClasses

open Json

/-- The written values of a record's fields, by their names in order. -/
def Json.Written.record? (names : List String) : Written → Option (List (Option Written))
  | .arr items =>
    if items.length ≤ names.length then
      some (items.map some ++ List.replicate (names.length - items.length) none)
    else none
  | .obj fields => do
    let named ← fields.mapM fun field => (Glyph.text? field.1).map (·, field.2)
    if names.any fun name => 1 < named.countP (·.1 = name) then none
    else return names.map (Ordered.get? named)
  | _ => none

def Json.Written.string? : Written → Option String
  | .str glyphs => Glyph.text? glyphs
  | _ => none

def Json.Written.bool? : Written → Option Bool
  | .bool value => some value
  | _ => none

def Json.Written.optionalString? : Written → Option (Option String)
  | .null => some none
  | value => value.string?.map some

def Json.Written.strings? : Written → Option (List String)
  | .arr items => items.mapM string?
  | _ => none

def fieldOr {α : Type} (default : α) (read : Written → Option α) : Option Written → Option α
  | none => some default
  | some value => read value

namespace ClassSettings

def ofWritten? (value : Written) : Option ClassSettings := do
  match ← value.record? ["overrideName", "isAsset"] with
  | [overrideName, isAsset] =>
    return {
      overrideName := ← fieldOr none Written.optionalString? overrideName
      isAsset := ← fieldOr false Written.bool? isAsset }
  | _ => none

end ClassSettings

namespace ExtensionSettings

def ofWritten? (value : Written) : Option ExtensionSettings := do
  match ← value.record? ["schema", "extensionName", "className", "attachTo"] with
  | [schema, extensionName, className, attachTo] =>
    return {
      schema := ← (← schema).string?
      extensionName := ← (← extensionName).string?
      className := ← fieldOr none Written.optionalString? className
      attachTo := ← fieldOr [] Written.strings? attachTo }
  | _ => none

end ExtensionSettings

namespace Settings

/-- The class settings by title; a repeated title keeps its place and takes its last settings. -/
def classesOfWritten? : Written → Option (List (String × ClassSettings))
  | .obj fields => do
    let pairs ← fields.mapM fun field => do
      return (← Glyph.text? field.1, ← ClassSettings.ofWritten? field.2)
    return Ordered.ofPairs pairs
  | _ => none

def extensionsOfWritten? : Written → Option (List ExtensionSettings)
  | .arr items => items.mapM ExtensionSettings.ofWritten?
  | _ => none

def ofWritten? (value : Written) : Option Settings := do
  match ← value.record? ["classes", "extensions"] with
  | [classes, extensions] =>
    return {
      classes := ← fieldOr [] classesOfWritten? classes
      extensions := ← fieldOr [] extensionsOfWritten? extensions }
  | _ => none

def read? (text : String) : Option Settings := do
  ofWritten? (← Written.read? text)

end Settings

end SchemaClasses
