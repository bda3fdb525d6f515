import SchemaClasses.Enumeration.Entry
import SchemaClasses.Json.Printer

/-!
# Warnings

What is worth telling about schemas that are not as they should be. A warning never stops a run.
Each cause is a constructor; `Warning.message` has the wording of all of them.
-/

namespace SchemaClasses

/-- The wording of a fault after the name of the enumeration. -/
def EnumerationFault.message : EnumerationFault → String
  | .foreignValue => "has a value that is neither integer nor string"
  | .mixedTypes => "mixes integer and string values"
  | .noType => "has no usable values"
  | .mismatch literal => "value " ++ literal.compact ++ " does not match its declared type"
  | .noConstant => "has no constant values"

inductive Warning where
  /-- A reference inside a document, where there is no document. -/
  | noContext (reference : String)
  /-- No location of a reference holds a schema. -/
  | notLoaded (reference : String) (tried : List String)
  | noFragment (fragment key : String)
  /-- Two files have the same title. -/
  | sharedTitle (title previous current : String)
  | enumeration (label : String) (fault : EnumerationFault)
  /-- A property whose fragment has no known shape. -/
  | uninterpreted (label : String)
  /-- A property whose reference does not load. -/
  | unloadable (label reference : String)
  /-- A property whose reference leads back to a schema that is being followed. -/
  | circular (label reference : String)
  | aliasOfItself (key : String)
  /-- A whole schema that lists integers. -/
  | integerEnumeration (key : String)
  /-- A whole schema with alternatives that are no constants. -/
  | alternatives (key : String)
  | unsupported (key : String)
  | severalBases (typeName : String) (count : Nat)
  | baseNotObject (typeName : String)
  | inheritanceCycle (typeName through : String)
  | extensionMissing (extension schema : String)
  | extensionUnresolved (extension schema : String)
  | hostMissing (extension host : String)
  | hostUntitled (extension host : String)
  /-- How often two files had the same title in the whole run. -/
  | titlesShared (count : Nat)

namespace Warning

def triedText (tried : List String) : String :=
  if tried.isEmpty then "no search paths" else ", ".intercalate tried

def message : Warning → String
  | noContext reference =>
    "in-document reference '" ++ reference ++ "' used outside of any schema"
  | notLoaded reference tried =>
    "could not load schema '" ++ reference ++ "' (tried: " ++ triedText tried ++ ")"
  | noFragment fragment key => "'" ++ fragment ++ "' does not exist in " ++ key
  | sharedTitle title previous current =>
    "schemas " ++ previous ++ " and " ++ current ++ " share the title '" ++ title ++
      "'; using the latter"
  | enumeration label fault => "enum " ++ label ++ " " ++ fault.message
  | uninterpreted label =>
    label ++ ": cannot interpret property schema; using CesiumUtility::JsonValue"
  | unloadable label reference =>
    label ++ ": cannot load " ++ reference ++ "; using CesiumUtility::JsonValue"
  | circular label reference =>
    label ++ ": " ++ reference ++ " refers back to itself; using CesiumUtility::JsonValue"
  | aliasOfItself key => "schema " ++ key ++ " is an alias of itself"
  | integerEnumeration key =>
    key ++ ": only string enums are supported as whole schemas; skipping"
  | alternatives key =>
    key ++ ": anyOf over non-constant schemas is not supported; skipping"
  | unsupported key => key ++ ": unsupported schema shape; skipping"
  | severalBases typeName count =>
    typeName ++ ": allOf with " ++ count.repr ++
      " entries; only the first is used as base class"
  | baseNotObject typeName => typeName ++ ": base schema is not an object; ignoring it"
  | inheritanceCycle typeName through =>
    typeName ++ ": inheritance cycle through " ++ through
  | extensionMissing extension schema =>
    "extension " ++ extension ++ ": schema " ++ schema ++ " not found; skipping"
  | extensionUnresolved extension schema =>
    "extension " ++ extension ++ ": schema " ++ schema ++ " did not resolve; skipping"
  | hostMissing extension host =>
    "extension " ++ extension ++ ": host " ++ host ++ " not found; not attaching"
  | hostUntitled extension host =>
    "extension " ++ extension ++ ": host " ++ host ++ " has no title; not attaching"
  | titlesShared count => count.repr ++ " schema titles were shared by different files"

end Warning

end SchemaClasses
