import SchemaClasses.Ordered

/-!
# Settings of a run

What a configuration file can say: how the classes of some titles are named and held, and which
extensions there are.
-/

namespace SchemaClasses

/-- Settings for the schemas of one title. -/
structure ClassSettings where
  /-- The type name in place of the one the title gives; it may be qualified. -/
  overrideName : Option String
  /-- Whether values are held through a reference-counted pointer. -/
  isAsset : Bool
  deriving DecidableEq, Repr

structure ExtensionSettings where
  /-- The schema's file name. -/
  schema : String
  /-- The key of the extension inside `extensions`. -/
  extensionName : String
  /-- The class name, when it is not the one the schema gives. -/
  className : Option String
  /-- Names of the host schemas, without their ending `.schema.json`. -/
  attachTo : List String
  deriving DecidableEq, Repr

structure Settings where
  /-- By title, in the order of the file. -/
  classes : List (String × ClassSettings)
  extensions : List ExtensionSettings
  deriving DecidableEq, Repr

namespace Settings

def empty : Settings := ⟨[], []⟩

def overrideName? (settings : Settings) (title : String) : Option String :=
  (Ordered.get? settings.classes title).bind (·.overrideName)

def isAsset (settings : Settings) (title : String) : Bool :=
  ((Ordered.get? settings.classes title).map (·.isAsset)).getD false

end Settings

end SchemaClasses
