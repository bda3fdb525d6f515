import SchemaClasses.Json.Basic

/-!
# Schema documents

A document is a schema with its key, under which it is known, and its source, which the references
in it are relative to.
-/

namespace SchemaClasses

structure Document where
  key : String
  source : String
  body : Json

namespace Document

def title? (document : Document) : Option String := document.body.string? "title"

def properties (document : Document) : List (String × Json) :=
  ((document.body.get? "properties").bind Json.asObject?).getD []

def propertyNames (document : Document) : List String := document.properties.map Prod.fst

def requires (document : Document) (name : String) : Bool :=
  ((document.body.array? "required").getD []).any fun item => item.asString? = some name

end Document

def indexTitle : String := "glTF Id"

end SchemaClasses
