import SchemaClasses.Generation

/-!
# Views of classes

What generated code is written from: three views of a class, as JSON, for its model, its JSON
handler and its writer. Fields of the model view that say nothing are left out.
-/

namespace SchemaClasses

namespace View

def fieldUnlessEmpty (name : String) (items : List Json) : List (String × Json) :=
  if items.isEmpty then [] else [(name, .arr items)]

def fieldIfSome (name : String) : Option Json → List (String × Json)
  | some value => [(name, value)]
  | none => []

def strings (texts : List String) : List Json := texts.map .str

def modelProperty (p : Property) : Json :=
  let facets := p.type.facets
  .obj [
    ("name", .str p.name),
    ("memberName", .str p.memberName),
    ("type", .str facets.modelType),
    ("optional", .bool facets.isOptional),
    ("omittable", .bool p.isOmittable),
    ("requiredIndex", .bool p.isRequiredIndex),
    ("defaultValue", .ofString? facets.defaultValue),
    ("doc", facets.doc.toJson)]

def modelObject (table : ClassTable) (c : ClassDescriptor) (object : ObjectClass) :
    List (String × Json) :=
  fieldUnlessEmpty "baseChain" (strings object.bases.model.chain) ++
    [("headers", .ofStrings object.modelHeaders)] ++
    fieldUnlessEmpty "localTypes" (object.localTypes.map Enumeration.toJson) ++
    fieldUnlessEmpty "properties" (object.properties.map modelProperty) ++
    fieldUnlessEmpty "sizeStatements" (strings (object.sizeStatements c.qualifiedName)) ++
    fieldUnlessEmpty "dependencies" (strings (table.typeNames c.dependencies))

def modelKind (table : ClassTable) (c : ClassDescriptor) : List (String × Json) :=
  match c.kind with
  | .object object => modelObject table c object
  | .enumeration type => [("enumeration", type.toJson)]
  | .value _ => []
  | .unsupported => []

def model (table : ClassTable) (c : ClassDescriptor) : Json :=
  .obj ([
    ("name", .str (Naming.bare c.typeName)),
    ("qualifiedName", .str c.qualifiedName),
    ("doc", c.doc.toJson)] ++
    fieldIfSome "extensionName" (c.extensionName.map .str) ++
    modelKind table c)

def attachments (registry : Registry) (c : ClassDescriptor) : Json :=
  .arr (((c.title.map registry.forHost).getD []).map Attachment.toJson)

def readerProperty (p : Property) : Json :=
  .obj [
    ("name", .str p.name),
    ("memberName", .str p.memberName),
    ("handler", .str p.type.facets.readerType)]

def reader (registry : Registry) (c : ClassDescriptor) (object : ObjectClass) : Json :=
  .obj [
    ("handler", .str c.handler),
    ("model", .str c.qualifiedName),
    ("baseHandler", .str object.bases.reader.name),
    ("headers", .ofStrings object.readerHeaders),
    ("enumReaders", .arr (object.literalReaders.map LiteralReader.toJson)),
    ("properties", .arr (object.properties.map readerProperty)),
    ("extensionName", .ofString? c.extensionName),
    ("extensions", attachments registry c)]

def writerProperty (p : Property) : Json :=
  .obj [
    ("name", .str p.name),
    ("memberName", .str p.memberName),
    ("optional", .bool p.type.facets.isOptional),
    ("omittable", .bool p.isOmittable),
    ("defaultValue", .ofString? p.type.writerDefault?)]

def writer (naming : Naming) (registry : Registry) (c : ClassDescriptor) (object : ObjectClass) :
    Json :=
  .obj [
    ("writer", .str (naming.writer c.typeName)),
    ("model", .str c.qualifiedName),
    ("properties", .arr (object.properties.map writerProperty)),
    ("extensionName", .ofString? c.extensionName),
    ("extensions", attachments registry c)]

end View

end SchemaClasses
