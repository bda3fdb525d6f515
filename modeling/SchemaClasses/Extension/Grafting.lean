import SchemaClasses.Draft.Class
import SchemaClasses.Extension

/-!
# Grafting extensions

Every extension is resolved like any other class and then attached to its hosts, which are found by
their file names and known by their titles. An extension without a class is left out as a whole; a
host that is missing or has no title only loses its own attachment.
-/

namespace SchemaClasses.Drafting

/-- The classes of extensions, and where they are attached. -/
structure Grafted where
  classes : List ClassId
  registry : Registry

/-- Attaches an extension to a host, if the host has a title. -/
def attachTo (registry : Registry) (a : Attachment) (host : String) : Drafting Registry := do
  let schema := host ++ ".schema.json"
  match ← load schema with
  | none =>
    warn (.hostMissing a.extensionName schema)
    return registry
  | some document =>
    match document.title? with
    | none =>
      warn (.hostUntitled a.extensionName schema)
      return registry
    | some title =>
      tell [.notice (.attached a.extensionName a.className title)]
      return registry.attach title a

/-- Resolves an extension and attaches it to its hosts. -/
def graftOne (depth : Nat) (grafted : Grafted) (e : ExtensionSettings) : Drafting Grafted := do
  match ← onCatalog (·.loadExtension e.schema (some e.extensionName)) with
  | none =>
    warn (.extensionMissing e.extensionName e.schema)
    return grafted
  | some document =>
    match ← resolveExtension depth document ⟨e.className, e.extensionName⟩ with
    | none =>
      warn (.extensionUnresolved e.extensionName e.schema)
      return grafted
    | some id =>
      let classes := grafted.classes ++ [id]
      let draft ← get
      match draft.typeName? id with
      | none => return { grafted with classes := classes }
      | some typeName =>
        let a : Attachment := ⟨e.extensionName, draft.naming.qualified typeName⟩
        let registry ← e.attachTo.foldlM (attachTo · a) grafted.registry
        return ⟨classes, registry⟩

/-- Resolves extensions in order and attaches them to their hosts. -/
def graft (depth : Nat) (extensions : List ExtensionSettings) : Drafting Grafted :=
  extensions.foldlM (graftOne depth) ⟨[], .empty⟩

end SchemaClasses.Drafting
