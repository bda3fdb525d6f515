import SchemaClasses.Json.Basic
import SchemaClasses.Ordered

/-!
# The extension registry

Which extensions are attached to which host, by the title of the host. Hosts are kept in the order
of their first attachment, and each attachment of a host is kept once.
-/

namespace SchemaClasses

/-- An extension of a host. -/
structure Attachment where
  /-- The key of the extension inside `extensions`. -/
  extensionName : String
  /-- The qualified name of the extension's class. -/
  className : String
  deriving DecidableEq, Repr

def Attachment.toJson (a : Attachment) : Json :=
  .obj [("extensionName", .str a.extensionName), ("className", .str a.className)]

structure Registry where
  hosts : List (String × List Attachment)
  deriving DecidableEq, Repr

namespace Registry

def empty : Registry := ⟨[]⟩

def forHost (registry : Registry) (title : String) : List Attachment :=
  (Ordered.get? registry.hosts title).getD []

/-- Adds an attachment to a host, unless the host has it. -/
def attach (registry : Registry) (title : String) (a : Attachment) : Registry :=
  ⟨Ordered.put registry.hosts title (Ordered.insert (registry.forHost title) a)⟩

def size (registry : Registry) : Nat := (registry.hosts.flatMap (·.2)).length

def isEmpty (registry : Registry) : Bool := registry.hosts.isEmpty

def toJson (registry : Registry) : Json :=
  .obj [("hosts", .obj (registry.hosts.map fun host =>
    (host.1, .arr (host.2.map Attachment.toJson))))]

end Registry

end SchemaClasses
