import SchemaClasses.Catalog
import SchemaClasses.Descriptor
import SchemaClasses.Naming
import SchemaClasses.Naming.Identifier

/-!
# Drafts of the class table

A draft gives every schema that becomes a class a place, the class's id, and fills the places one
after another. A schema that refers to another only takes note of the other's place, so schemas may
refer to each other in a circle. What a class inherits is left open until all places are filled.

A step on a draft is a `Drafting` action. Following references need not come to an end, so an action
has a bound on the depth of its recursion, and has no result when it runs into that bound. Actions
are written for any monad in which they can be watched. Nobody watches a plain run; one that is
watched takes the same steps and also gives the moments at which a reference was loaded or a schema
came to be followed.
-/

namespace SchemaClasses

inductive DraftBody where
  /-- A class with the names it declares and the properties that have a type. -/
  | object (base : Option ClassId) (declared : List String) (properties : List Property)
  | enumeration (type : Enumeration)
  /-- A single value or an array, for which there is no class. -/
  | value (type : Descriptor)
  | unsupported
  deriving DecidableEq, Repr

/-- A class of which only its own schema is known. -/
structure DraftClass where
  source : String
  title : Option String
  typeName : String
  extensionName : Option String
  doc : Documentation
  body : DraftBody
  deriving DecidableEq, Repr

/-- A place in the class table, with its class once that is drafted. -/
structure Place where
  document : Document
  drafted : Option DraftClass

/-- The names set for the schema of an extension. -/
structure ExtensionNames where
  className : Option String
  extensionName : String

structure Draft where
  catalog : Catalog
  settings : Settings
  naming : Naming
  /-- The keys of the schemas that are being followed at one property, the innermost first. -/
  following : List String
  /-- The classes of references that have been resolved. -/
  resolved : List (String × ClassId)
  /-- By class id. -/
  places : List Place
  /-- The classes still to be drafted, the next first. -/
  pending : List ClassId
  /-- By the keys of documents. -/
  extensionNames : List (String × ExtensionNames)

/-- What can be seen of a run while it goes on. -/
inductive Moment where
  /-- A reference is about to be loaded. -/
  | loading (reference : String) (draft : Draft)
  /-- A schema has just come to be followed. -/
  | following (draft : Draft)

/-- Monads in which an action can be watched, and can run into the bound on its depth. -/
class Watching (m : Type → Type) where
  outOfDepth {α : Type} : m α
  watch (moment : Moment) : m Unit

@[default_instance]
instance : Watching Option where
  outOfDepth := none
  watch _ := some ()

/-- A step on a draft in a monad. -/
abbrev DraftingT (m : Type → Type) := StateT Draft m

/-- A step on a draft, without a result when the bound on its depth is too small. -/
abbrev Drafting := DraftingT Option

namespace Draft

def new (catalog : Catalog) (settings : Settings) (naming : Naming) : Draft where
  catalog := catalog
  settings := settings
  naming := naming
  following := []
  resolved := []
  places := []
  pending := []
  extensionNames := []

def idOf? (draft : Draft) (key : String) : Option ClassId :=
  draft.places.findIdx? fun place => place.document.key = key

def classAt? (draft : Draft) (id : ClassId) : Option DraftClass :=
  (draft.places[id]?).bind (·.drafted)

def typeName? (draft : Draft) (id : ClassId) : Option String :=
  (draft.classAt? id).map (·.typeName)

/-- The type name that a document goes by: the one set for an extension, or else the one its title
or its location gives. -/
def displayName (draft : Draft) (document : Document) : String :=
  match (Ordered.get? draft.extensionNames document.key).bind (·.className) with
  | some name => name
  | none =>
    match document.title? with
    | some title => Naming.ofTitle draft.settings title
    | none => Naming.ofLocation document.key

/-- Gives a new document the next place. -/
def append (draft : Draft) (document : Document) : Draft :=
  { draft with
    places := draft.places ++ [⟨document, none⟩]
    pending := draft.places.length :: draft.pending }

def fill (draft : Draft) (id : ClassId) (drafted : DraftClass) : Draft :=
  { draft with places := draft.places.modify id fun place => { place with drafted := drafted } }

end Draft

namespace Drafting

variable {m : Type → Type} [Monad m] [Watching m] {α : Type}

/-- The result of an action that ran into its bound. -/
def outOfDepth : DraftingT m α := fun _ => Watching.outOfDepth

def watch (moment : Draft → Moment) : DraftingT m Unit := fun draft => do
  Watching.watch (moment draft)
  return ((), draft)

def onCatalog (step : Catalog → α × Catalog) : DraftingT m α :=
  modifyGet fun draft =>
    let (result, catalog) := step draft.catalog
    (result, { draft with catalog := catalog })

def warn (warning : Warning) : DraftingT m Unit :=
  onCatalog fun catalog => ((), catalog.warn warning)

def tell (messages : List Message) : DraftingT m Unit :=
  onCatalog fun catalog => ((), catalog.tell messages)

def load (reference : String) : DraftingT m (Option Document) := do
  watch (.loading reference)
  onCatalog (·.load reference)

def insert (document : Document) : DraftingT m Document := onCatalog (·.insert document)

/-- Acts with references relative to a document. -/
def inContext (document : Document) (action : DraftingT m α) : DraftingT m α := do
  onCatalog fun catalog => ((), catalog.enter document)
  let result ← action
  onCatalog fun catalog => ((), catalog.leave)
  return result

/-- Acts while a schema is being followed. -/
def whileFollowing (key : String) (action : DraftingT m α) : DraftingT m α := do
  modify fun draft => { draft with following := key :: draft.following }
  watch .following
  let result ← action
  modify fun draft => { draft with following := draft.following.tail }
  return result

end Drafting

end SchemaClasses
