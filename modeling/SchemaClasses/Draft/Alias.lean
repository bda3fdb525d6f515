import SchemaClasses.Draft

/-!
# Aliases

A schema that is only a reference, or an `allOf` with one entry and no properties, stands for
another schema and has no class of its own. Following such links leads to the schema that is meant,
unless one of them does not load or the chain comes back to where it has been. All schemas of a
chain have one class.
-/

namespace SchemaClasses

/-- What an alias stands for. -/
inductive Link where
  | reference (target : String)
  /-- A schema written in place. -/
  | entry (body : Json)

/-- An entry of `allOf`: a reference, or a schema written in place. -/
def Link.ofEntry (entry : Json) : Link :=
  match entry.string? "$ref" with
  | some target => .reference target
  | none => .entry entry

namespace Document

def link? (document : Document) : Option Link :=
  match SchemaShape.of document.body with
  | .wrapper inner => some (.ofEntry inner)
  | .reference target => some (.reference target)
  | _ => none

/-- The document of the first entry of `allOf`, when that is written in place. -/
def firstEntry (document : Document) (body : Json) : Document :=
  ⟨document.key ++ "#/allOf/0", document.source, body⟩

end Document

namespace Drafting

variable {m : Type → Type} [Monad m] [Watching m]

/-- The document that a link of a document leads to. -/
def target (document : Document) : Link → DraftingT m (Option Document)
  | .reference target => inContext document (load target)
  | .entry body => return some (← insert (document.firstEntry body))

/-- The schema that a document stands for, when the documents with keys in `seen` led to it. -/
def unaliasFrom : Nat → List String → Document → DraftingT m (Option Document)
  | 0, _, _ => outOfDepth
  | depth + 1, seen, document => do
    if document.key ∈ seen then
      warn (.aliasOfItself document.key)
      return none
    else
      match document.link? with
      | none => return some document
      | some link =>
        match ← target document link with
        | none => return none
        | some next => unaliasFrom depth (document.key :: seen) next

def unalias (depth : Nat) (document : Document) : DraftingT m (Option Document) :=
  unaliasFrom depth [] document

/-- The class of a document, which gets a place if it has none. -/
def intern (depth : Nat) (document : Document) : DraftingT m (Option ClassId) := do
  match ← unalias depth document with
  | none => return none
  | some document =>
    let draft ← get
    match draft.idOf? document.key with
    | some id => return some id
    | none =>
      set (draft.append document)
      return some draft.places.length

end Drafting

end SchemaClasses
