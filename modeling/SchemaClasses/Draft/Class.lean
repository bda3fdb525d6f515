import SchemaClasses.Draft.PropertyType

/-!
# Drafting classes

A schema becomes an object with properties, an enumeration, a plain value, or nothing that is
supported. `resolve` gives a reference and all that it leads to their classes: the pending places
are filled, the last one first, until none is left.
-/

namespace SchemaClasses

/-- The members that every object has. -/
def impliedProperties : List String := ["extensions", "extras"]

namespace Drafting

variable {m : Type → Type} [Monad m] [Watching m]

/-- The base class that an entry of `allOf` names. -/
def baseClass (depth : Nat) (document : Document) (entry : Json) :
    DraftingT m (Option ClassId) := do
  let base ←
    match Link.ofEntry entry with
    | .reference target => load target
    | .entry body => some <$> insert (document.firstEntry body)
  match base with
  | none => return none
  | some base => intern depth base

/-- The base class of a schema: the first entry of `allOf`. -/
def baseOf (depth : Nat) (document : Document) (typeName : String) :
    DraftingT m (Option ClassId) := do
  match document.body.array? "allOf" with
  | some (first :: rest) =>
    if !rest.isEmpty then warn (.severalBases typeName (rest.length + 1))
    baseClass depth document first
  | _ => return none

/-- The properties that have a type, in the order of the schema. -/
def propertiesOf (depth : Nat) (owner : Owner) :
    List (String × Json) → DraftingT m (List Property)
  | [] => return []
  | (name, fragment) :: rest => do
    if name ∈ impliedProperties then propertiesOf depth owner rest
    else
      let isRequired := owner.document.requires name
      match ← propertyType depth owner name fragment isRequired with
      | none => propertiesOf depth owner rest
      | some type =>
        let property : Property := ⟨name, Naming.memberName name, type, isRequired⟩
        return property :: (← propertiesOf depth owner rest)

def objectBody (depth : Nat) (owner : Owner) : DraftingT m DraftBody := do
  let base ← baseOf depth owner.document owner.typeName
  let properties ← propertiesOf depth owner owner.document.properties
  return .object base owner.document.propertyNames properties

/-- A whole schema that lists constants. Those of `enum` must be strings. -/
def enumerationBody (owner : Owner) (listsItems : Bool) : DraftingT m DraftBody := do
  let naming := (← get).naming
  let body := owner.document.body
  let name := owner.typeName
  match ← enumerationOf name name naming.modelNamespace body (body.get? "default") with
  | none => return .unsupported
  | some e =>
    if listsItems && e.constantType ≠ .string then
      warn (.integerEnumeration owner.document.key)
      return .unsupported
    else return .enumeration e

def valueBody (depth : Nat) (owner : Owner) : DraftingT m DraftBody := do
  match ← propertyType depth owner owner.typeName owner.document.body true with
  | some type => return .value type
  | none => return .unsupported

def unsupportedBody (warning : Warning) : DraftingT m DraftBody := do
  warn warning
  return .unsupported

def bodyOf (depth : Nat) (owner : Owner) : DraftingT m DraftBody :=
  let document := owner.document
  let listsConstants := isEnumeration document.body
  match SchemaShape.of document.body with
  | .object => objectBody depth owner
  | .anyOf =>
    if listsConstants then enumerationBody owner false
    else unsupportedBody (.alternatives document.key)
  | .enumeration =>
    if listsConstants then enumerationBody owner true
    else unsupportedBody (.unsupported document.key)
  | .scalar _ => valueBody depth owner
  | .array => valueBody depth owner
  | _ => unsupportedBody (.unsupported document.key)

def classOf (depth : Nat) (document : Document) : DraftingT m DraftClass := do
  let typeName := (← get).displayName document
  let body ← bodyOf depth ⟨document, typeName⟩
  let names := Ordered.get? (← get).extensionNames document.key
  return {
    source := document.key
    title := document.title?
    typeName := typeName
    extensionName := names.map (·.extensionName)
    doc := .ofFragment document.body
    body := body }

def draftAt (depth : Nat) (id : ClassId) : DraftingT m Unit := do
  match (← get).places[id]? with
  | none => return ()
  | some place =>
    let drafted ← inContext place.document (classOf depth place.document)
    modify (·.fill id drafted)

/-- Drafts pending classes until none is left. -/
def drain : Nat → DraftingT m Unit
  | 0 => outOfDepth
  | depth + 1 => do
    match (← get).pending with
    | [] => return ()
    | id :: rest =>
      modify fun draft => { draft with pending := rest }
      draftAt depth id
      drain depth

/-- The class of a reference, drafted with all that it leads to. -/
def resolve (depth : Nat) (reference : String) : DraftingT m (Option ClassId) := do
  match Ordered.get? (← get).resolved reference with
  | some id => return some id
  | none =>
    match ← load reference with
    | none => return none
    | some document =>
      match ← intern depth document with
      | none => return none
      | some id =>
        drain depth
        modify fun draft => { draft with resolved := Ordered.put draft.resolved reference id }
        return some id

/-- The class of an extension's document under the names set for it, drafted with all that it leads
to. -/
def resolveExtension (depth : Nat) (document : Document) (names : ExtensionNames) :
    DraftingT m (Option ClassId) := do
  modify fun draft =>
    { draft with extensionNames := Ordered.put draft.extensionNames document.key names }
  match ← intern depth document with
  | none => return none
  | some id =>
    drain depth
    return some id

end Drafting

end SchemaClasses
