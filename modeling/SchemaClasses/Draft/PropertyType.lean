import SchemaClasses.Descriptor.Build
import SchemaClasses.Draft.Alias

/-!
# Types of properties

The type of a property follows the shape of its fragment. Containers and references lead to further
fragments; a schema that is referred to and is no class is followed at the property itself, in its
own context and never twice at once. Outer documentation and outer defaults have precedence over
inner ones, except across the border of a container. Whatever cannot be described is any JSON value,
and a property whose fragment says nothing has no type here.
-/

namespace SchemaClasses

/-- The class whose property is looked at. -/
structure Owner where
  document : Document
  typeName : String

/-- What the place of a fragment says about its value. -/
structure Usage where
  isRequired : Bool
  /-- The outermost default. -/
  default : Option Json

namespace Usage

def isOptional (usage : Usage) : Bool := !usage.isRequired && usage.default.isNone

/-- The usage of a fragment that describes the same value further in. -/
def inside (usage : Usage) (inner : Json) : Usage :=
  { usage with default := usage.default.or (inner.get? "default") }

def ofItems (items : Json) : Usage := ⟨true, items.get? "default"⟩

def ofValues : Usage := ⟨true, none⟩

end Usage

/-- How a property is called in warnings. -/
def Owner.label (owner : Owner) (path : String) : String := owner.typeName ++ "." ++ path

def Json.titled (title : String) : Json → Json
  | .obj fields => .obj (Ordered.put fields "title" (.str title))
  | body => body

namespace Drafting

/-- How the type of a fragment further in is found. -/
abbrev Resolve (m : Type → Type) :=
  (path : String) → Json → Usage → DraftingT m (Option Descriptor)

variable {m : Type → Type} [Monad m] [Watching m]

/-- The enumeration that a fragment lists. Why it lists none is told under the label. -/
def enumerationOf (label name scope : String) (fragment : Json) (default : Option Json) :
    DraftingT m (Option Enumeration) := do
  match Enumeration.ofFragment name scope fragment default with
  | .ok e => return some e
  | .error fault =>
    warn (.enumeration label fault)
    return none

def enumerationType (owner : Owner) (path : String) (fragment : Json) (usage : Usage) :
    DraftingT m Descriptor := do
  let naming := (← get).naming
  let name := Naming.capitalized (Naming.baseProperty path)
  let scope := naming.qualified owner.typeName
  match ← enumerationOf (owner.label path) name scope fragment usage.default with
  | some e => return .enumeration naming owner.typeName e usage.isOptional
  | none => return .anyJson usage.isOptional

/-- An array has no type when its items have none; without `items` they are any JSON values. -/
def arrayType (resolve : Resolve m) (path : String) (items : Option Json) (usage : Usage) :
    DraftingT m (Option Descriptor) := do
  match items with
  | none => return some (.arrayOf (.anyJson false) usage.default)
  | some items =>
    match ← resolve (path ++ ".items") items (.ofItems items) with
    | none => return none
    | some item => return some (.arrayOf item usage.default)

def dictionaryType (resolve : Resolve m) (path : String) (values : Json) :
    DraftingT m Descriptor := do
  if values.asBool? = some true then return .dictionaryOf (.anyJson false)
  else
    let value ← resolve (path ++ ".additionalProperties") values .ofValues
    return .dictionaryOf (value.getD (.anyJson false))

/-- The document of an object that is declared at a property. -/
def inlineDocument (owner : Owner) (path : String) (fragment : Json) : DraftingT m Document := do
  let top := (← get).catalog.contextTop?
  let title := Naming.inlineTitle owner.typeName path
  insert {
    key := owner.document.key ++ "#inline/" ++ path
    source := top.getD owner.document.source
    body := fragment.titled title }

def inlineObjectType (depth : Nat) (owner : Owner) (path : String) (fragment : Json)
    (isOptional : Bool) : DraftingT m Descriptor := do
  let document ← inlineDocument owner path fragment
  let className := (← get).displayName document
  match ← intern depth document with
  | some target => return .inlineObject (← get).naming target className isOptional
  | none => return .anyJson isOptional

/-- The type of a reference to a schema that has a class. -/
def classType (depth : Nat) (document : Document) (className : String) (isOptional : Bool) :
    DraftingT m Descriptor := do
  let isAsset := (document.title?.map (← get).settings.isAsset).getD false
  match ← intern depth document with
  | some target => return .reference (← get).naming target className isAsset isOptional
  | none => return .anyJson isOptional

/-- The type of a reference to a schema that has no class. -/
def followedType (resolve : Resolve m) (owner : Owner) (path reference : String)
    (document : Document) (usage : Usage) : DraftingT m Descriptor := do
  if document.key ∈ (← get).following then
    warn (.circular (owner.label path) reference)
    return .anyJson usage.isOptional
  else
    let type ← whileFollowing document.key
      (inContext document (resolve path document.body (usage.inside document.body)))
    return type.getD (.anyJson usage.isOptional)

def referenceType (depth : Nat) (resolve : Resolve m) (owner : Owner) (path reference : String)
    (usage : Usage) : DraftingT m Descriptor := do
  match ← load reference with
  | none =>
    warn (.unloadable (owner.label path) reference)
    return .anyJson usage.isOptional
  | some document =>
    if document.title? = some indexTitle then return .index
    else
      let className := (← get).displayName document
      if className = Naming.jsonValue then return .anyJson usage.isOptional
      else if isClassLike document.body then classType depth document className usage.isOptional
      else followedType resolve owner path reference document usage

/-- The type of a fragment at a property, or further in at a path that starts with a property. -/
def fragmentType (owner : Owner) : Nat → Resolve m
  | 0, _, _, _ => outOfDepth
  | depth + 1, path, fragment, usage => do
    let resolve := fragmentType owner depth
    let type ←
      match PropertyShape.of fragment with
      | .empty => pure none
      | .enumeration => some <$> enumerationType owner path fragment usage
      | .array items => arrayType resolve path items usage
      | .scalar type => pure (some (.scalar type usage.isOptional usage.default))
      | .inlineObject => some <$> inlineObjectType depth owner path fragment usage.isOptional
      | .dictionary values => some <$> dictionaryType resolve path values
      | .reference target => some <$> referenceType depth resolve owner path target usage
      | .composite inner => resolve path inner (usage.inside inner)
      | .unsupported =>
        warn (.uninterpreted (owner.label path))
        pure (some (.anyJson usage.isOptional))
    return type.map (·.documented (.ofFragment fragment))

def propertyType (depth : Nat) (owner : Owner) (name : String) (fragment : Json)
    (isRequired : Bool) : DraftingT m (Option Descriptor) :=
  fragmentType owner depth name fragment ⟨isRequired, fragment.get? "default"⟩

end Drafting

end SchemaClasses
