import SchemaClasses.ClassTable
import SchemaClasses.Draft.Class
import SchemaClasses.Graph.Reachable
import SchemaClasses.Graph.TopologicalOrder

/-!
# Linking drafted classes

Once every class is drafted, the table follows from the drafts alone. A base that is no object is
dropped, and so is one that stands for the root that every object derives from anyway. Going up from
a class to its base and on stops before it comes back to a class it has passed. The names that a
class has from above are not declared by it again.
-/

namespace SchemaClasses

namespace DraftBody

def isObject : DraftBody → Bool
  | object _ _ _ => true
  | _ => false

/-- Whether there is code for a schema. -/
def isType : DraftBody → Bool
  | object _ _ _ => true
  | enumeration _ => true
  | _ => false

def declared : DraftBody → List String
  | object _ declared _ => declared
  | _ => []

/-- The types in which a schema may refer to classes. -/
def types : DraftBody → List Descriptor
  | object _ _ properties => properties.map (·.type)
  | value type => [type]
  | _ => []

end DraftBody

namespace Place

/-- The class at a place; a place that was never filled has one that is not supported. -/
def finished (place : Place) : DraftClass :=
  place.drafted.getD {
    source := place.document.key
    title := place.document.title?
    typeName := Naming.ofLocation place.document.key
    extensionName := none
    doc := .empty
    body := .unsupported }

end Place

/-- Drafted classes with the names of the generated code. -/
structure Linking where
  drafts : List DraftClass
  naming : Naming

namespace Linking

def isObject (l : Linking) (id : ClassId) : Bool :=
  ((l.drafts[id]?).map (·.body.isObject)).getD false

def namedBase? (draft : DraftClass) : Option ClassId :=
  match draft.body with
  | .object base _ _ => base
  | _ => none

def objectName? (l : Linking) (id : ClassId) : Option String :=
  (l.drafts[id]?).bind fun draft => if draft.body.isObject then some draft.typeName else none

/-- The base of a draft, if it is an object and not the common root. -/
def baseOf (l : Linking) (draft : DraftClass) : Option ClassId :=
  (namedBase? draft).bind fun id =>
    (l.objectName? id).bind fun name =>
      if l.naming.qualified name = Bases.root.model.name then none else some id

def baseWarning? (l : Linking) (draft : DraftClass) : Option Warning :=
  (namedBase? draft).bind fun id =>
    if (l.objectName? id).isNone then some (.baseNotObject draft.typeName) else none

/-- The classes that the types of a draft refer to. -/
def propertyReferencesOf (draft : DraftClass) : List ClassId :=
  Ordered.ofList (draft.body.types.flatMap (·.classes))

def propertyReferences (l : Linking) : List (List ClassId) := l.drafts.map propertyReferencesOf

def references (l : Linking) : List (List ClassId) :=
  l.drafts.map fun draft =>
    Ordered.union (l.baseOf draft).toList (propertyReferencesOf draft)

def baseAt (l : Linking) (id : ClassId) : Option ClassId := (l.drafts[id]?).bind l.baseOf

/-- The bases from `next` up that are not in `seen`, and the class of `seen` that is met if the
bases go round in a circle. At most `limit` bases are taken. -/
def climb (l : Linking) : Nat → List ClassId → Option ClassId → List ClassId × Option ClassId
  | _, _, none => ([], none)
  | 0, _, some _ => ([], none)
  | limit + 1, seen, some base =>
    if base ∈ seen then ([], some base)
    else
      let (above, met) := l.climb limit (base :: seen) (l.baseAt base)
      (base :: above, met)

/-- The bases of a class, the direct one first, and the class at which they close a circle. -/
def lineOf (l : Linking) (id : ClassId) : List ClassId × Option ClassId :=
  l.climb (l.drafts.length + 1) [id] (l.baseAt id)

def ancestors (l : Linking) (id : ClassId) : List ClassId := (l.lineOf id).1

def typeNameAt (l : Linking) (id : ClassId) : String :=
  ((l.drafts[id]?).map (·.typeName)).getD ""

def cycleWarning? (l : Linking) (id : ClassId) : Option Warning :=
  (l.lineOf id).2.map fun met => .inheritanceCycle (l.typeNameAt id) (l.typeNameAt met)

/-- What a class with the given bases, the direct one first, derives from. -/
def basesFrom (l : Linking) : List ClassId → Bases
  | [] => Bases.root
  | id :: above =>
    let parent := l.basesFrom above
    let name := l.typeNameAt id
    { model := .derived (l.naming.qualified name) (l.naming.header name) parent.model
      reader := .derived (l.naming.handler name) (l.naming.handlerHeader name) parent.reader }

/-- The names that a class has from its bases and from the common root. -/
def inheritedNames (l : Linking) (ancestors : List ClassId) : List String :=
  Ordered.union impliedProperties
    (ancestors.flatMap fun id => ((l.drafts[id]?).map (·.body.declared)).getD [])

def object (l : Linking) (id : ClassId) (typeName : String) (drafted : List Property) :
    ObjectClass :=
  let ancestors := l.ancestors id
  let inherited := l.inheritedNames ancestors
  let properties := drafted.filter (·.name ∉ inherited)
  let bases := l.basesFrom ancestors
  { base := ancestors.head?
    bases := bases
    properties := properties
    inheritedNames := inherited
    modelHeaders :=
      Ordered.union bases.model.headers (properties.flatMap (·.type.facets.modelHeaders))
    readerHeaders :=
      Ordered.union (Ordered.insert bases.reader.headers (l.naming.header typeName))
        (properties.flatMap (·.type.facets.readerHeaders)) }

/-- What a draft is once it is linked. -/
def kind (l : Linking) (id : ClassId) (draft : DraftClass) : ClassKind :=
  match draft.body with
  | .object _ _ properties => .object (l.object id draft.typeName properties)
  | .enumeration type => .enumeration type
  | .value type => .value type
  | .unsupported => .unsupported

/-- A class and the objects it needs, with what each of them refers to among them. -/
def refGraph (l : Linking) (id : ClassId) : List (ClassId × List ClassId) :=
  let references := l.references
  let nodes := (Graph.reachable references id).filter fun n => n = id || l.isObject n
  nodes.map fun n => (n, ((references[n]?).getD []).filter (nodes.contains ·))

def refClosure (l : Linking) (id : ClassId) : List ClassId :=
  Graph.topologicalOrder (l.refGraph id)

def isType (l : Linking) (id : ClassId) : Bool :=
  ((l.drafts[id]?).map (·.body.isType)).getD false

def subtypeClosure (l : Linking) (id : ClassId) : List ClassId :=
  (Graph.reachable l.propertyReferences id).filter fun n => n ≠ id && l.isType n

def classOf (l : Linking) (id : ClassId) (draft : DraftClass) : ClassDescriptor where
  id := id
  source := draft.source
  title := draft.title
  typeName := draft.typeName
  qualifiedName := l.naming.qualified draft.typeName
  handler := l.naming.handler draft.typeName
  isExternal := l.naming.isForeign draft.typeName
  extensionName := draft.extensionName
  doc := draft.doc
  kind := l.kind id draft
  references := (l.references[id]?).getD []
  subtypeClosure := l.subtypeClosure id
  refClosure := l.refClosure id

def table (l : Linking) : ClassTable := l.drafts.mapIdx l.classOf

/-- The warnings about all drafts: first on bases that are no objects, then on circles. -/
def warnings (l : Linking) : List Warning :=
  l.drafts.filterMap l.baseWarning? ++
    (List.range l.drafts.length).filterMap fun id =>
      if l.isObject id then l.cycleWarning? id else none

end Linking

def Draft.linking (draft : Draft) : Linking := ⟨draft.places.map Place.finished, draft.naming⟩

/-- Drafts what is still pending and links the table. -/
def Drafting.finish (depth : Nat) : Drafting ClassTable := do
  drain depth
  let linking := (← get).linking
  tell (linking.warnings.map .warning)
  return linking.table

end SchemaClasses
