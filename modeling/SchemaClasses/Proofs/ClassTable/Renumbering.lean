import SchemaClasses.Proofs.ClassTable.InRange
import SchemaClasses.Proofs.Graph.Renaming

/-!
# Renumbering classes

Ids are places in a list and mean nothing else. When the drafted classes are listed in another order
and what they refer to is numbered accordingly, the table that is linked from them is the same under
the new numbers: every class has the same names, the same members and headers, and the same bases,
references and closures in the same order.
-/

namespace SchemaClasses

section

variable (σ : ClassId → ClassId)

def Leaf.renumbered : Leaf → Leaf
  | reference target className isAsset => reference (σ target) className isAsset
  | inlineObject target className => inlineObject (σ target) className
  | leaf => leaf

def Descriptor.renumbered : Descriptor → Descriptor
  | leaf kind facets => leaf (kind.renumbered σ) facets
  | array item facets => array item.renumbered facets
  | dictionary value facets => dictionary value.renumbered facets

def Property.renumbered (p : Property) : Property := { p with type := p.type.renumbered σ }

def DraftBody.renumbered : DraftBody → DraftBody
  | object base declared properties =>
    object (base.map σ) declared (properties.map (·.renumbered σ))
  | enumeration type => enumeration type
  | value type => value (type.renumbered σ)
  | unsupported => unsupported

def DraftClass.renumbered (drafted : DraftClass) : DraftClass :=
  { drafted with body := drafted.body.renumbered σ }

def ObjectClass.renumbered (object : ObjectClass) : ObjectClass :=
  { object with
    base := object.base.map σ
    properties := object.properties.map (·.renumbered σ) }

def ClassKind.renumbered : ClassKind → ClassKind
  | object o => object (o.renumbered σ)
  | enumeration type => enumeration type
  | value type => value (type.renumbered σ)
  | unsupported => unsupported

/-- A class with other numbers for itself and for all classes that it has to do with. -/
def ClassDescriptor.renumbered (c : ClassDescriptor) : ClassDescriptor :=
  { c with
    id := σ c.id
    kind := c.kind.renumbered σ
    references := c.references.map σ
    subtypeClosure := c.subtypeClosure.map σ
    refClosure := c.refClosure.map σ }

end

section

variable {σ : ClassId → ClassId}

namespace Descriptor

@[simp] theorem facets_renumbered (type : Descriptor) :
    (type.renumbered σ).facets = type.facets := by
  cases type <;> rfl

@[simp] theorem core_renumbered (type : Descriptor) :
    (type.renumbered σ).core = type.core.renumbered σ := by
  induction type with
  | leaf => rfl
  | array _ _ ih => exact ih
  | dictionary _ _ ih => exact ih

@[simp] theorem renumbered_documented (type : Descriptor) (outer : Documentation) :
    (type.documented outer).renumbered σ = (type.renumbered σ).documented outer := by
  cases type <;> rfl

@[simp] theorem renumbered_scalar (type : ScalarType) (isOptional : Bool) (default : Option Json) :
    (scalar type isOptional default).renumbered σ = scalar type isOptional default := by
  cases type <;> rfl

@[simp] theorem renumbered_arrayOf (item : Descriptor) (default : Option Json) :
    (arrayOf item default).renumbered σ = arrayOf (item.renumbered σ) default := by
  simp [arrayOf, renumbered]

@[simp] theorem renumbered_dictionaryOf (value : Descriptor) :
    (dictionaryOf value).renumbered σ = dictionaryOf (value.renumbered σ) := by
  simp [dictionaryOf, renumbered]

@[simp] theorem renumbered_inlineObject (naming : Naming) (target : ClassId) (className : String)
    (isOptional : Bool) : (inlineObject naming target className isOptional).renumbered σ =
      inlineObject naming (σ target) className isOptional := rfl

@[simp] theorem renumbered_reference (naming : Naming) (target : ClassId) (className : String)
    (isAsset isOptional : Bool) :
    (reference naming target className isAsset isOptional).renumbered σ =
      reference naming (σ target) className isAsset isOptional := by
  cases isAsset <;> rfl

theorem renumbered_getD (found : Option Descriptor) (isOptional : Bool) :
    (found.getD (.anyJson isOptional)).renumbered σ =
      (found.map (·.renumbered σ)).getD (.anyJson isOptional) := by
  cases found <;> rfl

theorem renumbered_getD_map {typeOf : ClassId → Descriptor}
    (h : ∀ target, (typeOf target).renumbered σ = typeOf (σ target)) (id : Option ClassId)
    (isOptional : Bool) : ((id.map typeOf).getD (.anyJson isOptional)).renumbered σ =
      ((id.map σ).map typeOf).getD (.anyJson isOptional) := by
  cases id with
  | none => rfl
  | some target => exact h target

theorem classes_renumbered (type : Descriptor) :
    (type.renumbered σ).classes = type.classes.map σ := by
  unfold classes
  rw [core_renumbered]
  cases type.core <;> rfl

end Descriptor

namespace DraftBody

@[simp] theorem isObject_renumbered (body : DraftBody) :
    (body.renumbered σ).isObject = body.isObject := by
  cases body <;> rfl

@[simp] theorem isType_renumbered (body : DraftBody) :
    (body.renumbered σ).isType = body.isType := by
  cases body <;> rfl

@[simp] theorem declared_renumbered (body : DraftBody) :
    (body.renumbered σ).declared = body.declared := by
  cases body <;> rfl

theorem types_renumbered (body : DraftBody) :
    (body.renumbered σ).types = body.types.map (·.renumbered σ) := by
  cases body with
  | object => simp [renumbered, types, Property.renumbered, Function.comp_def]
  | enumeration | value | unsupported => rfl

end DraftBody

end

namespace Linking

/-- The drafted classes of one linking are those of the other under new numbers. -/
structure Renumbers (σ : Equiv.Perm ClassId) (l renumbered : Linking) : Prop where
  naming : renumbered.naming = l.naming
  drafts : ∀ id, renumbered.drafts[σ id]? = (l.drafts[id]?).map (·.renumbered σ)

variable {l r : Linking} {σ : Equiv.Perm ClassId} {id : ClassId} {draft : DraftClass}

namespace Renumbers

theorem map_drafts {α : Type} {g : DraftClass → α} (h : Renumbers σ l r)
    (hg : ∀ draft, g (draft.renumbered σ) = g draft) (id : ClassId) :
    (r.drafts[σ id]?).map g = (l.drafts[id]?).map g := by
  rw [h.drafts, Option.map_map]
  congr 1
  exact funext hg

theorem objectName? (h : Renumbers σ l r) (id : ClassId) :
    r.objectName? (σ id) = l.objectName? id := by
  unfold Linking.objectName?
  rw [h.drafts]
  cases l.drafts[id]? with
  | none => rfl
  | some draft => simp [DraftClass.renumbered]

theorem isObject (h : Renumbers σ l r) (id : ClassId) : r.isObject (σ id) = l.isObject id :=
  congrArg (·.getD false) (h.map_drafts (fun draft => draft.body.isObject_renumbered) id)

theorem isType (h : Renumbers σ l r) (id : ClassId) : r.isType (σ id) = l.isType id :=
  congrArg (·.getD false) (h.map_drafts (fun draft => draft.body.isType_renumbered) id)

theorem typeNameAt (h : Renumbers σ l r) (id : ClassId) : r.typeNameAt (σ id) = l.typeNameAt id :=
  congrArg (·.getD "") (h.map_drafts (fun _ => rfl) id)

theorem namedBase? (draft : DraftClass) :
    Linking.namedBase? (draft.renumbered σ) = (Linking.namedBase? draft).map σ := by
  unfold Linking.namedBase? DraftClass.renumbered
  cases draft.body <;> rfl

theorem baseOf (h : Renumbers σ l r) (draft : DraftClass) :
    r.baseOf (draft.renumbered σ) = (l.baseOf draft).map σ := by
  unfold Linking.baseOf
  rw [namedBase?, h.naming]
  cases Linking.namedBase? draft with
  | none => rfl
  | some id =>
    simp only [Option.map_some, Option.bind_some, h.objectName?]
    cases l.objectName? id with
    | none => rfl
    | some name =>
      simp only [Option.bind_some]
      split <;> rfl

theorem baseAt (h : Renumbers σ l r) (id : ClassId) : r.baseAt (σ id) = (l.baseAt id).map σ := by
  unfold Linking.baseAt
  rw [h.drafts]
  cases l.drafts[id]? with
  | none => rfl
  | some draft => exact h.baseOf draft

theorem length (h : Renumbers σ l r) : r.drafts.length = l.drafts.length :=
  Graph.length_eq_of_getElem? h.drafts

theorem propertyReferencesOf (σ : Equiv.Perm ClassId) (draft : DraftClass) :
    Linking.propertyReferencesOf (draft.renumbered σ) =
      (Linking.propertyReferencesOf draft).map σ := by
  unfold Linking.propertyReferencesOf
  rw [← Ordered.ofList_map σ.injective, DraftClass.renumbered, DraftBody.types_renumbered,
    List.flatMap_map, List.map_flatMap]
  congr 1
  apply List.flatMap_congr
  intro type _
  exact type.classes_renumbered

theorem propertyReferences (h : Renumbers σ l r) (id : ClassId) :
    r.propertyReferences[σ id]? = (l.propertyReferences[id]?).map (List.map σ) := by
  unfold Linking.propertyReferences
  rw [List.getElem?_map, List.getElem?_map, h.drafts]
  cases l.drafts[id]? with
  | none => rfl
  | some draft => exact congrArg some (propertyReferencesOf σ draft)

theorem references (h : Renumbers σ l r) (id : ClassId) :
    r.references[σ id]? = (l.references[id]?).map (List.map σ) := by
  unfold Linking.references
  rw [List.getElem?_map, List.getElem?_map, h.drafts]
  cases l.drafts[id]? with
  | none => rfl
  | some draft =>
    simp only [Option.map_some, h.baseOf, propertyReferencesOf, ← Ordered.union_map σ.injective]
    cases l.baseOf draft <;> rfl

theorem climb (h : Renumbers σ l r) (limit : Nat) (seen : List ClassId) (next : Option ClassId) :
    r.climb limit (seen.map σ) (next.map σ) =
      ((l.climb limit seen next).1.map σ, (l.climb limit seen next).2.map σ) := by
  induction limit generalizing seen next with
  | zero => cases next <;> rfl
  | succ limit ih =>
    cases next with
    | none => rfl
    | some base =>
      rw [Option.map_some, Linking.climb, Linking.climb, h.baseAt]
      simp only [List.mem_map_of_injective σ.injective]
      split
      · rfl
      · have hnext := ih (base :: seen) (l.baseAt base)
        rw [List.map_cons] at hnext
        rw [hnext, List.map_cons]

theorem ancestors (h : Renumbers σ l r) (id : ClassId) :
    r.ancestors (σ id) = (l.ancestors id).map σ := by
  have hline := h.climb (l.drafts.length + 1) [id] (l.baseAt id)
  unfold Linking.ancestors lineOf
  rw [h.length, h.baseAt]
  exact congrArg Prod.fst hline

theorem basesFrom (h : Renumbers σ l r) (line : List ClassId) :
    r.basesFrom (line.map σ) = l.basesFrom line := by
  induction line with
  | nil => rfl
  | cons id above ih => simp only [List.map_cons, Linking.basesFrom, ih, h.typeNameAt, h.naming]

theorem inheritedNames (h : Renumbers σ l r) (line : List ClassId) :
    r.inheritedNames (line.map σ) = l.inheritedNames line := by
  unfold Linking.inheritedNames
  rw [List.flatMap_map]
  congr 1
  apply List.flatMap_congr
  intro id _
  have hdeclared := h.map_drafts (g := fun draft => draft.body.declared)
    (fun draft => draft.body.declared_renumbered) id
  rw [hdeclared]

theorem object (h : Renumbers σ l r) (id : ClassId) (typeName : String) (members : List Property) :
    r.object (σ id) typeName (members.map (·.renumbered σ)) =
      (l.object id typeName members).renumbered σ := by
  have hproperties (names : List String) :
      (members.map (·.renumbered σ)).filter (·.name ∉ names) =
        (members.filter (·.name ∉ names)).map (·.renumbered σ) :=
    Graph.filter_map_of_eq (fun _ => rfl) members
  have hheaders {headers : Facets → List String} (kept : List Property) :
      (kept.map (·.renumbered σ)).flatMap (fun p => headers p.type.facets) =
        kept.flatMap fun p => headers p.type.facets := by
    simp [List.flatMap_map, Property.renumbered]
  unfold Linking.object ObjectClass.renumbered
  simp only [h.ancestors, h.basesFrom, h.inheritedNames, h.naming, hproperties, hheaders,
    List.head?_map]

theorem kind (h : Renumbers σ l r) (id : ClassId) (draft : DraftClass) :
    r.kind (σ id) (draft.renumbered σ) = (l.kind id draft).renumbered σ := by
  unfold Linking.kind DraftClass.renumbered
  cases draft.body with
  | object base declared members => exact congrArg ClassKind.object (h.object id _ members)
  | enumeration | value | unsupported => rfl

theorem subtypeClosure (h : Renumbers σ l r) (id : ClassId) :
    r.subtypeClosure (σ id) = (l.subtypeClosure id).map σ := by
  unfold Linking.subtypeClosure
  rw [Graph.reachable_map h.propertyReferences]
  apply Graph.filter_map_of_eq
  intro n
  simp [h.isType]

theorem refGraph (h : Renumbers σ l r) (id : ClassId) :
    r.refGraph (σ id) = Graph.rename σ (l.refGraph id) := by
  have hnodes : ((Graph.reachable l.references id).map σ).filter
        (fun n => n = σ id || r.isObject n) =
      ((Graph.reachable l.references id).filter fun n => n = id || l.isObject n).map σ := by
    apply Graph.filter_map_of_eq
    intro n
    simp [h.isObject]
  unfold Linking.refGraph Graph.rename
  simp only [Graph.reachable_map h.references, hnodes, List.map_map]
  apply List.map_congr_left
  intro n _
  have hedges : (r.references[σ n]?).getD [] = ((l.references[n]?).getD []).map σ := by
    rw [h.references]
    cases l.references[n]? <;> rfl
  simp only [Function.comp_apply, hedges, Prod.mk.injEq, true_and]
  apply Graph.filter_map_of_eq
  intro d
  simp only [List.contains_eq_mem, List.mem_map_of_injective σ.injective]

theorem refClosure (h : Renumbers σ l r) (id : ClassId) :
    r.refClosure (σ id) = (l.refClosure id).map σ := by
  unfold Linking.refClosure
  rw [h.refGraph, Graph.topologicalOrder_rename σ.injective]

theorem classOf (h : Renumbers σ l r) (id : ClassId) (draft : DraftClass) :
    r.classOf (σ id) (draft.renumbered σ) = (l.classOf id draft).renumbered σ := by
  have hreferences : (r.references[σ id]?).getD [] = ((l.references[id]?).getD []).map σ := by
    rw [h.references]
    cases l.references[id]? <;> rfl
  unfold Linking.classOf ClassDescriptor.renumbered
  simp only [h.kind, h.subtypeClosure, h.refClosure, hreferences, h.naming]
  rfl

theorem table_get? (h : Renumbers σ l r) (id : ClassId) :
    r.table.get? (σ id) = (l.table.get? id).map (·.renumbered σ) := by
  rw [Linking.table_get?, Linking.table_get?, h.drafts]
  cases l.drafts[id]? with
  | none => rfl
  | some draft => exact congrArg some (h.classOf id draft)

theorem length_table (h : Renumbers σ l r) : r.table.length = l.table.length := by
  rw [Linking.length_table, Linking.length_table, h.length]

end Renumbers

end Linking

end SchemaClasses
