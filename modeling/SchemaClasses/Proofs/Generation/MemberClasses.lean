import SchemaClasses.Output
import SchemaClasses.Proofs.ClassTable.Ancestors
import SchemaClasses.Proofs.Generation.WorkOrder
import SchemaClasses.Proofs.Runs

/-!
# The classes of members

A member that is typed by a class is typed by a class of the table, and code is generated for that
class as well if it is an object. It always is one when the member refers to a schema. When the
object is declared at the property, it is one unless the whole schema has a shape that comes before
that of an object, which `anyOf`, `enum` and `$ref` do.
-/

namespace SchemaClasses

open Drafting

theorem Run.generated_or_external {run : Run} {id : ClassId} {k : ClassDescriptor}
    (horder : id ∈ run.workOrder) (hk : run.table.get? id = some k)
    (hobject : k.object?.isSome = true) : k ∈ run.generated ∨ k.isExternal = true := by
  cases hexternal : k.isExternal with
  | true => exact .inr rfl
  | false =>
    refine .inl (List.mem_filter.mpr ⟨List.mem_filterMap.mpr ⟨id, horder, hk⟩, ?_⟩)
    rw [ClassDescriptor.isGenerated, hexternal]
    rw [ClassDescriptor.object?] at hobject
    cases hkind : k.kind with
    | object => rfl
    | enumeration | value | unsupported => simp [hkind] at hobject

namespace Run.EndsAt

variable {options : RunOptions} {files : FileTree} {downloads : List (String × String)} {run : Run}
variable {draft : Draft}

theorem isObject_iff (h : run.EndsAt options files downloads draft) {place : Place} {id : ClassId}
    {k : ClassDescriptor} (hk : run.table.get? id = some k)
    (hplace : draft.places[id]? = some place) :
    draft.catalog.document? k.source = some place.document ∧
      (k.object?.isSome = true ↔ SchemaShape.of place.document.body = .object) := by
  obtain ⟨place', drafted, hplace', -, hclass, rfl⟩ := h.class_inv hk
  obtain rfl := Option.some.inj (hplace.symm.trans hplace')
  rw [Linking.isObject_classOf, hclass.isObject_iff]
  exact ⟨h.document?_source hplace hclass, Iff.rfl⟩

theorem member_inv (h : run.EndsAt options files downloads draft) {id : ClassId}
    {c : ClassDescriptor}
    {object : ObjectClass} (hc : run.table.get? id = some c) (hobject : c.object? = some object)
    {p : Property} (hp : p ∈ object.properties) :
    ∃ (place : Place) (drafted : DraftClass), draft.linking.drafts[id]? = some drafted ∧
      p.type ∈ drafted.body.types ∧ Drafted place.document draft drafted ∧
      c = draft.linking.classOf id drafted := by
  obtain ⟨place, drafted, -, hdrafted, hclass, rfl⟩ := h.class_inv hc
  obtain ⟨base, declared, members, hbody, rfl⟩ := Linking.object?_classOf.mp hobject
  refine ⟨place, drafted, hdrafted, ?_, hclass, rfl⟩
  rw [hbody]
  exact List.mem_map_of_mem (List.mem_filter.mp hp).1

theorem mem_references (h : run.EndsAt options files downloads draft) {id t : ClassId}
    {c : ClassDescriptor}
    {object : ObjectClass} (hc : run.table.get? id = some c) (hobject : c.object? = some object)
    {p : Property} (hp : p ∈ object.properties) (ht : t ∈ p.type.classes) : t ∈ c.references := by
  obtain ⟨_, drafted, hdrafted, htype, -, rfl⟩ := h.member_inv hc hobject hp
  exact (Linking.mem_references_classOf hdrafted).mpr (.inr ⟨p.type, htype, ht⟩)

end Run.EndsAt

/-- The class that types a member is an object exactly when its schema has the shape of one. A
schema that is referred to always has; one that is declared at the property has when it has neither
`$ref` nor `anyOf` nor `enum`. If code is generated for the member, then also for an object that
types it, unless that exists already. -/
theorem RunOptions.member_class {options : RunOptions} {files : FileTree}
    {downloads : List (String × String)} {depth : Nat} {run : Run}
    {after : Draft} (h : options.resolveAll depth (options.start files downloads) =
      some (.ok run, after))
    {c : ClassDescriptor} {object : ObjectClass} (hc : c ∈ run.table)
    (hobject : c.object? = some object) {p : Property} (hp : p ∈ object.properties) {t : ClassId}
    (ht : t ∈ p.type.classes) :
    ∃ k document, run.table.get? t = some k ∧
      after.catalog.document? k.source = some document ∧
      (k.object?.isSome = true ↔ SchemaShape.of document.body = .object) ∧
      (∀ className isAsset, p.type.core = .reference t className isAsset →
        k.object?.isSome = true) ∧
      (∀ className, p.type.core = .inlineObject t className → ∃ path inline,
        after.catalog.document? (c.source ++ "#inline/" ++ path) = some inline ∧
        (inline.link? = none → document = inline) ∧
        (PropertyShape.of inline.body = .inlineObject → inline.body.string? "$ref" = none →
          (k.object?.isSome = true ↔
            inline.body.array? "anyOf" = none ∧ inline.body.array? "enum" = none))) ∧
      (c ∈ run.generated → k.object?.isSome = true → k ∈ run.generated ∨ k.isExternal = true) := by
  have ends := RunOptions.resolveAll_endsAt h
  obtain ⟨id, hid⟩ := List.mem_iff_getElem?.mp hc
  obtain ⟨owner, drafted, -, htype, hclass, hdrafted⟩ := ends.member_inv hid hobject hp
  have hrefers := hclass.refers p.type htype
  have hsource : c.source = owner.document.key := by
    rw [hdrafted]
    exact hclass.source
  have htarget := Descriptor.mem_classes.mp ht
  obtain ⟨k, hk⟩ := ends.get?_of_lt (hrefers.lt htarget)
  have hgenerated : c ∈ run.generated → k.object?.isSome = true →
      k ∈ run.generated ∨ k.isExternal = true := by
    intro hc hobject'
    obtain ⟨hc, -⟩ := List.mem_filter.mp hc
    obtain ⟨n, hn, hcn⟩ := List.mem_filterMap.mp hc
    have ht := ends.mem_references hcn hobject hp ht
    have horder := ClassTable.workOrder_closed ends.sources_nodup hn hcn ht hk
    exact Run.generated_or_external horder hk hobject'
  refine ⟨k, ?_⟩
  generalize hcore : p.type.core = leaf at hrefers htarget
  cases hrefers with
  | nothing hnone => simp [hnone] at htarget
  | @reference target className isAsset document hclassLike known holds =>
    obtain rfl := Option.some.inj htarget
    obtain ⟨place, hplace, rfl⟩ := ends.place_of_holds known holds
    obtain ⟨hdocument, hiff⟩ := ends.isObject_iff hk hplace
    refine ⟨place.document, hk, hdocument, hiff, fun _ _ _ => hiff.mpr ?_, by simp, hgenerated⟩
    exact SchemaShape.of_isClassLike hclassLike
  | @inlineObject target className path document own hkey known knownOwn hlink hself holds =>
    obtain rfl := Option.some.inj htarget
    obtain ⟨place, hplace, rfl⟩ := ends.place_of_holds knownOwn holds
    obtain ⟨hdocument, hiff⟩ := ends.isObject_iff hk hplace
    refine ⟨place.document, hk, hdocument, hiff, by simp, fun _ _ => ?_, hgenerated⟩
    refine ⟨path, document, ?_, hself, fun hinline href => ?_⟩
    · rw [hsource, ← hkey]
      exact known
    · rw [hiff, hself (Document.link?_of_alias? (SchemaShape.alias?_inlineObject hinline href))]
      exact SchemaShape.of_inlineObject hinline href

def Json.requiring (name : String) (fragment : Json) : Json :=
  .obj [("type", .str "object"), ("properties", .obj [(name, fragment)]),
    ("anyOf", .arr [.obj [("required", .arr [.str name])]])]

/-- For each class of a table, whether code is generated for it, whether it exists already, and the
classes of its members if it is an object. -/
def Run.memberClasses (run : Run) : List (Bool × Bool × Option (List ClassId)) :=
  run.table.map fun c =>
    (c.isGenerated, c.isExternal, c.object?.map fun o => o.properties.flatMap (·.type.classes))

def FileTree.requiringMember : FileTree :=
  .ofSchemas [("c", .withProperty "p" (.requiring "a" .number))]

theorem RunOptions.requiringMember_run :
    ∃ run after c object k, (onSchemas "c").resolveAll 8 ((onSchemas "c").start .requiringMember) =
        some (.ok run, after) ∧ run.table = [c, k] ∧ c ∈ run.generated ∧ c.object? = some object ∧
      object.properties.flatMap (·.type.classes) = [1] ∧ k.object? = none ∧
      k.isGenerated = false ∧ k.isExternal = false := by
  have htable : (((onSchemas "c").resolveAll 8 ((onSchemas "c").start .requiringMember)).bind
      fun result => result.1.toOption.map Run.memberClasses) =
        some [(true, false, some [1]), (false, false, none)] := by
    decide +kernel
  have horder : (((onSchemas "c").resolveAll 8 ((onSchemas "c").start .requiringMember)).bind
      fun result => result.1.toOption.map Run.workOrder) = some [0, 1] := by
    decide +kernel
  obtain ⟨⟨result, after⟩, hrun, htable⟩ := Option.bind_eq_some_iff.mp htable
  rw [hrun, Option.bind_some] at horder
  cases result with
  | error => cases htable
  | ok run =>
    obtain ⟨c, _, hc, hfirst, hrest⟩ := List.map_eq_cons_iff.mp (Option.some.inj htable)
    obtain ⟨k, _, rfl, hsecond, hrest⟩ := List.map_eq_cons_iff.mp hrest
    obtain rfl := List.map_eq_nil_iff.mp hrest
    obtain ⟨hgenerated, hfirst⟩ := Prod.mk.inj hfirst
    obtain ⟨-, hobject⟩ := Prod.mk.inj hfirst
    obtain ⟨object, hobject, hclasses⟩ := Option.map_eq_some_iff.mp hobject
    obtain ⟨hskipped, hsecond⟩ := Prod.mk.inj hsecond
    obtain ⟨hexternal, hnone⟩ := Prod.mk.inj hsecond
    have horder : run.workOrder = [0, 1] := Option.some.inj horder
    refine ⟨run, after, c, object, k, hrun, hc, ?_, hobject, hclasses,
      Option.map_eq_none_iff.mp hnone, hskipped, hexternal⟩
    refine List.mem_filter.mpr ⟨List.mem_filterMap.mpr ⟨0, ?_, ?_⟩, hgenerated⟩
    · rw [horder]
      exact List.mem_cons_self
    · rw [hc]
      rfl

/-- A member of a class that is generated may be typed by one that is not supported. -/
theorem RunOptions.member_unsupported :
    ∃ run after c object p k, (onSchemas "c").resolveAll 8
        ((onSchemas "c").start .requiringMember) = some (.ok run, after) ∧
      c ∈ run.table ∧ c.object? = some object ∧ p ∈ object.properties ∧ 1 ∈ p.type.classes ∧
      run.table.get? 1 = some k ∧ k.object? = none ∧
      c ∈ run.generated ∧ k ∉ run.generated ∧ k.isExternal = false := by
  obtain ⟨run, after, c, object, k, hrun, htable, hgenerated, hobject, hclasses, hnone, hskipped,
    hexternal⟩ := requiringMember_run
  obtain ⟨p, hp, ht⟩ := List.mem_flatMap.mp (hclasses ▸ List.mem_cons_self)
  refine ⟨run, after, c, object, p, k, hrun, htable ▸ List.mem_cons_self, hobject,
    hp, ht, by rw [htable]; rfl, hnone,
    hgenerated, fun hmem => ?_, hexternal⟩
  rw [(List.mem_filter.mp hmem).2] at hskipped
  cases hskipped

/-- What types that member comes from a schema of another shape. -/
theorem RunOptions.member_class_requiring :
    ∃ run after k document, (onSchemas "c").resolveAll 8
        ((onSchemas "c").start .requiringMember) = some (.ok run, after) ∧
      run.table.get? 1 = some k ∧ after.catalog.document? k.source = some document ∧
      SchemaShape.of document.body ≠ .object := by
  obtain ⟨run, after, c, object, other, hrun, htable, -, hobject, hclasses, hnone, -⟩ :=
    requiringMember_run
  obtain ⟨p, hp, ht⟩ := List.mem_flatMap.mp (hclasses ▸ List.mem_cons_self)
  obtain ⟨k, document, hk, hdocument, hiff, -⟩ :=
    member_class hrun (htable ▸ List.mem_cons_self) hobject hp ht
  refine ⟨run, after, k, document, hrun, hk, hdocument, fun hshape => ?_⟩
  obtain rfl : other = k := by
    rw [htable] at hk
    exact Option.some.inj hk
  have := hiff.mpr hshape
  rw [hnone] at this
  cases this

end SchemaClasses
