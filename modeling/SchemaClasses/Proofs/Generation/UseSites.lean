import SchemaClasses.Proofs.ClassTable.Ancestors
import SchemaClasses.Proofs.Drafting.Named
import SchemaClasses.Proofs.Runs

/-!
# Uses of classes and the class table

What a member says of the class that types it agrees with the class table. The value type and the
reader always follow from the class name that the member gives. That name is the one in the table
when no extension renames a schema that has a class already; an object that is declared at the
member must moreover not be a link, since the class is then named after the schema linked to.
-/

namespace SchemaClasses

open Drafting

/-- A type calls a class what it is called in the class table. -/
structure ClassDescriptor.IsCalledIn (k : ClassDescriptor) (type : Descriptor) : Prop where
  className : type.core.className? = some k.typeName
  valueType : type.coreFacets.valueType = k.qualifiedName
  readerType : type.coreFacets.readerType = k.handler

variable {options : RunOptions} {files : FileTree} {downloads : List (String × String)}
variable {depth : Nat} {run : Run} {after : Draft}

/-- No extension of a run changes what a document goes by that has a class already. -/
def RunOptions.Steady (options : RunOptions) (files : FileTree)
    (downloads : List (String × String)) (depth : Nat) : Prop :=
  Policy.steady.AllowsAll depth ⟨[], .empty⟩ options.settings.extensions
    (options.start files downloads)

theorem RunOptions.Steady.settled (steady : options.Steady files downloads depth)
    (h : options.resolveAll depth (options.start files downloads) = some (.ok run, after)) :
    after.Settled := by
  have completes := (RunOptions.resolveAll_steps .steady steady h).1
  have hdocumented : (options.start files downloads).Documented := fun _ hplace =>
    absurd hplace List.not_mem_nil
  exact Steps.settled completes.steps hdocumented fun _ hplace => absurd hplace List.not_mem_nil

namespace Run.EndsAt

theorem typeName_of_calls (h : run.EndsAt options files downloads after) (settled : after.Settled)
    {t : ClassId} {k : ClassDescriptor} (hk : run.table.get? t = some k) {document : Document}
    {name : String} (hcalls : after.Calls t document name) :
    k.typeName = name ∧ k.source = document.key := by
  obtain ⟨place, drafted, hplace, hfilled, hdrafted, rfl⟩ := h.place_inv hk
  obtain ⟨other, hother, rfl⟩ := h.place_of_holds hcalls.knows hcalls.holds
  obtain rfl := Option.some.inj (hplace.symm.trans hother)
  have hname := (settled place (List.mem_of_getElem? hplace) drafted hfilled).typeName
  exact ⟨hname.trans hcalls.name, hdrafted.source⟩

end Run.EndsAt

/-- What a member says of the class that types it follows from the class name that it gives. In a
steady run the class has that name when the member refers to a schema, and also when it declares an
object that is not a link to another schema. -/
theorem RunOptions.useSite_names
    (h : options.resolveAll depth (options.start files downloads) = some (.ok run, after))
    {c : ClassDescriptor} {object : ObjectClass} (hc : c ∈ run.table)
    (hobject : c.object? = some object) {p : Property} (hp : p ∈ object.properties) {name : String}
    (hname : p.type.core.className? = some name) :
    (p.type.coreFacets.valueType = options.naming.qualified name ∧
      p.type.coreFacets.readerType = options.naming.handler name) ∧
    ∃ t k, p.type.core.target? = some t ∧ run.table.get? t = some k ∧
      (k.qualifiedName = options.naming.qualified k.typeName ∧
        k.handler = options.naming.handler k.typeName) ∧
      (options.Steady files downloads depth →
        (∀ isAsset, p.type.core = .reference t name isAsset → k.IsCalledIn p.type) ∧
        (p.type.core = .inlineObject t name → ∃ inline,
          after.catalog.document? (c.source ++ "#inline/" ++ p.type.corePath p.name) =
            some inline ∧
          (k.source = inline.key ↔ inline.link? = none) ∧
          (k.source = inline.key → k.IsCalledIn p.type))) := by
  have ends := RunOptions.resolveAll_endsAt h
  obtain ⟨id, hid⟩ := List.mem_iff_getElem?.mp hc
  obtain ⟨place, drafted, hplace, hfilled, hdrafted, rfl⟩ := ends.place_inv hid
  obtain ⟨base, declared, members, hbody, rfl⟩ := Linking.object?_classOf.mp hobject
  have hmember : p ∈ members := (List.mem_filter.mp hp).1
  have htype : p.type ∈ drafted.body.types := by
    rw [hbody]
    exact List.mem_map_of_mem hmember
  have hnaming : after.naming = options.naming := ends.steps.within.naming
  have hspelled := hdrafted.spelled p.type htype name hname
  rw [hnaming] at hspelled
  have hsome : p.type.core.target?.isSome = true := by
    rw [Leaf.target?_isSome, hname, Option.isSome_some]
  obtain ⟨t, htarget⟩ := Option.isSome_iff_exists.mp hsome
  obtain ⟨k, hk⟩ := ends.get?_of_lt ((hdrafted.refers p.type htype).lt htarget)
  obtain ⟨kplace, kdrafted, hkplace, -, -, hkclass⟩ := ends.place_inv hk
  have hkspelled : k.qualifiedName = options.naming.qualified k.typeName ∧
      k.handler = options.naming.handler k.typeName := by
    rw [hkclass, ← hnaming]
    exact ⟨rfl, rfl⟩
  have hagrees : k.typeName = name → k.IsCalledIn p.type := by
    rintro rfl
    exact ⟨hname, hspelled.1.trans hkspelled.1.symm, hspelled.2.trans hkspelled.2.symm⟩
  refine ⟨hspelled, t, k, htarget, hk, hkspelled, fun steady => ?_⟩
  have settled := steady.settled h
  have hnamed := (settled place (List.mem_of_getElem? hplace) drafted hfilled).named hbody p hmember
  constructor
  · intro isAsset hcore
    obtain ⟨document, hcalls⟩ := hnamed.reference hcore
    exact hagrees (ends.typeName_of_calls settled hk hcalls).1
  · intro hcore
    obtain ⟨inline, hkey, known, hcalls⟩ := hnamed.inlineObject hcore
    have hlink : k.source = inline.key → inline.link? = none := by
      intro hsource
      obtain ⟨other, drafted', hother, -, hdrafted', rfl⟩ := ends.place_inv hk
      have hmem := List.mem_of_getElem? hother
      have heq := known.unique (ends.documented other hmem) (hsource.symm.trans hdrafted'.source)
      rw [heq]
      exact ends.orderly.unlinked other hmem
    refine ⟨inline, ?_, ⟨hlink, fun hnone => ?_⟩, fun hsource => ?_⟩
    · have hsource : (after.linking.classOf id drafted).source = place.document.key :=
        hdrafted.source
      rw [hsource, ← hkey]
      exact known
    · exact (ends.typeName_of_calls settled hk (hcalls hnone)).2
    · exact hagrees (ends.typeName_of_calls settled hk (hcalls (hlink hsource))).1

/-- A member of a run gives the class that types it a name that the class does not have. -/
def Run.Misnames (run : Run) : Prop :=
  ∃ c ∈ run.table, ∃ object, c.object? = some object ∧ ∃ p ∈ object.properties, ∃ t k,
    p.type.core.target? = some t ∧ run.table.get? t = some k ∧
      p.type.core.className? ≠ some k.typeName

def Run.useNames (run : Run) : List (Option String × Option String) :=
  (run.table.filterMap (·.object?)).flatMap fun object => object.properties.map fun p =>
    (p.type.core.className?, (p.type.core.target?.bind run.table.get?).map (·.typeName))

theorem Run.misnames_of_mem {name : Option String} {typeName : String}
    (h : (name, some typeName) ∈ run.useNames) (hne : name ≠ some typeName) : run.Misnames := by
  obtain ⟨object, hmem, h⟩ := List.mem_flatMap.mp h
  obtain ⟨c, hc, hobject⟩ := List.mem_filterMap.mp hmem
  obtain ⟨p, hp, heq⟩ := List.mem_map.mp h
  obtain ⟨rfl, htypeName⟩ := Prod.mk.inj heq
  obtain ⟨k, hk, rfl⟩ := Option.map_eq_some_iff.mp htypeName
  obtain ⟨t, ht, hk⟩ := Option.bind_eq_some_iff.mp hk
  exact ⟨c, hc, object, hobject, p, hp, t, k, ht, hk, hne⟩

def Json.linking (name : String) (fragment : Json) (target : String) : Json :=
  .obj [("type", .str "object"), ("properties", .obj [(name, fragment)]), ("$ref", .str target)]

def FileTree.linkingMember : FileTree :=
  .ofSchemas [("c", .withProperty "p" (.linking "a" .number "d")), ("d", .withProperty "b" .number)]

/-- A member that declares an object with a link gives the class of the other schema the name that
its own object would have. -/
theorem RunOptions.misnames_linking :
    ∃ run after, (onSchemas "c").resolveAll 8 ((onSchemas "c").start .linkingMember) =
      some (.ok run, after) ∧ run.Misnames := by
  have hnames : (((onSchemas "c").resolveAll 8 ((onSchemas "c").start .linkingMember)).bind
      fun result => result.1.toOption.map Run.useNames) =
        some [(some "CPValue", some "D"), (none, none)] := by
    decide +kernel
  obtain ⟨run, after, hrun, huses⟩ := run_of_map hnames
  have hmem : (some "CPValue", some "D") ∈ run.useNames := by simp [huses]
  exact ⟨run, after, hrun, Run.misnames_of_mem hmem (by decide)⟩

def RunOptions.withExtensions (schema : String) (extensions : List ExtensionSettings) :
    RunOptions :=
  ⟨schema, ["/s"], ["/s"], ⟨[], extensions⟩, .ofNamespace "N"⟩

/-- Two extensions, of which the first refers to the schema of the second, and a root that does so
too. The second extension has a class name of its own. -/
def RunOptions.renaming : RunOptions :=
  .withExtensions "c" [⟨"e", "E", none, []⟩, ⟨"d", "D", some "Other", []⟩]

def FileTree.renamedTarget : FileTree :=
  .ofSchemas [("e", .withProperty "p" (.referringTo "d")),
    ("c", .withProperty "p" (.referringTo "d")), ("d", .withProperty "b" .number)]

def FileTree.referringMember : FileTree :=
  .ofSchemas [("c", .withProperty "p" (.referringTo "d")), ("d", .withProperty "b" .number)]

/-- Without extensions a member that refers to a schema agrees with the table. -/
theorem RunOptions.useSite_names_reference :
    ∃ run after c p k, (onSchemas "c").resolveAll 8 ((onSchemas "c").start .referringMember) =
        some (.ok run, after) ∧ (onSchemas "c").Steady .referringMember [] 8 ∧
      c ∈ run.table ∧ (∃ object, c.object? = some object ∧ p ∈ object.properties) ∧
      k ∈ run.table ∧ p.type.core.className? = some "D" ∧
      p.type.coreFacets.valueType = (onSchemas "c").naming.qualified "D" ∧
      (∀ t isAsset, p.type.core = .reference t "D" isAsset → k.IsCalledIn p.type) := by
  have hnames : (((onSchemas "c").resolveAll 8 ((onSchemas "c").start .referringMember)).bind
      fun result => result.1.toOption.map Run.useNames) =
        some [(some "D", some "D"), (none, none)] := by
    decide +kernel
  obtain ⟨run, after, hrun, huses⟩ := run_of_map hnames
  have hmem : (some "D", some "D") ∈ run.useNames := by simp [huses]
  obtain ⟨object, hobject, huse⟩ := List.mem_flatMap.mp hmem
  obtain ⟨c, hc, hobject⟩ := List.mem_filterMap.mp hobject
  obtain ⟨p, hp, heq⟩ := List.mem_map.mp huse
  have hname : p.type.core.className? = some "D" := (Prod.mk.inj heq).1
  have steady : (onSchemas "c").Steady .referringMember [] 8 := by
    intro before e later between middle hsplit
    simp [onSchemas, Settings.empty] at hsplit
  obtain ⟨hspelled, t, k, htarget, hk, -, hagrees⟩ := useSite_names hrun hc hobject hp hname
  refine ⟨run, after, c, p, k, hrun, steady, hc, ⟨object, hobject, hp⟩,
    List.mem_of_getElem? hk, hname, hspelled.1, fun other isAsset hcore => ?_⟩
  have hother : other = t := by
    rw [hcore] at htarget
    exact Option.some.inj htarget
  exact (hagrees steady).1 isAsset (hother ▸ hcore)

end SchemaClasses
