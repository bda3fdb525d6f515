import Mathlib.Data.Fintype.Card
import Mathlib.Order.WellFounded
import SchemaClasses.Proofs.ClassTable.Ancestors
import SchemaClasses.Proofs.Drafting.Hollow
import SchemaClasses.Proofs.Runs

/-!
# Where declared properties end up

A property that several classes of a line declare belongs to the topmost of them alone: to the one
that declares it while no other class above does. It is a member there unless its fragment is
hollow. What the classes further down say of the property does not matter, so a property is lost
when only its topmost declaration is hollow, or when a line of bases closes a circle and has no top.
-/

namespace SchemaClasses

namespace ClassTable

/-- The schema of an object declares a property. -/
def Declares (table : ClassTable) (catalog : Catalog) (id : ClassId) (name : String)
    (fragment : Json) : Prop :=
  ∃ c object document, table.get? id = some c ∧ c.object? = some object ∧
    catalog.document? c.source = some document ∧ (name, fragment) ∈ document.properties

/-- An object has a property of its own. -/
def Owns (table : ClassTable) (id : ClassId) (name : String) : Prop :=
  ∃ c object, table.get? id = some c ∧ c.object? = some object ∧
    name ∈ object.properties.map (·.name)

/-- An object declares a property, and no other class above it does. -/
def Tops (table : ClassTable) (catalog : Catalog) (id : ClassId) (name : String)
    (fragment : Json) : Prop :=
  table.Declares catalog id name fragment ∧
    ∀ above, above ≠ id → table.AtOrAbove id above →
      ∀ other, ¬table.Declares catalog above name other

/-- Going up from a class leads into a circle. -/
def Circles (table : ClassTable) (id : ClassId) : Prop :=
  ∃ x, table.AtOrAbove id x ∧ Relation.TransGen table.HasBase x x

end ClassTable

namespace ClassTable

variable {table : ClassTable} {catalog : Catalog} {id : ClassId} {name : String}

theorem hasBase_rightUnique (table : ClassTable) : Relator.RightUnique table.HasBase := by
  rintro id first second ⟨c, object, hc, hobject, hfirst⟩ ⟨c', object', hc', hobject', hsecond⟩
  obtain rfl := Option.some.inj (hc.symm.trans hc')
  obtain rfl := Option.some.inj (hobject.symm.trans hobject')
  exact Option.some.inj (hfirst.symm.trans hsecond)

theorem Tops.unique {t u : ClassId} {first second : Json} (ht : table.AtOrAbove id t)
    (hu : table.AtOrAbove id u) (hfirst : table.Tops catalog t name first)
    (hsecond : table.Tops catalog u name second) : t = u := by
  by_contra hne
  rcases ht.total_of_right_unique table.hasBase_rightUnique hu with h | h
  · exact hfirst.2 u (Ne.symm hne) h second hsecond.1
  · exact hsecond.2 t hne h first hfirst.1

/-- Where going up leads into no circle, one of the classes of a kind has no other of its kind above
it. -/
theorem exists_highest (finite : {x | table.AtOrAbove id x}.Finite) (noCircle : ¬table.Circles id)
    (kind : ClassId → Prop) {first : ClassId} (hfirst : table.AtOrAbove id first)
    (hkind : kind first) :
    ∃ t, table.AtOrAbove id t ∧ kind t ∧
      ∀ above, above ≠ t → table.AtOrAbove t above → ¬kind above := by
  -- Without a circle, being above is a well-founded order on the finitely many classes of the line.
  let line := {x // table.AtOrAbove id x}
  have : Finite line := finite
  let above (y x : line) : Prop := Relation.TransGen table.HasBase x.1 y.1
  have : IsTrans line above := ⟨fun _ _ _ hyx hzy => Relation.TransGen.trans hzy hyx⟩
  have : Std.Irrefl above := ⟨fun x hx => noCircle ⟨x.1, x.2, hx⟩⟩
  obtain ⟨⟨t, ht⟩, hkind, hmin⟩ := (Finite.wellFounded_of_trans_of_irrefl above).has_min
    {x | kind x.1} ⟨⟨first, hfirst⟩, hkind⟩
  refine ⟨t, ht, hkind, fun x hne hx hkindx => hmin ⟨x, ht.trans hx⟩ hkindx ?_⟩
  rcases Relation.reflTransGen_iff_eq_or_transGen.mp hx with heq | h
  · exact absurd heq hne
  · exact h

theorem exists_tops (finite : {x | table.AtOrAbove id x}.Finite) (noCircle : ¬table.Circles id)
    {fragment : Json} (hdeclares : table.Declares catalog id name fragment) :
    ∃ t, table.AtOrAbove id t ∧ ∃ fragment, table.Tops catalog t name fragment := by
  obtain ⟨t, ht, ⟨other, hother⟩, htop⟩ := exists_highest finite noCircle
    (fun x => ∃ fragment, table.Declares catalog x name fragment) .refl ⟨fragment, hdeclares⟩
  exact ⟨t, ht, other, hother, fun above hne hup another hanother =>
    htop above hne hup ⟨another, hanother⟩⟩

end ClassTable

namespace Run.EndsAt

open Drafting

variable {options : RunOptions} {files : FileTree} {downloads : List (String × String)} {run : Run}
variable {draft : Draft}

theorem object_inv (h : run.EndsAt options files downloads draft) {id : ClassId}
    {c : ClassDescriptor}
    {object : ObjectClass} (hc : run.table.get? id = some c) (hobject : c.object? = some object) :
    ∃ document drafted base members, draft.catalog.document? c.source = some document ∧
      draft.linking.drafts[id]? = some drafted ∧
      drafted.body = .object base document.propertyNames members ∧
      object = draft.linking.object id drafted.typeName members ∧
      ∀ name, name ∈ members.map (·.name) ↔ name ∉ impliedProperties ∧
        ∃ fragment, (name, fragment) ∈ document.properties ∧ ¬Hollow fragment := by
  obtain ⟨place, drafted, hplace, hdrafted, hclass, rfl⟩ := h.class_inv hc
  obtain ⟨base, declared, members, hbody, rfl⟩ := Linking.object?_classOf.mp hobject
  obtain ⟨rfl, hmembers⟩ := hclass.object_inv hbody
  exact ⟨place.document, drafted, base, members, h.document?_source hplace hclass, hdrafted, hbody,
    rfl, hmembers⟩

/-- The names that linking takes a class to declare are those that its schema declares. -/
theorem mem_declared_iff (h : run.EndsAt options files downloads draft) {id : ClassId}
    {name : String} :
    name ∈ ((draft.linking.drafts[id]?).map (·.body.declared)).getD [] ↔
      ∃ fragment, run.table.Declares draft.catalog id name fragment := by
  have hget : run.table.get? id = _ := h.table ▸ draft.linking.table_get? id
  constructor
  · intro hname
    cases hdrafted : draft.linking.drafts[id]? with
    | none => simp [hdrafted] at hname
    | some drafted =>
      rw [hdrafted, Option.map_some, Option.getD_some] at hname
      rw [hdrafted, Option.map_some] at hget
      cases hbody : drafted.body with
      | object base declared members =>
        have hobject : (draft.linking.classOf id drafted).object? = some _ :=
          Linking.object?_classOf.mpr ⟨base, declared, members, hbody, rfl⟩
        obtain ⟨document, other, _, _, hdocument, hother, hbody', -, -⟩ := h.object_inv hget hobject
        obtain rfl := Option.some.inj (hdrafted.symm.trans hother)
        rw [hbody'] at hname
        obtain ⟨⟨_, fragment⟩, hmem, rfl⟩ := List.mem_map.mp hname
        exact ⟨fragment, _, _, document, hget, hobject, hdocument, hmem⟩
      | enumeration | value | unsupported => simp [hbody, DraftBody.declared] at hname
  · rintro ⟨fragment, c, object, document, hc, hobject, hdocument, hmem⟩
    obtain ⟨document', drafted, _, _, hdocument', hdrafted, hbody, -, -⟩ := h.object_inv hc hobject
    obtain rfl := Option.some.inj (hdocument.symm.trans hdocument')
    rw [hdrafted, Option.map_some, Option.getD_some, hbody]
    exact List.mem_map_of_mem hmem

/-- An object owns the properties that it is the topmost to declare, unless by hollow fragments. -/
theorem owns_iff (h : run.EndsAt options files downloads draft) {id : ClassId} {name : String}
    (hname : name ∉ impliedProperties) :
    run.table.Owns id name ↔
      ∃ fragment, run.table.Tops draft.catalog id name fragment ∧ ¬Hollow fragment := by
  have hinherited : name ∉ draft.linking.inheritedNames (draft.linking.ancestors id) ↔
      ∀ above, above ≠ id → run.table.AtOrAbove id above →
        ∀ other, ¬run.table.Declares draft.catalog above name other := by
    rw [Linking.inheritedNames, Ordered.mem_union, or_iff_right hname, List.mem_flatMap]
    simp only [h.mem_declared_iff, Linking.mem_ancestors_iff, ← h.table]
    push Not
    exact forall_congr' fun above => and_imp
  constructor
  · rintro ⟨c, object, hc, hobject, howns⟩
    obtain ⟨document, drafted, base, members, hdocument, -, -, rfl, hmembers⟩ :=
      h.object_inv hc hobject
    obtain ⟨p, hp, rfl⟩ := List.mem_map.mp howns
    obtain ⟨hp, hfresh⟩ := List.mem_filter.mp hp
    obtain ⟨-, fragment, hmem, solid⟩ := (hmembers p.name).mp (List.mem_map_of_mem hp)
    exact ⟨fragment, ⟨⟨c, _, document, hc, hobject, hdocument, hmem⟩,
      hinherited.mp (by simpa using hfresh)⟩, solid⟩
  · rintro ⟨fragment, ⟨⟨c, object, document, hc, hobject, hdocument, hmem⟩, htop⟩, solid⟩
    obtain ⟨document', drafted, base, members, hdocument', -, -, rfl, hmembers⟩ :=
      h.object_inv hc hobject
    obtain rfl := Option.some.inj (hdocument.symm.trans hdocument')
    obtain ⟨p, hp, rfl⟩ := List.mem_map.mp ((hmembers name).mpr ⟨hname, fragment, hmem, solid⟩)
    refine ⟨c, _, hc, hobject, List.mem_map_of_mem (List.mem_filter.mpr ⟨hp, ?_⟩)⟩
    simpa using hinherited.mpr htop

theorem finite_line (h : run.EndsAt options files downloads draft) (id : ClassId) :
    {x | run.table.AtOrAbove id x}.Finite :=
  h.table ▸ draft.linking.finite_line id

end Run.EndsAt

/-- Of the classes of a line that declare a property, the topmost has it as its own, unless its
fragment is hollow, and no other class has. There is a topmost one unless the line closes a
circle. -/
theorem RunOptions.owns_topmost {options : RunOptions} {files : FileTree}
    {downloads : List (String × String)} {depth : Nat} {run : Run}
    {after : Draft} (h : options.resolveAll depth (options.start files downloads) =
      some (.ok run, after))
    {id : ClassId} {name : String} (hname : name ∉ impliedProperties)
    (hdeclares : ∃ fragment, run.table.Declares after.catalog id name fragment) :
    (¬run.table.Circles id →
      ∃! t, run.table.AtOrAbove id t ∧
        ∃ fragment, run.table.Tops after.catalog t name fragment) ∧
      (∀ t fragment, run.table.Tops after.catalog t name fragment → ¬Hollow fragment →
        run.table.Owns t name) ∧
      ∀ t, run.table.Owns t name →
        ∃ fragment, run.table.Tops after.catalog t name fragment ∧ fragment ≠ .obj [] := by
  have ends := RunOptions.resolveAll_endsAt h
  refine ⟨fun noCircle => ?_, fun t fragment htop solid => ?_, fun t howns => ?_⟩
  · obtain ⟨fragment, hdeclares⟩ := hdeclares
    obtain ⟨t, ht, htop⟩ := ClassTable.exists_tops (ends.finite_line id) noCircle hdeclares
    refine ⟨t, ⟨ht, htop⟩, ?_⟩
    rintro u ⟨hu, other, hother⟩
    obtain ⟨fragment, htop⟩ := htop
    exact hother.unique hu ht htop
  · exact (ends.owns_iff hname).mpr ⟨fragment, htop, solid⟩
  · obtain ⟨fragment, htop, solid⟩ := (ends.owns_iff hname).mp howns
    refine ⟨fragment, htop, ?_⟩
    rintro rfl
    exact solid (.empty rfl)

def Run.outline (run : Run) : List (String × Option (Option ClassId × List String)) :=
  run.table.map fun c => (c.source, c.object?.map fun o => (o.base, o.properties.map (·.name)))

def Json.derivedFrom (base name : String) (fragment : Json) : Json :=
  .obj [("type", .str "object"), ("allOf", .arr [.referringTo base]),
    ("properties", .obj [(name, fragment)])]

theorem Run.outline_getElem? {run : Run} {id : ClassId} {c : ClassDescriptor}
    {object : ObjectClass} (hc : run.table.get? id = some c) (hobject : c.object? = some object) :
    run.outline[id]? =
      some (c.source, some (object.base, object.properties.map (·.name))) := by
  have hget : run.table[id]? = some c := hc
  rw [outline, List.getElem?_map, hget, Option.map_some, hobject, Option.map_some]

theorem Run.object_of_outline {run : Run} {id : ClassId} {source : String}
    {declared : Option ClassId × List String}
    (h : run.outline[id]? = some (source, some declared)) :
    ∃ c object, run.table.get? id = some c ∧ c.source = source ∧ c.object? = some object ∧
      declared = (object.base, object.properties.map (·.name)) := by
  rw [outline, List.getElem?_map] at h
  obtain ⟨c, hc, hentry⟩ := Option.map_eq_some_iff.mp h
  obtain ⟨hsource, hobject⟩ := Prod.mk.inj hentry
  obtain ⟨object, hobject, hdeclared⟩ := Option.map_eq_some_iff.mp hobject
  exact ⟨c, object, hc, hsource, hobject, hdeclared.symm⟩

/-- A run whose first class is an object that declares a number. -/
theorem RunOptions.declares_first (files : FileTree) (first : Option ClassId × List String)
    (rest : List (String × Option (Option ClassId × List String)))
    (houtline : (((onSchemas "c").resolveAll 8 ((onSchemas "c").start files)).bind fun result =>
      result.1.toOption.map Run.outline) = some (("/s/c", some first) :: rest))
    (hdocument : (((onSchemas "c").resolveAll 8 ((onSchemas "c").start files)).bind fun result =>
      (result.2.catalog.document? "/s/c").map fun document =>
        document.properties.map fun entry => (entry.1, entry.2.string? "type")) =
          some [("p", some "number")]) :
    ∃ run after, (onSchemas "c").resolveAll 8 ((onSchemas "c").start files) =
        some (.ok run, after) ∧ run.outline = ("/s/c", some first) :: rest ∧
      ∃ fragment, run.table.Declares after.catalog 0 "p" fragment ∧ fragment ≠ .obj [] := by
  obtain ⟨⟨result, after⟩, hrun, houtline⟩ := Option.bind_eq_some_iff.mp houtline
  cases result with
  | error => cases houtline
  | ok run =>
    have houtline : run.outline = ("/s/c", some first) :: rest := Option.some.inj houtline
    refine ⟨run, after, hrun, houtline, ?_⟩
    rw [hrun, Option.bind_some] at hdocument
    obtain ⟨document, hdocument, hproperties⟩ := Option.map_eq_some_iff.mp hdocument
    obtain ⟨⟨name, fragment⟩, _, hdeclared, hentry, -⟩ := List.map_eq_cons_iff.mp hproperties
    obtain ⟨rfl, hfragment⟩ := Prod.mk.inj hentry
    have hfirst : run.outline[0]? = some ("/s/c", some first) := by
      rw [houtline, List.getElem?_cons_zero]
    obtain ⟨c, object, hc, hsource, hobject, -⟩ := Run.object_of_outline hfirst
    refine ⟨fragment, ⟨c, object, document, hc, hobject, hsource ▸ hdocument,
      hdeclared ▸ List.mem_cons_self⟩, ?_⟩
    rintro rfl
    cases hfragment

/-- A class declares a property by more than the empty object, and no class of its line has it. -/
def ClassTable.Loses (table : ClassTable) (catalog : Catalog) (id : ClassId) (name : String) :
    Prop :=
  (∃ fragment, table.Declares catalog id name fragment ∧ fragment ≠ .obj []) ∧
    ∀ t, table.AtOrAbove id t → ¬table.Owns t name

theorem Run.not_owns {run : Run}
    (h : ∀ entry ∈ run.outline, ∀ object ∈ entry.2, object.2 = []) (id : ClassId)
    (name : String) : ¬run.table.Owns id name := by
  rintro ⟨c, object, hc, hobject, hmem⟩
  have hentry := List.mem_of_getElem? (outline_getElem? hc hobject)
  have hnone : object.properties.map (·.name) = [] := h _ hentry _ rfl
  rw [hnone] at hmem
  exact absurd hmem List.not_mem_nil

def FileTree.numberOver (base : Json) : FileTree :=
  .ofSchemas [("c", .derivedFrom "b" "p" .number), ("b", base)]

/-- A property is lost when the base declares it by the empty object, and also when two classes
that are bases of each other both declare it. -/
theorem RunOptions.property_lost :
    (∃ run after, (onSchemas "c").resolveAll 8 ((onSchemas "c").start (.numberOver
        (.withProperty "p" (.obj [])))) =
      some (.ok run, after) ∧ run.table.Loses after.catalog 0 "p") ∧
    ∃ run after, (onSchemas "c").resolveAll 8 ((onSchemas "c").start (.numberOver
        (.derivedFrom "c" "p" .number))) =
      some (.ok run, after) ∧ run.table.Loses after.catalog 0 "p" := by
  constructor
  · obtain ⟨run, after, hrun, houtline, hdeclares⟩ := declares_first
      (.numberOver (.withProperty "p" (.obj []))) (some 1, []) [("/s/b", some (none, []))]
      (by decide +kernel) (by decide +kernel)
    exact ⟨run, after, hrun, hdeclares, fun t _ => Run.not_owns (by simp [houtline]) t "p"⟩
  · obtain ⟨run, after, hrun, houtline, hdeclares⟩ := declares_first
      (.numberOver (.derivedFrom "c" "p" .number)) (some 1, []) [("/s/b", some (some 0, []))]
      (by decide +kernel) (by decide +kernel)
    exact ⟨run, after, hrun, hdeclares, fun t _ => Run.not_owns (by simp [houtline]) t "p"⟩

/-- A property that a class and its base declare has one topmost declaration, which is that of the
base. -/
theorem RunOptions.owns_topmost_base :
    ∃ run after, (onSchemas "c").resolveAll 8 ((onSchemas "c").start (.numberOver
        (.withProperty "p" .number))) =
      some (.ok run, after) ∧
      (∃! t, run.table.AtOrAbove 0 t ∧
        ∃ fragment, run.table.Tops after.catalog t "p" fragment) ∧
      ∃ fragment, run.table.Tops after.catalog 1 "p" fragment ∧ fragment ≠ .obj [] := by
  obtain ⟨run, after, hrun, houtline, fragment, hdeclares, -⟩ := declares_first
    (.numberOver (.withProperty "p" .number)) (some 1, []) [("/s/b", some (none, ["p"]))]
    (by decide +kernel) (by decide +kernel)
  have hname : "p" ∉ impliedProperties := by decide
  obtain ⟨hunique, -, htops⟩ := owns_topmost hrun hname ⟨fragment, hdeclares⟩
  have hbase {id base : ClassId} (h : run.table.HasBase id base) : id = 0 ∧ base = 1 := by
    obtain ⟨c, object, hc, hobject, hbase⟩ := h
    have hentry := Run.outline_getElem? hc hobject
    rw [houtline] at hentry
    match id with
    | 0 => simp_all
    | 1 => simp_all
    | _ + 2 => simp at hentry
  refine ⟨run, after, hrun, hunique ?_, htops 1 ?_⟩
  · rintro ⟨x, -, hround⟩
    obtain ⟨y, hxy, -⟩ := Relation.TransGen.head'_iff.mp hround
    obtain ⟨z, -, hzx⟩ := Relation.TransGen.tail'_iff.mp hround
    have := (hbase hxy).1.symm.trans (hbase hzx).2
    cases this
  · have hbase : run.outline[1]? = some ("/s/b", some (none, ["p"])) := by
      rw [houtline, List.getElem?_cons_succ, List.getElem?_cons_zero]
    obtain ⟨b, object, hb, -, hobject, hdeclared⟩ := Run.object_of_outline hbase
    refine ⟨b, object, hb, hobject, ?_⟩
    rw [← (Prod.mk.inj hdeclared).2]
    exact List.mem_cons_self

end SchemaClasses
