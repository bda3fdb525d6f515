import SchemaClasses.Proofs.ClassTable.Inheritance

/-!
# Lines of bases

What a class has from above is the same whether it is taken from all classes above it at once, as
linking does, or from its base alone, as long as going up comes to an end. What the classes above it
declare is not declared again, so no two classes of a line have the same property.
-/

namespace SchemaClasses

/-- The schema at a place declares a property. -/
def Draft.Declares (draft : Draft) (id : ClassId) (name : String) : Prop :=
  ∃ place, draft.places[id]? = some place ∧ name ∈ place.document.propertyNames

/-- Some other class above one declares a property. -/
def Draft.DeclaresAbove (draft : Draft) (table : ClassTable) (id : ClassId) (name : String) :
    Prop :=
  ∃ above, above ≠ id ∧ table.AtOrAbove id above ∧ draft.Declares above name

namespace Linking

variable {l : Linking} {id base : ClassId}

theorem isObject_of_mem_ancestors {above : ClassId} (h : above ∈ l.ancestors id) :
    l.isObject above = true :=
  (l.climb_isObject _ _ _ fun _ => isObject_of_baseAt).1 above h

theorem ancestors_of_hasBase (hbase : l.table.HasBase id base) (noCircle : ¬l.table.Circles id) :
    l.ancestors id = base :: l.ancestors base := by
  obtain ⟨hup, hne⟩ := hasBase_iff.mp hbase
  refine ancestors_eq_cons hup hne fun hback => noCircle ⟨id, .refl, ?_⟩
  exact .head' hbase (atOrAbove_iff.mpr hback)

theorem object_of_isObject (h : l.isObject id = true) :
    ∃ c object, l.table.get? id = some c ∧ c.object? = some object := by
  unfold isObject at h
  cases hdrafted : l.drafts[id]? with
  | none => simp [hdrafted] at h
  | some drafted =>
    rw [hdrafted, Option.map_some, Option.getD_some] at h
    have hsome : (l.classOf id drafted).object?.isSome = true := isObject_classOf.trans h
    obtain ⟨object, hobject⟩ := Option.isSome_iff_exists.mp hsome
    exact ⟨_, object, by rw [table_get?, hdrafted, Option.map_some], hobject⟩

theorem mem_inheritedNames {ancestors : List ClassId} {name : String} :
    name ∈ l.inheritedNames ancestors ↔ (name = "extensions" ∨ name = "extras") ∨
      ∃ above ∈ ancestors, name ∈ ((l.drafts[above]?).map (·.body.declared)).getD [] := by
  rw [inheritedNames, Ordered.mem_union, List.mem_flatMap, impliedProperties, List.mem_cons,
    List.mem_singleton]

theorem mem_inheritedNames_cons {ancestors : List ClassId} {name : String} :
    name ∈ l.inheritedNames (base :: ancestors) ↔ name ∈ l.inheritedNames ancestors ∨
      name ∈ ((l.drafts[base]?).map (·.body.declared)).getD [] := by
  simp only [mem_inheritedNames, List.mem_cons, exists_eq_or_imp]
  rw [or_left_comm, or_comm]

end Linking

namespace Draft.Orderly

variable {draft : Draft} {id : ClassId} {c : ClassDescriptor} {object : ObjectClass}
  {name : String}

theorem object_inv (orderly : draft.Orderly []) (hpending : draft.pending = [])
    (hc : draft.linking.table.get? id = some c) (hobject : c.object? = some object) :
    ∃ place drafted base members, draft.places[id]? = some place ∧
      draft.linking.drafts[id]? = some drafted ∧
      drafted.body = .object base place.document.propertyNames members ∧
      c = draft.linking.classOf id drafted ∧
      object = draft.linking.object id drafted.typeName members ∧
      (members.map (·.name)).Sublist place.document.propertyNames := by
  obtain ⟨place, drafted, hplace, hdrafted, hclass, rfl⟩ := orderly.class_inv hpending hc
  obtain ⟨base, declared, members, hbody, rfl⟩ := Linking.object?_classOf.mp hobject
  obtain ⟨rfl, -⟩ := hclass.object_inv hbody
  exact ⟨place, drafted, base, members, hplace, hdrafted, hbody, rfl, rfl,
    hclass.names_sublist hbody⟩

/-- The names that linking takes an object to declare are those that its schema declares. -/
theorem mem_declared_iff (orderly : draft.Orderly []) (hpending : draft.pending = [])
    (hobject : draft.linking.isObject id = true) :
    name ∈ ((draft.linking.drafts[id]?).map (·.body.declared)).getD [] ↔
      draft.Declares id name := by
  obtain ⟨c, object, hc, hobject⟩ := Linking.object_of_isObject hobject
  obtain ⟨place, drafted, _, _, hplace, hdrafted, hbody, -, -, -⟩ :=
    orderly.object_inv hpending hc hobject
  rw [hdrafted, Option.map_some, Option.getD_some, hbody]
  constructor
  · exact fun hname => ⟨place, hplace, hname⟩
  · rintro ⟨other, hother, hname⟩
    obtain rfl := Option.some.inj (hplace.symm.trans hother)
    exact hname

theorem mem_inheritedNames_iff (orderly : draft.Orderly []) (hpending : draft.pending = []) :
    name ∈ draft.linking.inheritedNames (draft.linking.ancestors id) ↔
      (name = "extensions" ∨ name = "extras") ∨
        draft.DeclaresAbove draft.linking.table id name := by
  rw [Linking.mem_inheritedNames]
  refine or_congr_right (exists_congr fun above => ?_)
  constructor
  · rintro ⟨habove, hname⟩
    have hobject := Linking.isObject_of_mem_ancestors habove
    obtain ⟨hne, hup⟩ := Linking.mem_ancestors_iff.mp habove
    exact ⟨hne, hup, (orderly.mem_declared_iff hpending hobject).mp hname⟩
  · rintro ⟨hne, hup, hname⟩
    have habove := Linking.mem_ancestors_iff.mpr ⟨hne, hup⟩
    have hobject := Linking.isObject_of_mem_ancestors habove
    exact ⟨habove, (orderly.mem_declared_iff hpending hobject).mpr hname⟩

theorem properties_inv (orderly : draft.Orderly []) (hpending : draft.pending = [])
    (hc : draft.linking.table.get? id = some c) (hobject : c.object? = some object) :
    (∃ place, draft.places[id]? = some place ∧
      (object.properties.map (·.name)).Sublist place.document.propertyNames) ∧
    ∀ name ∈ object.properties.map (·.name),
      (name ≠ "extensions" ∧ name ≠ "extras") ∧
        ¬draft.DeclaresAbove draft.linking.table id name := by
  obtain ⟨place, drafted, base, members, hplace, -, -, -, rfl, hsublist⟩ :=
    orderly.object_inv hpending hc hobject
  refine ⟨⟨place, hplace, (List.filter_sublist.map _).trans hsublist⟩, fun name hname => ?_⟩
  obtain ⟨p, hp, rfl⟩ := List.mem_map.mp hname
  have hfresh := (List.mem_filter.mp hp).2
  rw [decide_eq_true_iff, orderly.mem_inheritedNames_iff hpending, not_or, not_or] at hfresh
  exact hfresh

theorem declares_of_owns (orderly : draft.Orderly []) (hpending : draft.pending = [])
    (howns : draft.linking.table.Owns id name) : draft.Declares id name := by
  obtain ⟨c, object, hc, hobject, hname⟩ := howns
  obtain ⟨⟨place, hplace, hsublist⟩, -⟩ := orderly.properties_inv hpending hc hobject
  exact ⟨place, hplace, hsublist.mem hname⟩

/-- No two classes of a line have the same property. -/
theorem owns_unique (orderly : draft.Orderly []) (hpending : draft.pending = []) {x y : ClassId}
    (hx : draft.linking.table.AtOrAbove id x) (hy : draft.linking.table.AtOrAbove id y)
    (hfirst : draft.linking.table.Owns x name) (hsecond : draft.linking.table.Owns y name) :
    x = y := by
  wlog h : draft.linking.table.AtOrAbove x y generalizing x y
  · have hback := (hx.total_of_right_unique (ClassTable.hasBase_rightUnique _) hy).resolve_left h
    exact (this hy hx hsecond hfirst hback).symm
  by_contra hne
  obtain ⟨c, object, hc, hobject, hname⟩ := hfirst
  obtain ⟨-, hfresh⟩ := orderly.properties_inv hpending hc hobject
  exact (hfresh name hname).2
    ⟨y, Ne.symm hne, h, orderly.declares_of_owns hpending hsecond⟩

/-- What an object has from above, when going up comes to an end, is what its base has from above
and what its base declares. -/
theorem base_inv (orderly : draft.Orderly []) (hpending : draft.pending = [])
    (hc : draft.linking.table.get? id = some c) (hobject : c.object? = some object)
    (noCircle : ¬draft.linking.table.Circles id) {b : ClassId} (hbase : object.base = some b) :
    ∃ base above, draft.linking.table.get? b = some base ∧ base.object? = some above ∧
      (∀ name, name ∈ object.inheritedNames ↔
        name ∈ above.inheritedNames ∨ draft.Declares b name) ∧
      object.bases.model.chain = base.qualifiedName :: above.bases.model.chain ∧
      object.bases.reader.chain = base.handler :: above.bases.reader.chain := by
  have hancestors := Linking.ancestors_of_hasBase ⟨c, object, hc, hobject, hbase⟩ noCircle
  have hb : draft.linking.isObject b = true :=
    Linking.isObject_of_mem_ancestors (hancestors ▸ List.mem_cons_self)
  obtain ⟨_, drafted, _, members, -, -, -, rfl, rfl, -⟩ :=
    orderly.object_inv hpending hc hobject
  obtain ⟨base, above, hbase, habove⟩ := Linking.object_of_isObject hb
  obtain ⟨_, drafted', _, members', -, hdrafted', -, rfl, rfl, -⟩ :=
    orderly.object_inv hpending hbase habove
  have hname : draft.linking.typeNameAt b = drafted'.typeName := by
    rw [Linking.typeNameAt, hdrafted', Option.map_some, Option.getD_some]
  have hbases : (draft.linking.object id drafted.typeName members).bases =
      draft.linking.basesFrom (b :: draft.linking.ancestors b) :=
    congrArg draft.linking.basesFrom hancestors
  refine ⟨_, _, hbase, habove, fun name => ?_, ?_, ?_⟩
  · change name ∈ draft.linking.inheritedNames (draft.linking.ancestors id) ↔
      name ∈ draft.linking.inheritedNames (draft.linking.ancestors b) ∨ _
    rw [hancestors, Linking.mem_inheritedNames_cons, orderly.mem_declared_iff hpending hb]
  · rw [hbases, Linking.basesFrom, hname]
    rfl
  · rw [hbases, Linking.basesFrom, hname]
    rfl

end Draft.Orderly

/-- Inheritance is coherent in every table that is linked after calls on a new draft. -/
theorem Drafting.inheritance_coherent {catalog : Catalog} {settings : Settings} {naming : Naming}
    {ids : List ClassId} {depth : Nat} {draft after : Draft} {table : ClassTable}
    (h : Called (.new catalog settings naming) ids draft)
    (hfinish : finish depth draft = some (table, after)) {id : ClassId} {c : ClassDescriptor}
    {object : ObjectClass} (hc : table.get? id = some c) (hobject : c.object? = some object) :
    (∀ name ∈ object.properties.map (·.name),
      (name ≠ "extensions" ∧ name ≠ "extras") ∧ ¬after.DeclaresAbove table id name) ∧
    (∀ name x y, table.AtOrAbove id x → table.AtOrAbove id y → table.Owns x name →
      table.Owns y name → x = y) ∧
    (∃ place, after.places[id]? = some place ∧
      (object.properties.map (·.name)).Sublist place.document.propertyNames) ∧
    (∀ name, name ∈ object.inheritedNames ↔
      (name = "extensions" ∨ name = "extras") ∨ after.DeclaresAbove table id name) ∧
    (object.base = none → object.bases.model.chain = ["CesiumUtility::ExtensibleObject"] ∧
      object.bases.reader.chain = ["CesiumJsonReader::ExtensibleObjectJsonHandler"]) ∧
    (¬table.Circles id → ∀ b, object.base = some b →
      ∃ base above, table.get? b = some base ∧ base.object? = some above ∧
        (∀ name, name ∈ object.inheritedNames ↔
          name ∈ above.inheritedNames ∨ after.Declares b name) ∧
        object.bases.model.chain = base.qualifiedName :: above.bases.model.chain ∧
        object.bases.reader.chain = base.handler :: above.bases.reader.chain) := by
  have completes := h.completes (Draft.new_orderly catalog settings naming) rfl
  have orderly := completes.steps.orderly (Draft.new_orderly catalog settings naming)
  have hpending := completes.pending
  obtain ⟨rfl, hplaces⟩ := (orderly.complete hpending).finish_inv hfinish
  have hdeclares (id : ClassId) (name : String) :
      after.Declares id name ↔ draft.Declares id name := by
    rw [Draft.Declares, Draft.Declares, hplaces]
  have habove (id : ClassId) (name : String) :
      after.DeclaresAbove draft.linking.table id name ↔
        draft.DeclaresAbove draft.linking.table id name := by
    simp only [Draft.DeclaresAbove, hdeclares]
  obtain ⟨hsublist, hfresh⟩ := orderly.properties_inv hpending hc hobject
  simp only [hdeclares, habove, hplaces]
  refine ⟨hfresh, fun name x y => orderly.owns_unique hpending, hsublist, fun name => ?_, ?_,
    fun noCircle b => orderly.base_inv hpending hc hobject noCircle⟩
  · obtain ⟨_, _, _, _, -, -, -, -, rfl, -⟩ := orderly.object_inv hpending hc hobject
    exact orderly.mem_inheritedNames_iff hpending
  · obtain ⟨_, drafted, _, members, -, -, -, -, rfl, -⟩ := orderly.object_inv hpending hc hobject
    intro hnone
    have hancestors : draft.linking.ancestors id = [] := List.head?_eq_none_iff.mp hnone
    have hbases : (draft.linking.object id drafted.typeName members).bases = Bases.root :=
      congrArg draft.linking.basesFrom hancestors
    rw [hbases]
    exact ⟨rfl, rfl⟩

theorem ClassTable.not_circles {table : ClassTable}
    (h : ∀ id base above, table.HasBase id base → ¬table.HasBase base above) (id : ClassId) :
    ¬table.Circles id := by
  rintro ⟨x, -, hround⟩
  obtain ⟨above, habove, -⟩ := Relation.TransGen.head'_iff.mp hround
  obtain ⟨below, -, hbelow⟩ := Relation.TransGen.tail'_iff.mp hround
  exact h below x above hbelow habove

/-- A class that derives from another has its names and its bases from there. -/
theorem Drafting.inheritance_coherent_base :
    ∃ draft table after c object base above,
      Called (.new (.new (.numberOver (.withProperty "q" .number)) ["/s"] []) .empty
        (.ofNamespace "N")) [0] draft ∧
      finish 8 draft = some (table, after) ∧ table.get? 0 = some c ∧ c.object? = some object ∧
      object.base = some 1 ∧ table.get? 1 = some base ∧ base.object? = some above ∧
      (∀ name, name ∈ object.inheritedNames ↔
        name ∈ above.inheritedNames ∨ after.Declares 1 name) ∧
      object.bases.model.chain = base.qualifiedName :: above.bases.model.chain := by
  let start : Draft := .new (.new (.numberOver (.withProperty "q" .number)) ["/s"] []) .empty
    (.ofNamespace "N")
  have hresolve : (resolve 8 "c" start : Option _).map (·.1) = some (some 0) := by decide +kernel
  have hfinish : ((resolve 8 "c" start : Option _).bind fun resolved => (finish 8 resolved.2).map
      fun finished => finished.1.map fun c => c.object?.map (·.base)) =
      some [some (some 1), some none] := by
    decide +kernel
  obtain ⟨⟨found, draft⟩, hcall, rfl⟩ := Option.map_eq_some_iff.mp hresolve
  rw [hcall, Option.bind_some] at hfinish
  obtain ⟨⟨table, after⟩, hlinked, htable⟩ := Option.map_eq_some_iff.mp hfinish
  have hbases {id : ClassId} {c : ClassDescriptor} {object : ObjectClass}
      (hc : table.get? id = some c) (hobject : c.object? = some object) :
      [some (some 1), some none][id]? = some (some object.base) := by
    have hget : table[id]? = some c := hc
    rw [← htable, List.getElem?_map, hget, Option.map_some, hobject, Option.map_some]
  have noCircle : ¬table.Circles 0 := by
    refine ClassTable.not_circles (fun id base above hlow hhigh => ?_) 0
    obtain ⟨c, object, hc, hobject, hbase⟩ := hlow
    obtain ⟨c', object', hc', hobject', hbase'⟩ := hhigh
    have hfirst := hbase ▸ hbases hc hobject
    have hsecond := hbase' ▸ hbases hc' hobject'
    match id, hfirst with
    | 0, hfirst =>
      obtain rfl : 1 = base := by simpa using hfirst
      simp at hsecond
    | 1, hfirst => simp at hfirst
    | _ + 2, hfirst => simp at hfirst
  have hfirst : (table.map fun c => c.object?.map (·.base))[0]? = some (some (some 1)) := by
    rw [htable, List.getElem?_cons_zero]
  rw [List.getElem?_map] at hfirst
  obtain ⟨c, hc, hobject⟩ := Option.map_eq_some_iff.mp hfirst
  obtain ⟨object, hobject, hbase⟩ := Option.map_eq_some_iff.mp hobject
  obtain ⟨-, -, -, -, -, hinherits⟩ :=
    inheritance_coherent (Called.none.resolve hcall) hlinked hc hobject
  obtain ⟨base, above, hget, habove, hnames, hmodel, -⟩ := hinherits noCircle 1 hbase
  exact ⟨draft, table, after, c, object, base, above, .resolve .none hcall, hlinked, hc, hobject,
    hbase, hget, habove, hnames, hmodel⟩

end SchemaClasses
