import SchemaClasses.Proofs.ClassTable.Inheritance

/-!
# References of the own properties

Linking takes the references of a class from all properties that were drafted for it, and only then
leaves out the properties that the classes above declare. So a class may refer to classes that only
such a property leads to. Its references are those of its base and its own properties just when each
reference that goes with a property left out is made at the same place by one that stays.
-/

namespace SchemaClasses

namespace Ordered

section Lists

variable {α : Type}

/-- What comes next in a list is a member that has nothing ahead of it but what came before. -/
theorem prefix_snoc {members whole ahead rest : List α} {x : α} (hpre : members <+: whole)
    (hx : x ∉ members) (nodup : whole.Nodup) (hwhole : whole = ahead ++ x :: rest)
    (hahead : ahead ⊆ members) : members ++ [x] <+: whole := by
  obtain ⟨later, hlater⟩ := hpre
  rcases List.append_eq_append_iff.mp (hlater.trans hwhole) with
    ⟨between, rfl, rfl⟩ | ⟨between, rfl, hrest⟩
  · cases between with
    | nil => exact ⟨rest, by rw [← hlater, List.append_assoc]; rfl⟩
    | cons y between =>
      rw [← hlater] at nodup
      have hy : y ∈ members := hahead (List.mem_append_right _ List.mem_cons_self)
      exact absurd rfl ((List.nodup_append.mp nodup).2.2 y hy y List.mem_cons_self)
  · cases between with
    | nil =>
      obtain rfl : later = x :: rest := hrest.symm
      exact ⟨rest, by rw [← hlater, List.append_assoc]; rfl⟩
    | cons y between =>
      obtain ⟨rfl, -⟩ := List.cons.inj hrest
      exact absurd (List.mem_append_right _ List.mem_cons_self) hx

def kept (marks : List (α × Bool)) : List α := (marks.filter (·.2)).map (·.1)

theorem kept_append (xs ys : List (α × Bool)) : kept (xs ++ ys) = kept xs ++ kept ys := by
  rw [kept, List.filter_append, List.map_append, kept, kept]

theorem kept_map (xs : List α) (mark : Bool) :
    kept (xs.map fun x => (x, mark)) = if mark then xs else [] := by
  cases mark <;> simp [kept, List.filter_map, Function.comp_def]

theorem kept_subset (marks : List (α × Bool)) : kept marks ⊆ marks.map (·.1) :=
  List.map_subset _ List.filter_sublist.subset

end Lists

variable {α : Type} [DecidableEq α]

theorem union_insert (members acc : List α) (x : α) :
    union members (insert acc x) = insert (union members acc) x := by
  by_cases hx : x ∈ acc
  · rw [insert, if_pos hx, insert, if_pos (mem_union.mpr (.inr hx))]
  · rw [insert, if_neg hx, union, List.foldl_append, List.foldl_cons, List.foldl_nil, union]

theorem union_union (members acc new : List α) :
    union members (union acc new) = union (union members acc) new := by
  induction new generalizing acc with
  | nil => rfl
  | cons x new ih =>
    change union members (union (insert acc x) new) = union (insert (union members acc) x) new
    rw [ih, union_insert]

theorem union_ofList (members new : List α) : union members (ofList new) = union members new :=
  union_union members [] new

theorem ofList_append (xs ys : List α) : ofList (xs ++ ys) = union (ofList xs) ys := by
  rw [ofList, union, List.foldl_append]
  rfl

theorem prefix_insert (members : List α) (x : α) : members <+: insert members x := by
  unfold insert
  split
  · exact List.prefix_refl members
  · exact List.prefix_append members [x]

theorem prefix_union (members new : List α) : members <+: union members new := by
  induction new generalizing members with
  | nil => exact List.prefix_refl members
  | cons x new ih => exact (prefix_insert members x).trans (ih (insert members x))

theorem ofList_at (xs : List α) (x : α) (ys : List α) :
    ∃ ahead rest, ofList (xs ++ x :: ys) = ahead ++ x :: rest ∧ ahead ⊆ xs := by
  have hpre : insert (ofList xs) x <+: ofList (xs ++ x :: ys) :=
    ofList_append xs (x :: ys) ▸ prefix_union (insert (ofList xs) x) ys
  obtain ⟨later, hlater⟩ := hpre
  by_cases hx : x ∈ ofList xs
  · obtain ⟨ahead, rest, hsplit⟩ := List.append_of_mem hx
    refine ⟨ahead, rest ++ later, ?_, fun y hy => mem_ofList.mp ?_⟩
    · rw [← hlater, insert, if_pos hx, hsplit, List.append_assoc, List.cons_append]
    · exact hsplit ▸ List.mem_append_left _ hy
  · refine ⟨ofList xs, later, ?_, fun y hy => mem_ofList.mp hy⟩
    rw [← hlater, insert, if_neg hx, List.append_assoc, List.singleton_append]

/-- An entry that is not marked is a member that the marked ones make as well, and everything that
they put ahead of it has come before it. -/
def Superfluous (marks : List (α × Bool)) : Prop :=
  ∀ before x later, marks = before ++ (x, false) :: later →
    ∃ ahead rest, ofList (kept marks) = ahead ++ x :: rest ∧ ahead ⊆ before.map (·.1)

/-- Leaving out the entries that are not marked changes nothing when they are superfluous. -/
theorem ofList_kept_iff {marks : List (α × Bool)} :
    ofList (marks.map (·.1)) = ofList (kept marks) ↔ Superfluous marks := by
  constructor
  · intro heq before x later hmarks
    rw [← heq, hmarks, List.map_append, List.map_cons]
    exact ofList_at (before.map (·.1)) x (later.map (·.1))
  · intro superfluous
    have nodup := nodup_ofList (kept marks)
    have hpre (before later : List (α × Bool)) (hmarks : marks = before ++ later) :
        ofList (before.map (·.1)) <+: ofList (kept marks) := by
      induction before using List.reverseRecOn generalizing later with
      | nil => exact List.nil_prefix
      | append_singleton before entry ih =>
        rw [List.append_assoc, List.singleton_append] at hmarks
        have hbefore := ih (entry :: later) hmarks
        rw [List.map_append, ofList_append]
        change insert (ofList (before.map (·.1))) entry.1 <+: _
        by_cases hx : entry.1 ∈ ofList (before.map (·.1))
        · rwa [insert, if_pos hx]
        · rw [insert, if_neg hx]
          obtain ⟨ahead, rest, hwhole, hahead⟩ : ∃ ahead rest,
              ofList (kept marks) = ahead ++ entry.1 :: rest ∧ ahead ⊆ before.map (·.1) := by
            obtain ⟨x, mark⟩ := entry
            cases mark with
            | false => exact superfluous before x later hmarks
            | true =>
              obtain ⟨ahead, rest, hwhole, hahead⟩ := ofList_at (kept before) x (kept later)
              refine ⟨ahead, rest, ?_, fun y hy => kept_subset before (hahead hy)⟩
              rw [hmarks, kept_append]
              exact hwhole
          exact prefix_snoc hbefore hx nodup hwhole fun y hy => mem_ofList.mpr (hahead hy)
    obtain ⟨more, hmore⟩ := hpre marks [] (List.append_nil marks).symm
    cases more with
    | nil => rw [← hmore, List.append_nil]
    | cons y more =>
      rw [← hmore] at nodup
      have hy : y ∈ ofList (kept marks) :=
        hmore ▸ List.mem_append_right _ List.mem_cons_self
      have hfirst : y ∈ ofList (marks.map (·.1)) :=
        mem_ofList.mpr (kept_subset marks (mem_ofList.mp hy))
      exact absurd rfl ((List.nodup_append.mp nodup).2.2 y hfirst y List.mem_cons_self)

end Ordered

def ObjectClass.ownReferences (object : ObjectClass) : List ClassId :=
  Ordered.ofList (object.base.toList ++ object.properties.flatMap (·.type.classes))

/-- What a class refers to by the base its schema names and by its drafted properties, marked where
it is by its base or by a property of its own. -/
def Linking.marks (l : Linking) (id : ClassId) (drafted : DraftClass) (members : List Property) :
    List (ClassId × Bool) :=
  (l.baseOf drafted).toList.map (fun base => (base, decide (base ≠ id))) ++
    members.flatMap fun p => p.type.classes.map fun d =>
      (d, decide (p.name ∉ l.inheritedNames (l.ancestors id)))

namespace Linking

variable {l : Linking} {id : ClassId} {drafted : DraftClass} {members : List Property}

theorem map_fst_marks : (l.marks id drafted members).map (·.1) =
    (l.baseOf drafted).toList ++ members.flatMap (·.type.classes) := by
  rw [marks, List.map_append, List.map_map, List.map_flatMap]
  simp only [List.map_map, Function.comp_def, List.map_id']

theorem base_object (h : l.drafts[id]? = some drafted) :
    (l.object id drafted.typeName members).base = (l.baseOf drafted).filter (· ≠ id) := by
  have hat : l.baseAt id = l.baseOf drafted := by rw [baseAt, h, Option.bind_some]
  rw [← hat, ← ancestors_head?]
  rfl

theorem kept_marks (h : l.drafts[id]? = some drafted) :
    Ordered.kept (l.marks id drafted members) =
      (l.object id drafted.typeName members).base.toList ++
        (l.object id drafted.typeName members).properties.flatMap (·.type.classes) := by
  rw [marks, Ordered.kept_append, base_object h]
  congr 1
  · cases l.baseOf drafted with
    | none => rfl
    | some base => by_cases hne : base = id <;> simp [Ordered.kept, Option.filter, hne]
  · change _ = (members.filter (·.name ∉ l.inheritedNames (l.ancestors id))).flatMap _
    clear h
    induction members with
    | nil => rfl
    | cons p members ih =>
      rw [List.flatMap_cons, Ordered.kept_append, Ordered.kept_map, ih]
      by_cases hp : p.name ∈ l.inheritedNames (l.ancestors id) <;> simp [hp]

theorem references_eq_marks (h : l.drafts[id]? = some drafted) {base : Option ClassId}
    {declared : List String} (hbody : drafted.body = .object base declared members) :
    (l.classOf id drafted).references =
      Ordered.ofList ((l.marks id drafted members).map (·.1)) := by
  have htypes : drafted.body.types.flatMap (·.classes) = members.flatMap (·.type.classes) := by
    rw [hbody, DraftBody.types, List.flatMap_map]
  have hbase : Ordered.ofList (l.baseOf drafted).toList = (l.baseOf drafted).toList := by
    cases l.baseOf drafted <;> rfl
  rw [references_classOf h, propertyReferencesOf, htypes, Ordered.union_ofList, map_fst_marks,
    Ordered.ofList_append, hbase]

end Linking

theorem Draft.classAt?_of_object {draft : Draft} {id : ClassId} {drafted : DraftClass}
    {base : Option ClassId} {declared : List String} {members : List Property}
    (h : draft.linking.drafts[id]? = some drafted)
    (hbody : drafted.body = .object base declared members) : draft.classAt? id = some drafted := by
  rw [linking, List.getElem?_map] at h
  obtain ⟨place, hplace, hfinished⟩ := Option.map_eq_some_iff.mp h
  rw [classAt?, hplace, Option.bind_some]
  cases hfilled : place.drafted with
  | none =>
    rw [← hfinished, Place.finished, hfilled] at hbody
    cases hbody
  | some own => rw [← hfinished, Place.finished, hfilled, Option.getD_some]

namespace Drafting

variable {depth : Nat} {draft after : Draft} {table : ClassTable} {id : ClassId}
  {c : ClassDescriptor} {object : ObjectClass}

/-- A class refers to the base its schema names and to what all its drafted properties refer to.
That is what its base and its own properties refer to exactly when the references of the properties
that it has from above, and of a base that is the class itself, are superfluous. -/
theorem references_eq_own_iff (h : finish depth draft = some (table, after))
    (hc : table.get? id = some c) (hobject : c.object? = some object) :
    ∃ drafted base declared members, after.classAt? id = some drafted ∧
      drafted.body = .object base declared members ∧
      object.base = (after.linking.baseOf drafted).filter (· ≠ id) ∧
      object.properties = members.filter (·.name ∉ object.inheritedNames) ∧
      c.references = Ordered.ofList
        ((after.linking.baseOf drafted).toList ++ members.flatMap (·.type.classes)) ∧
      (c.references = object.ownReferences ↔
        Ordered.Superfluous (after.linking.marks id drafted members)) := by
  obtain ⟨drained, -, rfl, htell⟩ := finish_inv h
  obtain rfl := tell_inv htell
  rw [Linking.table_get?] at hc
  obtain ⟨drafted, hdrafted, rfl⟩ := Option.map_eq_some_iff.mp hc
  obtain ⟨base, declared, members, hbody, rfl⟩ := Linking.object?_classOf.mp hobject
  have hreferences := Linking.references_eq_marks hdrafted hbody
  refine ⟨drafted, base, declared, members, drained.classAt?_of_object hdrafted hbody, hbody,
    Linking.base_object hdrafted, rfl, ?_, ?_⟩
  · rw [hreferences, Linking.map_fst_marks]
    rfl
  · rw [hreferences, ObjectClass.ownReferences, ← Linking.kept_marks hdrafted]
    exact Ordered.ofList_kept_iff

/-- The references of the first class of a table, its own properties, and what its base and those
refer to, with its closure. -/
def firstReferences (table : ClassTable) :
    Option (List ClassId × List String × List ClassId × List ClassId) :=
  (table.get? 0).bind fun c => c.object?.map fun object =>
    (c.references, object.properties.map (·.name), object.ownReferences, c.refClosure)

/-- A table whose first class has been computed. -/
theorem exists_firstReferences (schemas : List (String × Json)) (references : List ClassId)
    (names : List String) (own closure : List ClassId)
    (h : ((resolve 8 "c" (.onSchemas schemas) : Option _).bind fun resolved =>
      (finish 8 resolved.2).map (firstReferences ·.1)) =
        some (some (references, names, own, closure))) :
    ∃ ids draft table after c object, Called (.onSchemas schemas) ids draft ∧
      finish 8 draft = some (table, after) ∧ table.get? 0 = some c ∧ c.object? = some object ∧
      c.references = references ∧ object.properties.map (·.name) = names ∧
      object.ownReferences = own ∧ c.refClosure = closure := by
  obtain ⟨ids, draft, table, after, hcalled, hfinish, hfirst⟩ := exists_finish _ _ _ h
  obtain ⟨c, hc, hfirst⟩ := Option.bind_eq_some_iff.mp hfirst
  obtain ⟨object, hobject, hfirst⟩ := Option.map_eq_some_iff.mp hfirst
  simp only [Prod.mk.injEq] at hfirst
  obtain ⟨hreferences, hnames, hown, hclosure⟩ := hfirst
  exact ⟨ids, draft, table, after, c, object, hcalled, hfinish, hc, hobject, hreferences, hnames,
    hown, hclosure⟩

/-- A property that the base declares too leads to a class that nothing else of the class leads to,
and that class comes before it. -/
theorem references_by_inherited :
    let schemas : List (String × Json) :=
      [("c", .derivedFrom "b" "x" (.referringTo "d")), ("b", .withProperty "x" .number),
        ("d", .withProperty "y" .number)]
    ∃ ids draft table after c object, Called (.onSchemas schemas) ids draft ∧
      finish 8 draft = some (table, after) ∧ table.get? 0 = some c ∧ c.object? = some object ∧
      c.references = [1, 2] ∧ object.properties = [] ∧ object.ownReferences = [1] ∧
      c.refClosure = [2, 1, 0] := by
  intro schemas
  obtain ⟨ids, draft, table, after, c, object, hcalled, hfinish, hc, hobject, hreferences, hnames,
    hown, hclosure⟩ := exists_firstReferences schemas [1, 2] [] [1] [2, 1, 0] (by decide +kernel)
  exact ⟨ids, draft, table, after, c, object, hcalled, hfinish, hc, hobject, hreferences,
    List.map_eq_nil_iff.mp hnames, hown, hclosure⟩

/-- A property that the base declares too refers to the same class as the next property, so its
reference is superfluous. -/
theorem references_eq_own_iff_next :
    let schemas : List (String × Json) :=
      [("c", .obj [("type", .str "object"), ("allOf", .arr [.referringTo "b"]),
        ("properties", .obj [("x", .referringTo "d"), ("z", .referringTo "d")])]),
        ("b", .withProperty "x" .number), ("d", .withProperty "y" .number)]
    ∃ ids draft table after c object drafted base declared members,
      Called (.onSchemas schemas) ids draft ∧ finish 8 draft = some (table, after) ∧
      table.get? 0 = some c ∧ c.object? = some object ∧ object.properties.map (·.name) = ["z"] ∧
      drafted.body = .object base declared members ∧ c.references = [1, 2] ∧
      Ordered.Superfluous (after.linking.marks 0 drafted members) := by
  intro schemas
  obtain ⟨ids, draft, table, after, c, object, hcalled, hfinish, hc, hobject, hreferences, hnames,
    hown, -⟩ := exists_firstReferences schemas [1, 2] ["z"] [1, 2] [2, 1, 0] (by decide +kernel)
  obtain ⟨drafted, base, declared, members, -, hbody, -, -, -, hiff⟩ :=
    references_eq_own_iff hfinish hc hobject
  exact ⟨ids, draft, table, after, c, object, drafted, base, declared, members, hcalled, hfinish,
    hc, hobject, hnames, hbody, hreferences, hiff.mp (hreferences.trans hown.symm)⟩

end Drafting

end SchemaClasses
