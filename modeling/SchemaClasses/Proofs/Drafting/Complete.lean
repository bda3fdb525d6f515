import SchemaClasses.Proofs.ClassTable.InRange
import SchemaClasses.Proofs.Drafting.Calls

/-!
# Between calls

A resolver is used by calls that resolve a reference or extensions, and between them its catalog may
be asked for documents, given documents, and told what references are relative to. Whenever no call
is under way the draft is complete: every place is filled, keys and places belong to each other, and
no class is out of range. So the class table can be linked at any such time without looking at a
place that is empty or not there.
-/

namespace SchemaClasses

namespace Drafting

/-- The drafts that calls one after another lead to from a first one, with the classes that the
calls have given out. -/
inductive Called (first : Draft) : List ClassId → Draft → Prop
  | none : Called first [] first
  | resolve {ids draft depth reference found after} : Called first ids draft →
      resolve depth reference draft = some (found, after) →
      Called first (ids ++ found.toList) after
  | resolveExtension {ids draft depth document names found after} : Called first ids draft →
      resolveExtension depth document names draft = some (found, after) →
      Called first (ids ++ found.toList) after
  | graft {ids draft depth extensions grafted after} : Called first ids draft →
      graft depth extensions draft = some (grafted, after) →
      Called first (ids ++ grafted.classes) after
  | load {ids draft reference found after} : Called first ids draft →
      load reference draft = some (found, after) → Called first ids after
  | loadExtension {ids draft reference hint found after} : Called first ids draft →
      onCatalog (·.loadExtension reference hint) draft = some (found, after) →
      Called first ids after
  | insert {ids draft document known after} : Called first ids draft →
      insert document draft = some (known, after) → Called first ids after
  | enter {ids draft} (document : Document) : Called first ids draft →
      Called first ids { draft with catalog := draft.catalog.enter document }
  | leave {ids draft} : Called first ids draft →
      Called first ids { draft with catalog := draft.catalog.leave }

/-- Calls on an orderly draft with nothing pending take it to another such. -/
theorem Called.completes {first draft : Draft} {ids : List ClassId} (h : Called first ids draft)
    (orderly : first.Orderly []) (hpending : first.pending = []) :
    Completes .any first ids draft := by
  induction h with
  | none => exact .refl hpending
  | resolve _ hcall ih =>
    exact ih.trans (resolve_completes (ih.steps.orderly orderly) ih.pending hcall)
  | resolveExtension _ hcall ih =>
    exact ih.trans (resolveExtension_completes ih.pending (.inl trivial) trivial hcall)
  | graft _ hcall ih =>
    exact ih.trans (graft_completes ih.pending (fun _ _ _ _ _ _ _ _ _ _ => trivial) hcall)
  | load _ hload ih => exact ih.looks (load_looks hload)
  | @loadExtension _ draft reference hint _ _ _ hload ih =>
    obtain ⟨-, rfl⟩ := onCatalog_inv hload
    exact ih.looks (.move (.loadExtension reference hint))
  | insert _ hinsert ih =>
    obtain ⟨-, rfl⟩ := insert_inv hinsert
    exact ih.looks (.move (.insert _ trivial))
  | enter document _ ih => exact ⟨ih.steps.tail (.enter document), ih.pending, ih.holds⟩
  | leave _ ih => exact ⟨ih.steps.tail .leave, ih.pending, ih.holds⟩

theorem finish_inv {depth : Nat} {draft after : Draft} {table : ClassTable}
    (h : finish depth draft = some (table, after)) :
    ∃ drained, drain depth draft = some ((), drained) ∧ table = drained.linking.table ∧
      tell (drained.linking.warnings.map .warning) drained = some ((), after) := by
  unfold finish at h
  obtain ⟨_, drained, hdrain, h⟩ := bind_inv h
  rw [get_bind] at h
  obtain ⟨_, told, htell, h⟩ := bind_inv h
  obtain ⟨rfl, rfl⟩ := pure_inv h
  exact ⟨drained, hdrain, rfl, htell⟩

end Drafting

namespace Draft

/-- Nothing is pending and every place is filled; every key has one place, and the classes that
have been resolved or that a drafted class names have places. -/
structure Complete (draft : Draft) : Prop where
  pending : draft.pending = []
  filled : ∀ place ∈ draft.places, ∃ drafted, place.drafted = some drafted
  distinct : draft.keys.Nodup
  idOf? : ∀ key id, draft.idOf? key = some id ↔ draft.keys[id]? = some key
  resolved : ∀ entry ∈ draft.resolved, entry.2 < draft.places.length
  named : ∀ place ∈ draft.places, ∀ drafted, place.drafted = some drafted →
    ∀ id ∈ drafted.body.ids, id < draft.places.length

variable {draft : Draft}

theorem Orderly.complete (orderly : draft.Orderly []) (hpending : draft.pending = []) :
    draft.Complete where
  pending := hpending
  filled := by
    intro place hplace
    obtain ⟨id, hid⟩ := List.mem_iff_getElem?.mp hplace
    cases hdrafted : place.drafted with
    | some drafted => exact ⟨drafted, rfl⟩
    | none =>
      have hopen : draft.IsOpen id := by rw [IsOpen, hid, Option.map_some, hdrafted]
      have hmem := (orderly.pending id).mpr ⟨hopen, List.not_mem_nil⟩
      rw [hpending] at hmem
      exact absurd hmem List.not_mem_nil
  distinct := orderly.distinct
  idOf? := by
    intro key id
    rw [idOf?_eq_some_iff orderly.distinct, keys, List.getElem?_map]
    rfl
  resolved := orderly.resolved
  named := fun place hplace drafted hdrafted =>
    (orderly.drafted place hplace drafted hdrafted).ids_lt

theorem Orderly.class_inv (orderly : draft.Orderly []) (hpending : draft.pending = [])
    {id : ClassId} {c : ClassDescriptor} (hc : draft.linking.table.get? id = some c) :
    ∃ place drafted, draft.places[id]? = some place ∧ draft.linking.drafts[id]? = some drafted ∧
      Drafting.Drafted place.document draft drafted ∧ c = draft.linking.classOf id drafted := by
  rw [Linking.table_get?] at hc
  obtain ⟨drafted, hdrafted, rfl⟩ := Option.map_eq_some_iff.mp hc
  obtain ⟨place, hplace, rfl⟩ :
      ∃ place, draft.places[id]? = some place ∧ place.finished = drafted := by
    rwa [linking, List.getElem?_map, Option.map_eq_some_iff] at hdrafted
  have hmem := List.mem_of_getElem? hplace
  obtain ⟨filled, hfilled⟩ := (orderly.complete hpending).filled place hmem
  refine ⟨place, place.finished, hplace, hdrafted, ?_, rfl⟩
  have hfinished : place.finished = filled := by rw [Place.finished, hfilled, Option.getD_some]
  rw [hfinished]
  exact orderly.drafted place hmem filled hfilled

namespace Complete

theorem drafted_of_holds (complete : draft.Complete) {id : ClassId} {key : String}
    (h : draft.Holds id key) :
    ∃ place drafted, draft.places[id]? = some place ∧ place.document.key = key ∧
      place.drafted = some drafted ∧ draft.classAt? id = some drafted := by
  obtain ⟨place, hplace, hkey⟩ := Option.map_eq_some_iff.mp h
  obtain ⟨drafted, hdrafted⟩ := complete.filled place (List.mem_of_getElem? hplace)
  exact ⟨place, drafted, hplace, hkey, hdrafted, by simp [classAt?, hplace, hdrafted]⟩

theorem typeName?_isSome (complete : draft.Complete) {id : ClassId}
    (hid : id < draft.places.length) : (draft.typeName? id).isSome = true := by
  obtain ⟨drafted, hdrafted⟩ := complete.filled _ (List.getElem_mem hid)
  simp [typeName?, classAt?, hid, hdrafted]

theorem linking_drafts (complete : draft.Complete) :
    draft.linking.drafts.map some = draft.places.map (·.drafted) := by
  rw [linking, List.map_map]
  refine List.map_congr_left fun place hplace => ?_
  obtain ⟨drafted, hdrafted⟩ := complete.filled place hplace
  simp [Place.finished, hdrafted]

theorem linking_closed (complete : draft.Complete) : draft.linking.Closed := by
  intro drafted hdrafted id hid
  obtain ⟨place, hplace, rfl⟩ := List.mem_map.mp hdrafted
  obtain ⟨drafted, hdrafted⟩ := complete.filled place hplace
  rw [Place.finished, hdrafted, Option.getD_some] at hid
  rw [linking, List.length_map]
  exact complete.named place hplace drafted hdrafted id hid

theorem finish_eq (complete : draft.Complete) (depth : Nat) :
    Drafting.finish (depth + 1) draft =
      some (draft.linking.table,
        { draft with
          catalog := draft.catalog.tell (draft.linking.warnings.map .warning) }) := by
  have hdrain : Drafting.drain (depth + 1) draft = some ((), draft) := by
    rw [Drafting.drain, Drafting.get_bind, complete.pending]
    rfl
  change (Drafting.drain (depth + 1) draft).bind _ = _
  rw [hdrain]
  rfl

theorem finish_inv (complete : draft.Complete) {depth : Nat} {table : ClassTable} {after : Draft}
    (h : Drafting.finish depth draft = some (table, after)) :
    table = draft.linking.table ∧ after.places = draft.places := by
  cases depth with
  | zero => cases h
  | succ depth =>
    rw [complete.finish_eq depth] at h
    obtain ⟨rfl, rfl⟩ := Prod.mk.inj (Option.some.inj h)
    exact ⟨rfl, rfl⟩

end Complete

end Draft

open Drafting

theorem Drafting.Called.finished {catalog : Catalog} {settings : Settings} {naming : Naming}
    {ids : List ClassId} {depth : Nat} {draft after : Draft} {table : ClassTable}
    (h : Called (.new catalog settings naming) ids draft)
    (hfinish : finish depth draft = some (table, after)) :
    draft.Orderly [] ∧ draft.pending = [] ∧ draft.naming = naming ∧
      table = draft.linking.table ∧ after.places = draft.places := by
  have completes := h.completes (Draft.new_orderly catalog settings naming) rfl
  have orderly := completes.steps.orderly (Draft.new_orderly catalog settings naming)
  exact ⟨orderly, completes.pending, completes.steps.within.naming,
    (orderly.complete completes.pending).finish_inv hfinish⟩

/-- Whatever has been called on a new draft, the draft is complete, every class given out has a
type name, and the class table is linked from drafted classes, within the table. -/
theorem Drafting.complete_of_called {catalog : Catalog} {settings : Settings} {naming : Naming}
    {ids : List ClassId} {draft : Draft} (h : Called (.new catalog settings naming) ids draft) :
    draft.Complete ∧
      (∀ id ∈ ids, (draft.typeName? id).isSome = true) ∧
      draft.linking.drafts.map some = draft.places.map (·.drafted) ∧
      (∀ id < draft.linking.drafts.length, draft.linking.InRange id) ∧
      ∀ depth, ∃ after, finish (depth + 1) draft = some (draft.linking.table, after) := by
  have completes := h.completes (Draft.new_orderly catalog settings naming) rfl
  have orderly := completes.steps.orderly (Draft.new_orderly catalog settings naming)
  have complete := orderly.complete completes.pending
  refine ⟨complete, fun id hid => ?_, complete.linking_drafts,
    fun id hid => complete.linking_closed.inRange hid, fun depth => ⟨_, complete.finish_eq depth⟩⟩
  obtain ⟨key, holds⟩ := completes.holds id hid
  exact complete.typeName?_isSome holds.lt

def FileTree.ofSchemas (schemas : List (String × Json)) : FileTree :=
  ⟨[], (["s"], .directory) ::
    schemas.map fun schema => (["s", schema.1], .file (some schema.2.compact))⟩

def Json.withProperty (name : String) (fragment : Json) : Json :=
  .obj [("type", .str "object"), ("properties", .obj [(name, fragment)])]

def Json.referringTo (reference : String) : Json := .obj [("$ref", .str reference)]

def Json.number : Json := .obj [("type", .str "number")]

def Json.titledObject (title : String) : Json :=
  .obj [("title", .str title), ("type", .str "object")]

def Draft.onSchemas (schemas : List (String × Json)) : Draft :=
  .new (.new (.ofSchemas schemas) ["/s"] []) .empty (.ofNamespace "N")

theorem Drafting.exists_finish {α : Type} (start : Draft) (f : ClassTable × Draft → α) (a : α)
    (h : ((resolve 8 "c" start : Option _).bind fun resolved =>
      (finish 8 resolved.2).map f) = some a) :
    ∃ ids draft table after, Called start ids draft ∧ finish 8 draft = some (table, after) ∧
      f (table, after) = a := by
  obtain ⟨⟨found, draft⟩, hresolve, h⟩ := Option.bind_eq_some_iff.mp h
  obtain ⟨⟨table, after⟩, hfinish, ha⟩ := Option.map_eq_some_iff.mp h
  exact ⟨_, draft, table, after, .resolve .none hresolve, hfinish, ha⟩

/-- Two schemas that refer to each other are drafted by one call on the first. -/
theorem Drafting.complete_of_called_circle :
    let files := FileTree.ofSchemas
      [("a", .withProperty "b" (.referringTo "b")), ("b", .withProperty "a" (.referringTo "a"))]
    ∃ draft, Called (.new (.new files ["/s"] []) .empty (.ofNamespace "N")) [0] draft ∧
      draft.keys = ["/s/a", "/s/b"] ∧ draft.Complete := by
  intro files
  have hrun : (resolve 8 "a" (.new (.new files ["/s"] []) .empty (.ofNamespace "N")) : Option _).map
      (fun result => (result.1, result.2.keys)) =
        some (some 0, ["/s/a", "/s/b"]) := by
    decide +kernel
  obtain ⟨⟨found, draft⟩, hcall, heq⟩ := Option.map_eq_some_iff.mp hrun
  obtain ⟨rfl, hkeys⟩ := Prod.mk.inj heq
  have hcalled := Called.none.resolve hcall
  exact ⟨draft, hcalled, hkeys, (complete_of_called hcalled).1⟩

end SchemaClasses
