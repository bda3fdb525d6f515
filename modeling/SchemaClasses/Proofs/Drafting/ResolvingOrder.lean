import Mathlib.Logic.Equiv.Fintype
import SchemaClasses.Proofs.Drafting.Branches

/-!
# The order in which references are resolved

The order of references decides on the ids of classes and on nothing else: when references are
resolved in another order, the same documents have places, every class is drafted alike up to the
ids of other classes, and the table that is linked in the end is the same up to those.
-/

namespace SchemaClasses

section

variable {σ : ClassId → ClassId}

theorem Descriptor.renumbered_id (type : Descriptor) : type.renumbered id = type := by
  induction type with
  | leaf kind facets => cases kind <;> rfl
  | array item facets ih | dictionary item facets ih => simp [Descriptor.renumbered, ih]

theorem DraftClass.renumbered_id (drafted : DraftClass) : drafted.renumbered id = drafted := by
  have hproperties (members : List Property) : members.map (·.renumbered id) = members := by
    simp [Property.renumbered, Descriptor.renumbered_id]
  unfold DraftClass.renumbered
  cases hbody : drafted.body <;>
    simp [DraftBody.renumbered, Descriptor.renumbered_id, hproperties, ← hbody]

end

namespace Drafting

variable {start draft other between after : Draft} {references : List String}

/-- A filled place stays as it is. -/
theorem Advances.mem_places (h : Advances start references draft after)
    (rest : AtRest start draft) {place : Place} {drafted : DraftClass}
    (hplace : place ∈ draft.places) (hdrafted : place.drafted = some drafted) :
    place ∈ after.places := by
  obtain ⟨id, hid⟩ := List.mem_iff_getElem?.mp hplace
  cases h with
  | lost _ hload => exact List.mem_of_getElem? ((load_grows hload).getElem? hid)
  | called _ hload hkept =>
    exact List.mem_of_getElem? (((load_grows hload).trans hkept.grows).getElem? hid)
  | @drafted next later top depth found inner hpending htop hclass =>
    have grows := (classOf_classes hclass).grows
    exact List.mem_of_getElem? (Draft.fill_getElem?_filled (grows.getElem? htop)
      (rest.last_open hpending htop).1 (grows.getElem? hid) hdrafted)
  | noted => exact hplace

theorem mem_places_of_advances (plain : ∀ reference ∈ references, Location.IsPlain reference)
    (rest : AtRest start draft)
    (h : Relation.ReflTransGen (Advances start references) draft after) {place : Place}
    {drafted : DraftClass} (hplace : place ∈ draft.places)
    (hdrafted : place.drafted = some drafted) : place ∈ after.places := by
  induction h with
  | refl => exact hplace
  | tail hsteps step ih => exact step.mem_places (rest.run plain hsteps) ih hdrafted

/-- A draft that has advanced from a first one without places until nothing is pending. -/
structure Ends (start : Draft) (references : List String) (draft : Draft) : Prop where
  plain : ∀ reference ∈ references, Location.IsPlain reference
  first : AtRest start start
  steps : Relation.ReflTransGen (Advances start references) start draft
  pending : draft.pending = []

namespace Ends

theorem rest (h : Ends start references draft) : AtRest start draft := h.first.run h.plain h.steps

theorem complete (h : Ends start references draft) : draft.Complete :=
  h.rest.orderly.complete h.pending

end Ends

end Drafting

namespace Draft

variable {draft : Draft}

theorem numbering_idxOf (distinct : draft.keys.Nodup) {id : ClassId}
    (hid : id < draft.places.length) :
    draft.numbering (draft.keys.idxOf ·) id = id := by
  obtain ⟨key, holds⟩ := has_of_lt hid
  obtain ⟨hlt, rfl⟩ := List.getElem?_eq_some_iff.mp (holds_iff.mp holds)
  rw [holds.numbering]
  exact distinct.idxOf_getElem id hlt

end Draft

namespace Drafting

variable {start draft other between after : Draft} {references : List String}

/-- A class with a place in both drafts is drafted alike. -/
theorem Ends.place_alike (h : Ends start references draft) (h' : Ends start references other)
    (number : String → ClassId) {place : Place} (hplace : place ∈ draft.places)
    (hkey : place.document.key ∈ other.keys) :
    ∃ place' ∈ other.places,
      place'.renumbered (other.numbering number) = place.renumbered (draft.numbering number) := by
  have hbegun : place.renumbered (draft.numbering number) ∈
      draft.placesIn number (Location.host place.document.key) :=
    Place.mem_declaredIn.mpr ⟨place, hplace, rfl, rfl⟩
  obtain ⟨known, hknown, hsame⟩ := Draft.mem_keys.mp hkey
  have hbegun' : known.renumbered (other.numbering number) ∈
      other.placesIn number (Location.host place.document.key) :=
    Place.mem_declaredIn.mpr ⟨known, hknown, congrArg Location.host hsame, rfl⟩
  have hbranch := branch_unique h.plain h.first h.steps h'.steps h.pending h'.pending
    (Location.host_ne_nil _) (List.ne_nil_of_mem hbegun) (List.ne_nil_of_mem hbegun')
  have hplaces : other.placesIn number _ = draft.placesIn number _ := congrArg Branch.places hbranch
  rw [← hplaces] at hbegun
  obtain ⟨place', hplace', -, heq⟩ := Place.mem_declaredIn.mp hbegun
  exact ⟨place', hplace', heq⟩

/-- What a class with a place in both drafts refers to has a place in both. -/
theorem Ends.mem_keys_of_ids (h : Ends start references draft) (h' : Ends start references other)
    {place : Place} {drafted : DraftClass} (hplace : place ∈ draft.places)
    (hdrafted : place.drafted = some drafted) (hkey : place.document.key ∈ other.keys)
    {id : ClassId} {key : String} (hid : id ∈ drafted.body.ids) (holds : draft.Holds id key) :
    key ∈ other.keys := by
  obtain ⟨place', hplace', heq⟩ := h.place_alike h' (other.keys.idxOf ·) hplace hkey
  have hclasses := congrArg Place.drafted heq
  simp only [Place.renumbered, hdrafted, Option.map_some] at hclasses
  obtain ⟨drafted', hdrafted', hclass⟩ := Option.map_eq_some_iff.mp hclasses
  have hids : drafted'.body.ids.map (other.numbering (other.keys.idxOf ·)) =
      drafted.body.ids.map (draft.numbering (other.keys.idxOf ·)) := by
    rw [← DraftBody.ids_renumbered, ← DraftBody.ids_renumbered]
    exact congrArg (·.body.ids) hclass
  have hmem := List.mem_map_of_mem (f := draft.numbering (other.keys.idxOf ·)) hid
  rw [← hids, holds.numbering] at hmem
  obtain ⟨id', hid', hnumber⟩ := List.mem_map.mp hmem
  have hlt := h'.complete.named place' hplace' drafted' hdrafted' id' hid'
  rw [Draft.numbering_idxOf h'.complete.distinct hlt] at hnumber
  have hlength : other.keys.length = other.places.length := by simp [Draft.keys]
  rw [← List.idxOf_lt_length_iff, ← hnumber, hlength]
  exact hlt

/-- Interning a document adds a place for nothing but the document that it stands for. -/
theorem Interns.mem_keys {document : Document} {id : Option ClassId} {key : String}
    (h : Interns document draft id after) (hkey : key ∈ after.keys) :
    key ∈ draft.keys ∨
      ∃ own between, Unaliases [] document draft (some own) between ∧ own.key = key := by
  have hlearns {between : Draft} (hlearns : draft.Learns between) (hkey : key ∈ between.keys) :
      key ∈ draft.keys := by
    obtain ⟨catalog, -, rfl⟩ := hlearns
    exact hkey
  cases h with
  | lost hown => exact .inl (hlearns hown.learns hkey)
  | known hown => exact .inl (hlearns hown.learns hkey)
  | @added own between hown hnew =>
    have hkeys : (between.append own).keys = between.keys ++ [own.key] := by
      simp [Draft.keys, Draft.append]
    rw [hkeys, List.mem_append, List.mem_singleton] at hkey
    rcases hkey with hbefore | rfl
    · exact .inl (hlearns hown.learns hbefore)
    · exact .inr ⟨own, between, hown, rfl⟩

/-- Every step on the way to the end of one run adds places for classes only that have places at
the end of another. -/
theorem Ends.keys_subset_of_step (h : Ends start references draft)
    (h' : Ends start references other)
    (answered : ∀ reference ∈ references, ∃ found, Answers start reference other found)
    (rest : AtRest start between) (step : Advances start references between after)
    (hlater : Relation.ReflTransGen (Advances start references) after draft)
    (hbefore : between.keys ⊆ other.keys) : after.keys ⊆ other.keys := by
  intro key hkey
  have hrest := step.atRest h.plain rest
  cases step with
  | lost _ hload =>
    obtain ⟨catalog, -, rfl⟩ := load_learns hload
    exact hbefore hkey
  | called hmem hload hid =>
    rcases hid.mem_keys hkey with hloaded | ⟨own, last, hown, rfl⟩
    · obtain ⟨catalog, -, rfl⟩ := load_learns hload
      exact hbefore hloaded
    · obtain ⟨found, hanswer⟩ := answered _ hmem
      have hleads : Leads start _ (some own) := .found rest.beside rest.sound hload hown
      cases hanswer with
      | lost hlost => cases hlost.unique hleads (h.plain _ hmem)
      | found hfound holds =>
        obtain rfl := Option.some.inj (hfound.unique hleads (h.plain _ hmem))
        exact holds.mem_keys
  | @drafted next later place depth drafted inner hpending hplace hclass =>
    have hclasses := classOf_classes hclass
    rw [Draft.keys_fill] at hkey
    obtain ⟨found, hfound, rfl⟩ := Draft.mem_keys.mp hkey
    obtain ⟨id, holds⟩ : ∃ id, inner.Holds id found.document.key := Draft.holds_of_mem hfound
    rcases Nat.lt_or_ge id between.places.length with hlt | hge
    · obtain ⟨key, hearlier⟩ := Draft.has_of_lt hlt
      have hsame := Option.some.inj ((hclasses.grows.holds hearlier).symm.trans holds)
      exact hsame ▸ hbefore hearlier.mem_keys
    · have hid := hclasses.adds id hge holds.lt
      have hin : inner.places[next]? = some place := hclasses.grows.getElem? hplace
      have hfill : (inner.fill next drafted).places[next]? = _ := Draft.fill_getElem? hin next
      rw [if_pos rfl] at hfill
      have hfilled := mem_places_of_advances h.plain hrest hlater (List.mem_of_getElem? hfill) rfl
      have hown : place.document.key ∈ other.keys :=
        hbefore (List.mem_map_of_mem (List.mem_of_getElem? hplace))
      have hholds : (inner.fill next drafted).Holds id found.document.key :=
        (inner.fill_within next drafted).holds holds
      exact h.mem_keys_of_ids h' hfilled rfl hown hid ((within_of_advances hlater).holds hholds)
  | noted => exact hbefore hkey

theorem Ends.keys_subset (h : Ends start references draft) (h' : Ends start references other)
    (hempty : start.keys = [])
    (answered : ∀ reference ∈ references, ∃ found, Answers start reference other found) :
    draft.keys ⊆ other.keys := by
  have hall : ∀ {between}, Relation.ReflTransGen (Advances start references) start between →
      Relation.ReflTransGen (Advances start references) between draft →
      between.keys ⊆ other.keys := by
    intro between hsteps
    induction hsteps with
    | refl =>
      intro _ key hkey
      rw [hempty] at hkey
      cases hkey
    | tail hsteps step ih =>
      intro hlater
      exact h.keys_subset_of_step h' answered (h.first.run h.plain hsteps) step hlater
        (ih (.head step hlater))
  exact hall h.steps .refl

end Drafting

namespace Draft

variable {draft other : Draft}

/-- Drafts with places for the same keys have the same places under other numbers. -/
theorem exists_renumbering (distinct : draft.keys.Nodup) (distinct' : other.keys.Nodup)
    (hkeys : ∀ key, key ∈ draft.keys ↔ key ∈ other.keys) :
    ∃ σ : Equiv.Perm ClassId, ∀ id key, draft.Holds id key ↔ other.Holds (σ id) key := by
  have hmem (i : Fin draft.keys.length) : draft.keys[i] ∈ other.keys :=
    (hkeys _).mp (List.getElem_mem i.isLt)
  have hinjective : Function.Injective fun i : Fin draft.keys.length =>
      other.keys.idxOf draft.keys[i] := by
    intro i j hij
    exact Fin.ext (distinct.getElem_inj_iff.mp ((List.idxOf_inj (hmem i)).mp hij))
  obtain ⟨σ, hσ⟩ := Equiv.Perm.exists_extending_pair _ _ Fin.val_injective hinjective
  have hforward {id : ClassId} {key : String} (holds : draft.Holds id key) :
      other.Holds (σ id) key := by
    obtain ⟨hlt, rfl⟩ := List.getElem?_eq_some_iff.mp (holds_iff.mp holds)
    have hid := hσ ⟨id, hlt⟩
    rw [holds_iff, hid]
    exact List.getElem?_idxOf (hmem ⟨id, hlt⟩)
  refine ⟨σ, fun id key => ⟨hforward, fun holds => ?_⟩⟩
  obtain ⟨place, hplace, rfl⟩ := Draft.mem_keys.mp ((hkeys key).mpr holds.mem_keys)
  obtain ⟨id', holds'⟩ := holds_of_mem hplace
  have hsame : σ id' = σ id := by
    rw [← Option.some.injEq, ← (idOf?_eq_some_iff distinct').mpr (hforward holds'),
      (idOf?_eq_some_iff distinct').mpr holds]
  rwa [← σ.injective hsame]

theorem numbering_renumbering {σ : Equiv.Perm ClassId} (distinct : other.keys.Nodup)
    (hσ : ∀ id key, draft.Holds id key ↔ other.Holds (σ id) key) {id : ClassId}
    (hid : id < draft.places.length) : draft.numbering (other.keys.idxOf ·) id = σ id := by
  obtain ⟨key, holds⟩ := has_of_lt hid
  have holds' := (hσ id key).mp holds
  calc
    draft.numbering (other.keys.idxOf ·) id = other.keys.idxOf key := holds.numbering _
    _ = other.numbering (other.keys.idxOf ·) (σ id) := (holds'.numbering (other.keys.idxOf ·)).symm
    _ = σ id := numbering_idxOf distinct holds'.lt

end Draft

namespace Drafting

variable {start draft other after : Draft} {references : List String} {σ : Equiv.Perm ClassId}

/-- The class at a place in one draft is at the renumbered place in the other. -/
theorem Ends.place_renumbered (h : Ends start references draft) (h' : Ends start references other)
    (hσ : ∀ id key, draft.Holds id key ↔ other.Holds (σ id) key) {id : ClassId} {place : Place}
    (hplace : draft.places[id]? = some place) :
    ∃ place', other.places[σ id]? = some place' ∧
      place'.finished = place.finished.renumbered σ := by
  have distinct' := h'.complete.distinct
  have hmem := List.mem_of_getElem? hplace
  have holds' := (hσ id _).mp (Draft.holds_of_getElem? hplace)
  obtain ⟨place', hplace', heq⟩ := h.place_alike h' (other.keys.idxOf ·) hmem holds'.mem_keys
  obtain ⟨drafted, hdrafted⟩ := h.complete.filled place hmem
  obtain ⟨drafted', hdrafted'⟩ := h'.complete.filled place' hplace'
  have hdocument : place'.document = place.document := (Place.mk.inj heq).1
  have hclass : drafted'.renumbered (other.numbering (other.keys.idxOf ·)) =
      drafted.renumbered (draft.numbering (other.keys.idxOf ·)) := by
    have hclasses := congrArg Place.drafted heq
    simpa only [Place.renumbered, hdrafted, hdrafted', Option.map_some, Option.some.injEq]
      using hclasses
  refine ⟨place', ?_, ?_⟩
  · obtain ⟨id', hid'⟩ := List.mem_iff_getElem?.mp hplace'
    have hsame := (Draft.idOf?_eq_some_iff distinct').mpr (Draft.holds_of_getElem? hid')
    rw [hdocument, (Draft.idOf?_eq_some_iff distinct').mpr holds'] at hsame
    rwa [Option.some.inj hsame]
  · have hown : drafted'.renumbered (other.numbering (other.keys.idxOf ·)) = drafted' := by
      rw [DraftClass.renumbered_congr fun id hid => Draft.numbering_idxOf distinct'
        (h'.complete.named place' hplace' drafted' hdrafted' id hid)]
      exact drafted'.renumbered_id
    have hrenumbered : drafted.renumbered (draft.numbering (other.keys.idxOf ·)) =
        drafted.renumbered σ :=
      DraftClass.renumbered_congr fun id hid =>
        Draft.numbering_renumbering distinct' hσ
          (h.complete.named place hmem drafted hdrafted id hid)
    rw [Place.finished, Place.finished, hdrafted, hdrafted', Option.getD_some, Option.getD_some,
      ← hrenumbered, ← hclass, hown]

/-- Two drafts that have places for the same keys are linked to tables that are the same up to
ids. -/
theorem Ends.renumbers (h : Ends start references draft) (h' : Ends start references other)
    (hσ : ∀ id key, draft.Holds id key ↔ other.Holds (σ id) key) :
    Linking.Renumbers σ draft.linking other.linking where
  naming := (h.rest.beside.common h'.rest.beside).naming
  drafts := by
    intro id
    rw [Draft.linking, Draft.linking, List.getElem?_map, List.getElem?_map]
    cases hplace : draft.places[id]? with
    | none =>
      cases hother : other.places[σ id]? with
      | none => rfl
      | some place =>
        have hlost := (hσ id _).mpr (Draft.holds_of_getElem? hother)
        rw [Draft.Holds, hplace] at hlost
        cases hlost
    | some place =>
      obtain ⟨place', hplace', hfinished⟩ := h.place_renumbered h' hσ hplace
      rw [hplace', Option.map_some, Option.map_some, Option.map_some, hfinished]

/-- The class of a reference is the same up to ids. -/
theorem Answers.renumbered {reference : String} {found found' : Option ClassId}
    (h : Answers start reference draft found) (h' : Answers start reference other found')
    (plain : Location.IsPlain reference) (distinct : other.keys.Nodup)
    (hσ : ∀ id key, draft.Holds id key ↔ other.Holds (σ id) key) : found' = found.map σ := by
  cases h with
  | lost hleads =>
    cases h' with
    | lost => rfl
    | found hleads' => cases hleads.unique hleads' plain
  | found hleads holds =>
    cases h' with
    | lost hleads' => cases hleads.unique hleads' plain
    | found hleads' holds' =>
      obtain rfl := Option.some.inj (hleads.unique hleads' plain)
      have hid := (Draft.idOf?_eq_some_iff distinct).mpr holds'
      rw [(Draft.idOf?_eq_some_iff distinct).mpr ((hσ _ _).mp holds)] at hid
      rw [Option.map_some, hid]

theorem exists_answer {queried : List String} {ids : List (Option ClassId)} {reference : String}
    (h : List.Forall₂ (fun reference found => Answers start reference draft found) queried ids)
    (hmem : reference ∈ queried) : ∃ found, Answers start reference draft found := by
  induction h with
  | nil => cases hmem
  | cons hanswer _ ih =>
    rcases List.mem_cons.mp hmem with rfl | hmem
    · exact ⟨_, hanswer⟩
    · exact ih hmem

theorem eq_map_of_answers {queried : List String} {ids : List (Option ClassId)}
    {answer : String → Option ClassId}
    (h : List.Forall₂ (fun reference found => Answers start reference draft found) queried ids)
    (unique : ∀ reference ∈ queried, ∀ found, Answers start reference draft found →
      found = answer reference) : ids = queried.map answer := by
  induction h with
  | nil => rfl
  | cons hanswer _ ih =>
    rw [List.map_cons, unique _ List.mem_cons_self _ hanswer,
      ih fun reference hmem => unique reference (List.mem_cons_of_mem _ hmem)]

/-- In the end each reference has one class, or none, wherever it is in the list. -/
theorem exists_answers {queried : List String} {ids : List (Option ClassId)}
    (h : List.Forall₂ (fun reference found => Answers start reference draft found) queried ids)
    (plain : ∀ reference ∈ queried, Location.IsPlain reference) (distinct : draft.keys.Nodup) :
    ∃ answer : String → Option ClassId, ids = queried.map answer ∧
      ∀ reference ∈ queried, Answers start reference draft (answer reference) := by
  have hsome (reference : String) : ∃ answer : Option ClassId,
      reference ∈ queried → Answers start reference draft answer := by
    by_cases hmem : reference ∈ queried
    · obtain ⟨found, hfound⟩ := exists_answer h hmem
      exact ⟨found, fun _ => hfound⟩
    · exact ⟨none, fun hqueried => absurd hqueried hmem⟩
  choose answer hanswer using hsome
  refine ⟨answer, eq_map_of_answers h fun reference hmem found hfound => ?_, hanswer⟩
  have hsame : found = (answer reference).map (Equiv.refl ClassId) :=
    (hanswer reference hmem).renumbered hfound (plain reference hmem) distinct fun _ _ => Iff.rfl
  simpa using hsame

/-- The classes of references that are resolved one after another, and the table that is linked
then. -/
def resolveList (depth : Nat) (references : List String) :
    Drafting (List (Option ClassId) × ClassTable) := do
  let ids ← references.mapM (resolve depth)
  let table ← finish depth
  return (ids, table)

theorem resolveList_ends {depth : Nat} {queried : List String} {ids : List (Option ClassId)}
    {table : ClassTable} (plain : ∀ reference ∈ references, Location.IsPlain reference)
    (rest : AtRest start start) (hpending : start.pending = []) (hqueried : queried ⊆ references)
    (h : resolveList depth queried start = some ((ids, table), after)) :
    ∃ draft, Ends start references draft ∧ table = draft.linking.table ∧
      List.Forall₂ (fun reference found => Answers start reference draft found) queried ids := by
  obtain ⟨found, between, hresolve, h⟩ := bind_inv h
  obtain ⟨linked, last, hfinish, h⟩ := bind_inv h
  obtain ⟨heq, rfl⟩ := pure_inv h
  obtain ⟨rfl, rfl⟩ := Prod.mk.inj heq
  obtain ⟨drained, hdrain, htable, -⟩ := finish_inv hfinish
  obtain ⟨hsteps, -, hanswers⟩ := resolveAll_advances plain rest hpending hqueried hresolve
  obtain ⟨hmore, hempty⟩ := drain_advances plain (rest.run plain hsteps) hdrain
  exact ⟨drained, ⟨plain, rest, hsteps.trans hmore, hempty⟩, htable,
    hanswers.imp fun _ _ hanswer => hanswer.mono (within_of_advances hmore)⟩

theorem new_atRest {files : FileTree} (plain : files.IsPlain)
    (searchPaths extensionPaths : List String) (settings : Settings) (naming : Naming) :
    AtRest (.new (.new files searchPaths extensionPaths) settings naming)
      (.new (.new files searchPaths extensionPaths) settings naming) where
  beside := .refl _
  sound :=
    { sourced := fun _ known => by cases known
      coherent := fun _ known => by cases known
      plain := plain
      offline := rfl }
  documented := fun _ hplace => absurd hplace List.not_mem_nil
  orderly := Draft.new_orderly _ settings naming
  stacked := .nil
  hosted := fun _ hkey => absurd hkey List.not_mem_nil
  resolved := fun _ hentry => absurd hentry List.not_mem_nil

end Drafting

open Drafting

/-- The order in which plain references are resolved on a new draft makes no difference but to ids:
each reference has the same class or none, and the tables are the same up to a renumbering. -/
theorem Drafting.table_of_perm {files : FileTree} {searchPaths extensionPaths : List String}
    {settings : Settings} {naming : Naming} {first second : List String} {depth depth' : Nat}
    {ids ids' : List (Option ClassId)} {table table' : ClassTable} {after after' : Draft}
    (plain : files.IsPlain) (references : ∀ reference ∈ first, Location.IsPlain reference)
    (order : first.Perm second)
    (h : resolveList depth first (.new (.new files searchPaths extensionPaths) settings naming) =
      some ((ids, table), after))
    (h' : resolveList depth' second (.new (.new files searchPaths extensionPaths) settings naming) =
      some ((ids', table'), after')) :
    ∃ (σ : Equiv.Perm ClassId) (answer : String → Option ClassId),
      ids = first.map answer ∧ ids' = second.map (fun reference => (answer reference).map σ) ∧
      table'.length = table.length ∧
      ∀ id, table'.get? (σ id) = (table.get? id).map (·.renumbered σ) := by
  have rest := new_atRest plain searchPaths extensionPaths settings naming
  obtain ⟨draft, hends, rfl, hanswers⟩ :=
    resolveList_ends references rest rfl (List.Subset.refl first) h
  obtain ⟨other, hends', rfl, hanswers'⟩ :=
    resolveList_ends references rest rfl order.symm.subset h'
  have answered (reference : String) (hmem : reference ∈ first) := exists_answer hanswers hmem
  have answered' (reference : String) (hmem : reference ∈ first) :=
    exists_answer hanswers' (order.mem_iff.mp hmem)
  have hkeys (key : String) : key ∈ draft.keys ↔ key ∈ other.keys :=
    ⟨fun hkey => hends.keys_subset hends' rfl answered' hkey,
      fun hkey => hends'.keys_subset hends rfl answered hkey⟩
  have distinct := hends.complete.distinct
  have distinct' := hends'.complete.distinct
  obtain ⟨σ, hσ⟩ := Draft.exists_renumbering distinct distinct' hkeys
  have renumbers := hends.renumbers hends' hσ
  obtain ⟨answer, hids, hanswer⟩ := exists_answers hanswers references distinct
  refine ⟨σ, answer, hids, ?_, renumbers.length_table, renumbers.table_get?⟩
  refine eq_map_of_answers hanswers' fun reference hmem found hfound => ?_
  have hfirst := order.mem_iff.mpr hmem
  exact (hanswer reference hfirst).renumbered hfound (references reference hfirst) distinct' hσ

def Draft.onFiles (files : FileTree) (searchPaths : List String) : Draft :=
  .new (.new files searchPaths []) .empty (.ofNamespace "N")

/-- Two schemas of which one refers to the other change their ids when they are resolved the other
way round. -/
theorem Drafting.table_of_perm_swapped :
    let files := FileTree.ofSchemas
      [("a", .withProperty "b" (.referringTo "c")), ("b", .withProperty "x" .number),
        ("c", .withProperty "x" .number)]
    files.IsPlain ∧ ∃ (σ : Equiv.Perm ClassId) (table table' : ClassTable) (after after' : Draft),
      resolveList 8 ["a", "b"] (.onFiles files ["/s"]) =
        some (([some 0, some 2], table), after) ∧
      resolveList 8 ["b", "a"] (.onFiles files ["/s"]) =
        some (([some 0, some 1], table'), after') ∧
      σ 0 = 1 ∧ σ 2 = 0 ∧ table'.length = table.length ∧
      ∀ id, table'.get? (σ id) = (table.get? id).map (·.renumbered σ) := by
  intro files
  have plain : files.IsPlain := by
    refine FileTree.isPlain_of_texts ?_ ?_ ?_
    · decide +kernel
    · decide +kernel
    · decide +kernel
  have hrun : (resolveList 8 ["a", "b"] (.onFiles files ["/s"])).map (·.1.1) =
      some [some 0, some 2] := by decide +kernel
  have hrun' : (resolveList 8 ["b", "a"] (.onFiles files ["/s"])).map (·.1.1) =
      some [some 0, some 1] := by decide +kernel
  obtain ⟨⟨⟨ids, table⟩, after⟩, h, rfl⟩ := Option.map_eq_some_iff.mp hrun
  obtain ⟨⟨⟨ids', table'⟩, after'⟩, h', rfl⟩ := Option.map_eq_some_iff.mp hrun'
  obtain ⟨σ, answer, hids, hids', hlength, htable⟩ :=
    Drafting.table_of_perm plain (by decide +kernel) (.swap "b" "a" []) h h'
  have hanswers : answer "a" = some 0 ∧ answer "b" = some 2 := by simpa using hids.symm
  have hanswers' : (answer "b").map σ = some 0 ∧ (answer "a").map σ = some 1 := by
    simpa using hids'.symm
  rw [hanswers.1, hanswers.2] at hanswers'
  exact ⟨plain, σ, table, table', after, after', h, h', Option.some.inj hanswers'.2,
    Option.some.inj hanswers'.1, hlength, htable⟩

/-- The key of an object that is declared in a class means something only after the class has been
drafted, whether it is spelled by a reference with a fragment or by the path of a directory. -/
theorem Drafting.answers_of_inlineKey :
    let schema := Json.withProperty "p" (.withProperty "a" .number)
    let files := FileTree.ofSchemas [("c", schema)]
    let withDirectory : FileTree := ⟨[], [(["s"], .directory), (["s", "c#inline"], .directory),
      (["s", "c#inline", "p"], .directory), (["s", "c"], .file (some schema.compact))]⟩
    (files.IsPlain ∧
      (resolveList 8 ["c", "c#inline/p"] (.onFiles files ["/s"])).map (·.1.1) =
        some [some 0, some 1] ∧
      (resolveList 8 ["c#inline/p", "c"] (.onFiles files ["/s"])).map (·.1.1) =
        some [none, some 0]) ∧
    (resolveList 8 ["c", "p"] (.onFiles withDirectory ["/s", "/s/c#inline"])).map (·.1.1) =
      some [some 0, some 1] ∧
    (resolveList 8 ["p", "c"] (.onFiles withDirectory ["/s", "/s/c#inline"])).map (·.1.1) =
      some [none, some 0] := by
  intro schema files withDirectory
  refine ⟨⟨FileTree.isPlain_of_texts ?_ ?_ ?_, ?_, ?_⟩, ?_, ?_⟩
  all_goals decide +kernel

end SchemaClasses
