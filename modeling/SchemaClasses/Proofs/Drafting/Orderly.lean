import Mathlib.Data.List.Nodup
import SchemaClasses.Proofs.Drafting.Drafted

/-!
# Orderly drafts

In an orderly draft every document has one place, every place is either pending or filled with the
class of its document, and no class is out of range. While a class is being drafted its place is
neither pending nor filled, so being orderly is said with the places that are busy set apart. Every
step of resolving schemas keeps a draft orderly, and so does every run of steps.
-/

namespace SchemaClasses

namespace Draft

/-- A place is there but not filled. -/
def IsOpen (draft : Draft) (id : ClassId) : Prop :=
  (draft.places[id]?).map (·.drafted) = some none

/-- The places at `busy` are those whose classes are being drafted. -/
structure Orderly (busy : List ClassId) (draft : Draft) : Prop where
  distinct : draft.keys.Nodup
  unlinked : ∀ place ∈ draft.places, place.document.link? = none
  nodup : draft.pending.Nodup
  pending : ∀ id, id ∈ draft.pending ↔ draft.IsOpen id ∧ id ∉ busy
  busy : ∀ id ∈ busy, draft.IsOpen id
  drafted : ∀ place ∈ draft.places, ∀ drafted, place.drafted = some drafted →
    Drafting.Drafted place.document draft drafted
  resolved : ∀ entry ∈ draft.resolved, entry.2 < draft.places.length

variable {draft after : Draft} {busy : List ClassId}

theorem IsOpen.lt {id : ClassId} (h : draft.IsOpen id) : id < draft.places.length := by
  obtain ⟨place, hplace, -⟩ := Option.map_eq_some_iff.mp h
  exact (List.getElem?_eq_some_iff.mp hplace).choose

theorem new_orderly (catalog : Catalog) (settings : Settings) (naming : Naming) :
    (Draft.new catalog settings naming).Orderly [] where
  distinct := List.nodup_nil
  unlinked := by simp [new]
  nodup := List.nodup_nil
  pending := by simp [new, IsOpen]
  busy := by simp
  drafted := by simp [new]
  resolved := by simp [new]

/-- The open places of a draft that has grown are the open ones from before and the new ones. -/
theorem isOpen_append {added : List Document}
    (hplaces : after.places = draft.places ++ added.map (⟨·, none⟩)) (id : ClassId) :
    after.IsOpen id ↔
      draft.IsOpen id ∨ id ∈ List.range' draft.places.length added.length := by
  rw [List.mem_range'_1, IsOpen, IsOpen, hplaces]
  rcases Nat.lt_or_ge id draft.places.length with hlt | hge
  · rw [List.getElem?_append_left hlt]
    exact ⟨.inl, fun h => h.resolve_right (by omega)⟩
  · have hnone : draft.places[id]? = none := List.getElem?_eq_none hge
    rw [List.getElem?_append_right hge, hnone]
    rcases Nat.lt_or_ge (id - draft.places.length) added.length with hlt | hge'
    · simp [hlt]
      omega
    · simp [hge']
      omega

section

variable {id : ClassId} {place : Place} {drafted : DraftClass}

theorem fill_getElem? (hplace : draft.places[id]? = some place) (other : ClassId) :
    (draft.fill id drafted).places[other]? =
      if id = other then some { place with drafted := some drafted }
      else draft.places[other]? := by
  rw [fill, List.getElem?_modify]
  split
  · subst other
    rw [hplace]
    rfl
  · simp

theorem fill_getElem?_filled (hplace : draft.places[id]? = some place)
    (hopen : place.drafted = none) {other : ClassId} {filled : Place} {k : DraftClass}
    (hother : draft.places[other]? = some filled) (hfilled : filled.drafted = some k) :
    (draft.fill id drafted).places[other]? = some filled := by
  have hne : id ≠ other := by
    rintro rfl
    obtain rfl := Option.some.inj (hplace.symm.trans hother)
    cases hopen.symm.trans hfilled
  rw [fill_getElem? hplace, if_neg hne, hother]

theorem mem_fill (hplace : draft.places[id]? = some place) {other : Place}
    (h : other ∈ (draft.fill id drafted).places) :
    other ∈ draft.places ∨ other = { place with drafted := some drafted } := by
  obtain ⟨at_, hat⟩ := List.mem_iff_getElem?.mp h
  rw [fill_getElem? hplace] at hat
  split at hat
  · exact .inr (Option.some.inj hat).symm
  · exact .inl (List.mem_iff_getElem?.mpr ⟨at_, hat⟩)

theorem isOpen_fill (hplace : draft.places[id]? = some place) (other : ClassId) :
    (draft.fill id drafted).IsOpen other ↔ draft.IsOpen other ∧ other ≠ id := by
  rw [IsOpen, IsOpen, fill_getElem? hplace]
  by_cases heq : id = other <;> simp [heq, eq_comm]

end

namespace Orderly

theorem grows (h : draft.Orderly busy) (grows : draft.Grows after) : after.Orderly busy := by
  obtain ⟨added, hplaces, hpending, hunlinked⟩ := grows.places
  have hopen := isOpen_append hplaces
  have hnew : ∀ id ∈ List.range' draft.places.length added.length, ¬draft.IsOpen id := by
    intro id hid hid'
    exact absurd hid'.lt (Nat.not_lt.mpr (List.mem_range'_1.mp hid).1)
  refine ⟨grows.keys h.distinct, ?_, ?_, ?_, ?_, ?_, ?_⟩
  · intro place hplace
    rw [hplaces, List.mem_append, List.mem_map] at hplace
    obtain hplace | ⟨document, hdocument, rfl⟩ := hplace
    · exact h.unlinked place hplace
    · exact hunlinked document hdocument
  · rw [hpending, List.nodup_append]
    refine ⟨?_, h.nodup, ?_⟩
    · exact List.nodup_reverse.mpr List.nodup_range'
    · rintro id hid _ hid' rfl
      exact hnew id (List.mem_reverse.mp hid) ((h.pending id).mp hid').1
  · intro id
    rw [hpending, List.mem_append, List.mem_reverse, hopen, h.pending]
    constructor
    · rintro (hid | ⟨hid, hbusy⟩)
      · exact ⟨.inr hid, fun hbusy => hnew id hid (h.busy id hbusy)⟩
      · exact ⟨.inl hid, hbusy⟩
    · rintro ⟨hid | hid, hbusy⟩
      · exact .inr ⟨hid, hbusy⟩
      · exact .inl hid
  · intro id hid
    exact (hopen id).mpr (.inl (h.busy id hid))
  · intro place hplace drafted hdrafted
    rw [hplaces, List.mem_append, List.mem_map] at hplace
    obtain hplace | ⟨document, hdocument, rfl⟩ := hplace
    · exact (h.drafted place hplace drafted hdrafted).mono grows.within
    · cases hdrafted
  · intro entry hentry
    rw [grows.resolved] at hentry
    exact Nat.lt_of_lt_of_le (h.resolved entry hentry) grows.length_le

theorem surroundings {catalog : Catalog} {extensionNames : List (String × ExtensionNames)}
    (h : draft.Orderly busy)
    (knows : ∀ {document}, draft.catalog.Knows document → catalog.Knows document) :
    Orderly busy { draft with catalog := catalog, extensionNames := extensionNames } :=
  ⟨h.distinct, h.unlinked, h.nodup, h.pending, h.busy,
    fun place hplace drafted hdrafted =>
      (h.drafted place hplace drafted hdrafted).mono ⟨rfl, knows, id⟩, h.resolved⟩

theorem pop {next : ClassId} {rest : List ClassId} (h : draft.Orderly [])
    (hpending : draft.pending = next :: rest) :
    Orderly [next] { draft with pending := rest } := by
  have hnodup := h.nodup
  rw [hpending, List.nodup_cons] at hnodup
  have hmem := fun other => h.pending other
  simp only [hpending, List.mem_cons, List.not_mem_nil, not_false_eq_true, and_true] at hmem
  refine ⟨h.distinct, h.unlinked, hnodup.2, ?_, ?_, ?_, h.resolved⟩
  · intro other
    change other ∈ rest ↔ draft.IsOpen other ∧ other ∉ [next]
    rw [← hmem, List.mem_singleton]
    constructor
    · intro hother
      exact ⟨.inr hother, fun heq => hnodup.1 (heq ▸ hother)⟩
    · rintro ⟨heq | hother, hne⟩
      · exact absurd heq hne
      · exact hother
  · intro other hother
    exact (hmem other).mp (.inl (List.mem_singleton.mp hother))
  · exact fun place hplace drafted hdrafted =>
      (h.drafted place hplace drafted hdrafted).mono ⟨rfl, id, id⟩

/-- Filling the place that is busy leaves none busy. -/
theorem fill {id : ClassId} {place : Place} {drafted : DraftClass} (h : draft.Orderly [id])
    (hplace : draft.places[id]? = some place)
    (hdrafted : Drafting.Drafted place.document draft drafted) :
    (draft.fill id drafted).Orderly [] := by
  have hin : place ∈ draft.places := List.mem_of_getElem? hplace
  have hwithin := draft.fill_within id drafted
  refine ⟨draft.keys_fill id drafted ▸ h.distinct, ?_, h.nodup, ?_, by simp, ?_, ?_⟩
  · intro other hother
    obtain hother | rfl := mem_fill hplace hother
    · exact h.unlinked other hother
    · exact h.unlinked place hin
  · intro other
    have hpending := h.pending other
    rw [List.mem_singleton] at hpending
    rwa [isOpen_fill hplace, and_iff_left List.not_mem_nil]
  · intro other hother found hfound
    obtain hother | rfl := mem_fill hplace hother
    · exact (h.drafted other hother found hfound).mono hwithin
    · obtain rfl := Option.some.inj hfound
      exact hdrafted.mono hwithin
  · intro entry hentry
    have := h.resolved entry hentry
    rwa [Draft.fill, List.length_modify]

theorem place_unique (h : draft.Orderly busy) {id other : ClassId} {place more : Place}
    (hplace : draft.places[id]? = some place) (hmore : draft.places[other]? = some more)
    (hkey : more.document.key = place.document.key) : more = place := by
  have hid := (idOf?_eq_some_iff h.distinct).mpr (holds_of_getElem? hplace)
  have hother := (idOf?_eq_some_iff h.distinct).mpr (holds_of_getElem? hmore)
  rw [hkey, hid] at hother
  obtain rfl := Option.some.inj hother
  exact Option.some.inj (hmore.symm.trans hplace)

end Orderly

end Draft

end SchemaClasses
