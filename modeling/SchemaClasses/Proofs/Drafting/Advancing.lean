import SchemaClasses.Proofs.Drafting.Calls
import SchemaClasses.Proofs.Drafting.Numbering

/-!
# Resolving plain references step by step

While plain references are resolved, a draft advances from one rest to the next: the document of a
reference is looked for and interned, the class at the next pending place is drafted, and the class
of a reference is noted. At rest a draft is in the surroundings that it started in, so that a
reference always leads to the same document; the pending places are stacked, the last one on top;
and nothing that is declared in a class has a place before the class.
-/

namespace SchemaClasses

namespace Draft

variable {home : List (List Char)} {start draft other after : Draft}

/-- Drafts in the same surroundings. No document has an empty host, so there is nothing else that
they agree on. -/
abbrev Beside (draft other : Draft) : Prop := draft.Agree [] other

theorem documentsIn_nil (draft : Draft) : draft.documentsIn [] = [] := by
  simp [documentsIn, Location.host_ne_nil]

namespace Agree

theorem of_beside (h : draft.Beside other)
    (declared : ∀ key, Location.IsInline key → Location.host key = home →
      other.catalog.document? key = draft.catalog.document? key)
    (documents : other.documentsIn home = draft.documentsIn home) : draft.Agree home other :=
  ⟨h.texts, h.searchPaths, h.context, h.settings, h.naming, h.following, h.extensionNames,
    declared, documents⟩

end Agree

namespace Beside

theorem refl (draft : Draft) : draft.Beside draft :=
  ⟨.refl _, rfl, rfl, rfl, rfl, rfl, rfl, fun _ _ _ => rfl, rfl⟩

theorem grows (h : start.Beside draft) (grows : draft.Grows after) : start.Beside after :=
  h.of_grows (.refl start) grows (fun key _ hhost => absurd hhost (Location.host_ne_nil key))
    (by rw [documentsIn_nil, documentsIn_nil])

/-- Places do not matter. -/
theorem of_catalog (h : start.Beside draft) {catalog : Catalog}
    (grows : draft.catalog.Grows catalog) {resolved : List (String × ClassId)}
    {places : List Place} {pending : List ClassId} :
    start.Beside { draft with
      catalog := catalog, resolved := resolved, places := places, pending := pending } where
  texts := h.texts.trans grows.sameTexts
  searchPaths := grows.searchPaths.trans h.searchPaths
  context := grows.context.trans h.context
  settings := h.settings
  naming := h.naming
  following := h.following
  extensionNames := h.extensionNames
  declared := fun key _ hhost => absurd hhost (Location.host_ne_nil key)
  documents := by rw [documentsIn_nil, documentsIn_nil]

theorem common (h : start.Beside draft) (k : start.Beside other) : draft.Beside other where
  texts := h.texts.symm.trans k.texts
  searchPaths := k.searchPaths.trans h.searchPaths.symm
  context := k.context.trans h.context.symm
  settings := k.settings.trans h.settings.symm
  naming := k.naming.trans h.naming.symm
  following := k.following.trans h.following.symm
  extensionNames := k.extensionNames.trans h.extensionNames.symm
  declared := fun key _ hhost => absurd hhost (Location.host_ne_nil key)
  documents := by rw [documentsIn_nil, documentsIn_nil]

end Beside

/-- The class in which something with a place is declared has a place as well. -/
def Hosted (draft : Draft) : Prop :=
  ∀ key ∈ draft.keys, ∃ own ∈ draft.keys, Location.parts own = Location.host key

theorem Grows.keys_subset (h : draft.Grows after) : draft.keys ⊆ after.keys := by
  intro key hkey
  obtain ⟨added, hplaces, -⟩ := h.places
  rw [Draft.keys, hplaces, List.map_append]
  exact List.mem_append_left _ hkey

theorem StaysIn.hosted (stays : draft.StaysIn home after) (hosted : draft.Hosted)
    (hsubset : draft.keys ⊆ after.keys)
    (hhome : ∀ key, Location.host key = home → ∃ own ∈ draft.keys, Location.parts own = home) :
    after.Hosted := by
  intro key hkey
  rcases stays.keys key hkey with hbefore | hnot | hhost
  · obtain ⟨own, hown, hparts⟩ := hosted key hbefore
    exact ⟨own, hsubset hown, hparts⟩
  · exact ⟨key, hkey, (not_not.mp hnot).symm⟩
  · obtain ⟨own, hown, hparts⟩ := hhome key hhost
    exact ⟨own, hsubset hown, hparts.trans hhost.symm⟩

theorem Grows.stacked (h : draft.Grows after) (stacked : draft.pending.Pairwise (· > ·))
    (hlt : ∀ id ∈ draft.pending, id < draft.places.length) :
    after.pending.Pairwise (· > ·) := by
  obtain ⟨added, -, hpending, -⟩ := h.places
  rw [hpending, List.pairwise_append]
  refine ⟨List.pairwise_reverse.mpr List.pairwise_lt_range', stacked, ?_⟩
  intro id hid below hbelow
  have hle := (List.mem_range'_1.mp (List.mem_reverse.mp hid)).1
  exact Nat.lt_of_lt_of_le (hlt below hbelow) hle

end Draft

namespace Drafting

/-- What a reference stands for in given surroundings. -/
inductive Leads (start : Draft) (reference : String) : Option Document → Prop
  | lost {draft after} : start.Beside draft → draft.catalog.Sound →
      load reference draft = some (none, after) → Leads start reference none
  | found {draft document between own after} : start.Beside draft → draft.catalog.Sound →
      load reference draft = some (some document, between) →
      Unaliases [] document between own after → Leads start reference own

/-- A step of resolving references of a list. -/
inductive Advances (start : Draft) (references : List String) : Draft → Draft → Prop
  | lost {draft reference after} : reference ∈ references →
      load reference draft = some (none, after) → Advances start references draft after
  | called {draft reference document between id after} : reference ∈ references →
      load reference draft = some (some document, between) → Interns document between id after →
      Advances start references draft after
  | drafted {draft id rest place depth drafted inner} : draft.pending = id :: rest →
      draft.places[id]? = some place →
      classOf depth place.document
        { draft with pending := rest, catalog := draft.catalog.enter place.document } =
          some (drafted, inner) →
      Advances start references draft
        ({ inner with catalog := inner.catalog.leave }.fill id drafted)
  | noted {draft reference own id} : Leads start reference (some own) → draft.Holds id own.key →
      Advances start references draft
        { draft with resolved := Ordered.put draft.resolved reference id }

/-- A draft between two steps. -/
structure AtRest (start draft : Draft) : Prop where
  beside : start.Beside draft
  sound : draft.catalog.Sound
  documented : draft.Documented
  orderly : draft.Orderly []
  stacked : draft.pending.Pairwise (· > ·)
  hosted : draft.Hosted
  resolved : ∀ entry ∈ draft.resolved, ∃ own,
    Leads start entry.1 (some own) ∧ draft.Holds entry.2 own.key

variable {start draft other after : Draft} {references : List String}

/-- A plain reference stands for one document at most. -/
theorem Leads.unique {reference : String} {found found' : Option Document}
    (h : Leads start reference found) (h' : Leads start reference found')
    (plain : Location.IsPlain reference) : found' = found := by
  cases h with
  | lost beside sound hload =>
    cases h' with
    | lost => rfl
    | found beside' sound' hload' =>
      have hfound := (load_agree (beside.common beside') sound sound' plain hload hload').1
      cases hfound
  | found beside sound hload hown =>
    cases h' with
    | lost beside' sound' hload' =>
      have hfound := (load_agree (beside.common beside') sound sound' plain hload hload').1
      cases hfound
    | found beside' sound' hload' hown' =>
      obtain ⟨hfound, hagree⟩ := load_agree (beside.common beside') sound sound' plain hload hload'
      obtain rfl := Option.some.inj hfound
      have hstays := load_staysIn [] sound plain hload
      have hstays' := load_staysIn [] sound' plain hload'
      exact (hown.agree hown' hagree hstays.sound hstays'.sound (load_knows hload)
        (load_knows hload') (load_seenFrom sound plain hload)).1

theorem Advances.steps (h : Advances start references draft after) :
    Steps .known draft after := by
  cases h with
  | lost _ hload => exact (load_looks hload).steps
  | called _ hload hid =>
    exact (load_looks hload).steps.tail (.intern (.inr (load_knows hload)) hid)
  | drafted hpending hplace hclass =>
    exact .single (.drafted hpending hplace (classOf_classes hclass))
  | noted _ holds => exact .single (.resolved _ holds.lt)

namespace AtRest

theorem pending_lt (rest : AtRest start draft) :
    ∀ id ∈ draft.pending, id < draft.places.length :=
  fun id hid => ((rest.orderly.pending id).mp hid).1.lt

/-- A draft that has grown by a document that was called is at rest. -/
theorem of_grows (rest : AtRest start draft) (grows : draft.Grows after)
    (stays : draft.StaysIn [] after) (documented : after.Documented) : AtRest start after where
  beside := rest.beside.grows grows
  sound := stays.sound
  documented := documented
  orderly := rest.orderly.grows grows
  stacked := grows.stacked rest.stacked rest.pending_lt
  hosted := stays.hosted rest.hosted grows.keys_subset fun key hhost =>
    absurd hhost (Location.host_ne_nil key)
  resolved := by
    rw [grows.resolved]
    intro entry hentry
    obtain ⟨own, hleads, holds⟩ := rest.resolved entry hentry
    exact ⟨own, hleads, grows.holds holds⟩

end AtRest

theorem AtRest.drafted {id : ClassId} {later : List ClassId} {place : Place} {depth : Nat}
    {drafted : DraftClass} {inner : Draft} (rest : AtRest start draft)
    (hplace : draft.places[id]? = some place)
    (hclass : classOf depth place.document
      { draft with pending := later, catalog := draft.catalog.enter place.document } =
        some (drafted, inner)) :
    Draft.StaysIn (Location.host place.document.key)
      { draft with pending := later, catalog := draft.catalog.enter place.document } inner := by
  have known := rest.documented place (List.mem_of_getElem? hplace)
  obtain ⟨hbody⟩ := classOf_classes hclass
  exact hbody.staysIn (rest.sound.enter _) known (rest.sound.sourced.reads_enter known) rfl

theorem Advances.atRest (h : Advances start references draft after)
    (plain : ∀ reference ∈ references, Location.IsPlain reference) (rest : AtRest start draft) :
    AtRest start after := by
  have documented := h.steps.documented not_false rest.documented
  have orderly := h.steps.orderly rest.orderly
  have within := h.steps.within
  cases h with
  | lost hmem hload =>
    exact rest.of_grows (load_grows hload) (load_staysIn [] rest.sound (plain _ hmem) hload)
      documented
  | called hmem hload hid =>
    have hstays := load_staysIn [] rest.sound (plain _ hmem) hload
    have hseen : Location.SeenFrom [] _ := load_seenFrom rest.sound (plain _ hmem) hload
    exact rest.of_grows ((load_grows hload).trans hid.grows)
      (hstays.trans (hid.staysIn hstays.sound (load_knows hload) hseen)) documented
  | @drafted id later place depth drafted inner hpending hplace hclass =>
    have grows : Draft.Grows { draft with pending := later }
        { inner with catalog := inner.catalog.leave } := .leave (classOf_classes hclass).grows
    have stays := rest.drafted hplace hclass
    have stacked := rest.stacked
    rw [hpending, List.pairwise_cons] at stacked
    have hin : place.document.key ∈ draft.keys :=
      List.mem_map_of_mem (List.mem_of_getElem? hplace)
    refine ⟨?_, stays.sound.leave, documented, orderly, ?_, ?_, ?_⟩
    · have hpopped : start.Beside { draft with pending := later } :=
        rest.beside.of_catalog (.refl _)
      exact (hpopped.grows grows).of_catalog (.refl _)
    · refine grows.stacked stacked.2 fun other hother => ?_
      exact rest.pending_lt other (hpending ▸ List.mem_cons_of_mem _ hother)
    · have hsubset := (classOf_classes hclass).grows.keys_subset
      have hosted := stays.hosted rest.hosted hsubset fun _ _ => rest.hosted _ hin
      rw [Draft.Hosted, Draft.keys_fill]
      exact hosted
    · intro entry hentry
      have hresolved : inner.resolved = draft.resolved := grows.resolved
      obtain ⟨own, hleads, holds⟩ := rest.resolved entry (hresolved ▸ hentry)
      exact ⟨own, hleads, within.holds holds⟩
  | noted hleads holds =>
    refine ⟨rest.beside.of_catalog (.refl _), rest.sound, documented, orderly, rest.stacked,
      rest.hosted, fun entry hentry => ?_⟩
    obtain hentry | rfl := Ordered.mem_of_mem_put hentry
    · exact rest.resolved entry hentry
    · exact ⟨_, hleads, holds⟩

theorem AtRest.run (rest : AtRest start draft)
    (plain : ∀ reference ∈ references, Location.IsPlain reference)
    (h : Relation.ReflTransGen (Advances start references) draft after) : AtRest start after := by
  induction h with
  | refl => exact rest
  | tail _ step ih => exact step.atRest plain ih

theorem within_of_advances (h : Relation.ReflTransGen (Advances start references) draft after) :
    draft.Within after := by
  induction h with
  | refl => exact .refl draft
  | tail _ step ih => exact ih.trans step.steps.within

/-- The class, or the lack of one, that a reference has in a draft. -/
inductive Answers (start : Draft) (reference : String) (draft : Draft) : Option ClassId → Prop
  | lost : Leads start reference none → Answers start reference draft none
  | found {own id} : Leads start reference (some own) → draft.Holds id own.key →
      Answers start reference draft (some id)

theorem Answers.mono {reference : String} {found : Option ClassId}
    (h : Answers start reference draft found) (within : draft.Within after) :
    Answers start reference after found := by
  cases h with
  | lost hleads => exact .lost hleads
  | found hleads holds => exact .found hleads (within.holds holds)

section

variable {depth : Nat} {reference : String}

theorem draftAt_advances {id : ClassId} {later : List ClassId} {u : Unit}
    (rest : AtRest start draft) (hpending : draft.pending = id :: later)
    (h : draftAt depth id { draft with pending := later } = some (u, after)) :
    Advances start references draft after := by
  have hopen := ((rest.orderly.pending id).mp (hpending ▸ List.mem_cons_self)).1
  obtain ⟨place, hplace, -⟩ := Option.map_eq_some_iff.mp hopen
  obtain ⟨hnone, -⟩ | ⟨_, drafted, inner, hsome, hclass, rfl⟩ := draftAt_inv h
  · cases hnone.symm.trans hplace
  · exact .drafted hpending hsome hclass

theorem drain_advances {u : Unit}
    (plain : ∀ reference ∈ references, Location.IsPlain reference) (rest : AtRest start draft)
    (h : drain depth draft = some (u, after)) :
    Relation.ReflTransGen (Advances start references) draft after ∧ after.pending = [] := by
  induction depth generalizing draft with
  | zero => cases h
  | succ depth ih =>
    obtain ⟨hpending, rfl⟩ | ⟨id, later, between, hpending, hdrafted, h⟩ := drain_inv h
    · exact ⟨.refl, hpending⟩
    · have step : Advances start references draft between := draftAt_advances rest hpending hdrafted
      obtain ⟨hsteps, hempty⟩ := ih (step.atRest plain rest) h
      exact ⟨.head step hsteps, hempty⟩

theorem load_pending {found : Option Document}
    (h : load reference draft = some (found, after)) : after.pending = draft.pending := by
  obtain ⟨-, rfl⟩ := load_inv h
  rfl

/-- A reference is resolved in steps, and what it is resolved to is the class of the document that
it stands for. -/
theorem resolve_advances {found : Option ClassId}
    (plain : ∀ reference ∈ references, Location.IsPlain reference) (rest : AtRest start draft)
    (hpending : draft.pending = []) (hmem : reference ∈ references)
    (h : resolve depth reference draft = some (found, after)) :
    Relation.ReflTransGen (Advances start references) draft after ∧ after.pending = [] ∧
      Answers start reference after found := by
  cases resolve_resolves h with
  | known hresolved =>
    obtain ⟨own, hleads, holds⟩ := rest.resolved _ (Ordered.mem_of_get? hresolved)
    exact ⟨.refl, hpending, .found hleads holds⟩
  | missing _ hload =>
    exact ⟨.single (.lost hmem hload), (load_pending hload).trans hpending,
      .lost (.lost rest.beside rest.sound hload)⟩
  | lost _ hload hid =>
    refine ⟨.single (.called hmem hload hid),
      hid.pending.trans ((load_pending hload).trans hpending), ?_⟩
    obtain ⟨hown⟩ := hid
    exact .lost (.found rest.beside rest.sound hload hown)
  | @drained document loaded id interned _ _ hload hid hdrain =>
    have step : Advances start references draft interned := .called hmem hload hid
    obtain ⟨own, between, hown, -, holds⟩ := hid.holds
    have hleads : Leads start reference (some own) := .found rest.beside rest.sound hload hown
    obtain ⟨hsteps, hempty⟩ := drain_advances plain (step.atRest plain rest) hdrain
    have holds := (within_of_advances hsteps).holds holds
    exact ⟨.head step (hsteps.tail (.noted hleads holds)), hempty, .found hleads holds⟩

theorem resolveAll_advances {queried : List String} {ids : List (Option ClassId)}
    (plain : ∀ reference ∈ references, Location.IsPlain reference) (rest : AtRest start draft)
    (hpending : draft.pending = []) (hqueried : queried ⊆ references)
    (h : queried.mapM (resolve depth) draft = some (ids, after)) :
    Relation.ReflTransGen (Advances start references) draft after ∧ after.pending = [] ∧
      List.Forall₂ (fun reference found => Answers start reference after found) queried ids := by
  induction queried generalizing draft ids with
  | nil =>
    obtain ⟨rfl, rfl⟩ := pure_inv h
    exact ⟨.refl, hpending, .nil⟩
  | cons reference queried ih =>
    rw [List.mapM_cons] at h
    obtain ⟨found, between, hfirst, h⟩ := bind_inv h
    obtain ⟨more, last, hrest, h⟩ := bind_inv h
    obtain ⟨rfl, rfl⟩ := pure_inv h
    obtain ⟨hmem, hqueried⟩ := List.cons_subset.mp hqueried
    obtain ⟨hsteps, hempty, hanswer⟩ := resolve_advances plain rest hpending hmem hfirst
    obtain ⟨hmore, hempty, hanswers⟩ := ih (rest.run plain hsteps) hempty hqueried hrest
    exact ⟨hsteps.trans hmore, hempty, .cons (hanswer.mono (within_of_advances hmore)) hanswers⟩

end

end Drafting

end SchemaClasses
