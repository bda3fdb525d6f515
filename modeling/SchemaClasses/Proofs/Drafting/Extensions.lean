import SchemaClasses.Proofs.Drafting.Complete

/-!
# Classes of extensions

A place that is filled stays as it is, whatever is resolved later. An extension is resolved when
nothing is pending; so if its schema has no class yet, its class is drafted at once and takes the
names that have just been set, and otherwise it is the class that the schema has.
-/

namespace SchemaClasses

namespace Drafting

variable {policy : Policy} {draft after : Draft} {depth : Nat}

/-! ### Filled places -/

theorem Step.filled (h : Step policy draft after) (orderly : draft.Orderly []) {id : ClassId}
    {place : Place} {drafted : DraftClass} (hplace : draft.places[id]? = some place)
    (hdrafted : place.drafted = some drafted) : after.places[id]? = some place := by
  cases h with
  | find | enter | leave | name | nowhere | resolved => exact hplace
  | intern _ hid => exact hid.grows.getElem? hplace
  | @drafted next rest other _ inner hpending hother hclass =>
    have hopen := ((orderly.pending next).mp (hpending ▸ List.mem_cons_self)).1
    rw [Draft.IsOpen, hother, Option.map_some] at hopen
    exact Draft.fill_getElem?_filled (hclass.grows.getElem? hother) (Option.some.inj hopen)
      (hclass.grows.getElem? hplace) hdrafted

theorem Steps.filled (h : Steps policy draft after) (orderly : draft.Orderly []) {id : ClassId}
    {place : Place} {drafted : DraftClass} (hplace : draft.places[id]? = some place)
    (hdrafted : place.drafted = some drafted) : after.places[id]? = some place := by
  induction h with
  | refl => exact hplace
  | tail hsteps step ih => exact step.filled (Steps.orderly hsteps orderly) ih hdrafted

/-- Draining fills the place of the class that is next at once, and for good. -/
theorem drain_next {id : ClassId} {rest : List ClassId} {place : Place} {u : Unit}
    (orderly : draft.Orderly []) (hpending : draft.pending = id :: rest)
    (hplace : draft.places[id]? = some place) (h : drain depth draft = some (u, after)) :
    ∃ drafted inner,
      Classes place.document
        { draft with pending := rest, catalog := draft.catalog.enter place.document }
        drafted inner ∧
      after.places[id]? = some { place with drafted := some drafted } := by
  cases depth with
  | zero => cases h
  | succ depth =>
    obtain ⟨hempty, -⟩ | ⟨_, _, between, hnext, hdraft, hdrain⟩ := drain_inv h
    · cases hempty.symm.trans hpending
    obtain ⟨rfl, rfl⟩ := List.cons.inj (hpending.symm.trans hnext)
    obtain ⟨hnone, -⟩ | ⟨_, drafted, inner, hsome, hclass, rfl⟩ := draftAt_inv hdraft
    · cases hnone.symm.trans hplace
    obtain rfl := Option.some.inj (hplace.symm.trans hsome)
    have hclass := classOf_classes hclass
    have hstep : Step .any draft _ := .drafted hpending hplace hclass
    have hsteps : Steps .any _ after := (drain_steps hdrain).1
    have hin : inner.places[id]? = some place := hclass.grows.getElem? hplace
    refine ⟨drafted, inner, hclass, ?_⟩
    refine Steps.filled hsteps (hstep.orderly orderly) ?_ rfl
    exact (Draft.fill_getElem? hin id).trans (if_pos rfl)

/-! ### The class of an extension -/

theorem Interns.own_inv {document : Document} {found : Option ClassId}
    (h : Interns document draft found after) (hlink : document.link? = none) :
    (∃ id, draft.idOf? document.key = some id ∧ found = some id ∧ after = draft) ∨
      draft.idOf? document.key = none ∧ found = some draft.places.length ∧
        after = draft.append document := by
  have hown : ∀ {own between}, Unaliases [] document draft own between →
      own = some document ∧ between = draft := by
    intro own between h
    cases h with
    | itself => exact ⟨rfl, rfl⟩
    | circle hseen => exact absurd hseen List.not_mem_nil
    | lost _ hsome | next _ hsome => simp [hlink] at hsome
  cases h with
  | lost hlost => cases (hown hlost).1
  | known h hid =>
    obtain ⟨heq, rfl⟩ := hown h
    obtain rfl := Option.some.inj heq
    exact .inl ⟨_, hid, rfl, rfl⟩
  | added h hid =>
    obtain ⟨heq, rfl⟩ := hown h
    obtain rfl := Option.some.inj heq
    exact .inr ⟨hid, rfl, rfl⟩

theorem Classes.names {document : Document} {drafted : DraftClass} {names : ExtensionNames}
    (h : Classes document draft drafted after)
    (hnames : Ordered.get? draft.extensionNames document.key = some names) :
    drafted.extensionName = some names.extensionName ∧
      ∀ name, names.className = some name → drafted.typeName = name := by
  obtain ⟨hbody⟩ := h
  constructor
  · dsimp only
    rw [hbody.grows.extensionNames, hnames, Option.map_some]
  · intro name hname
    dsimp only
    rw [Draft.displayName, hnames, Option.bind_some, hname]

/-- The class of an extension whose schema has none yet is drafted under the names set for it. -/
theorem resolveExtension_new {document : Document} {names : ExtensionNames}
    {found : Option ClassId} (orderly : draft.Orderly []) (hpending : draft.pending = [])
    (hlink : document.link? = none) (new : draft.idOf? document.key = none)
    (h : resolveExtension depth document names draft = some (found, after)) :
    ∃ drafted, found = some draft.places.length ∧
      after.places[draft.places.length]? = some ⟨document, some drafted⟩ ∧
      drafted.extensionName = some names.extensionName ∧
      ∀ name, names.className = some name → drafted.typeName = name := by
  obtain ⟨interned, hid, hcases⟩ := resolveExtension_inv h
  have orderly : interned.Orderly [] := (orderly.surroundings id).grows hid.grows
  obtain ⟨id, hsome, -⟩ | ⟨-, hfound, heq⟩ := hid.own_inv hlink
  · have hsome : draft.idOf? document.key = some id := hsome
    rw [new] at hsome
    cases hsome
  obtain ⟨hnone, -⟩ | ⟨id, -, hdrain⟩ := hcases
  · rw [hnone] at hfound
    cases hfound
  have hnext : interned.pending = [draft.places.length] := by
    simp [heq, Draft.append, hpending]
  have hplace : interned.places[draft.places.length]? = some ⟨document, none⟩ := by
    simp [heq, Draft.append]
  have hnames : Ordered.get? interned.extensionNames document.key = some names := by
    simp [heq, Draft.append, Ordered.get?_put]
  obtain ⟨drafted, inner, hclass, hfilled⟩ := drain_next orderly hnext hplace hdrain
  exact ⟨drafted, hfound, hfilled, hclass.names hnames⟩

theorem resolveExtension_known {document : Document} {names : ExtensionNames} {id : ClassId}
    {found : Option ClassId} (hlink : document.link? = none)
    (known : draft.idOf? document.key = some id)
    (h : resolveExtension depth document names draft = some (found, after)) : found = some id := by
  obtain ⟨interned, hid, -⟩ := resolveExtension_inv h
  obtain ⟨id', hsome, rfl, -⟩ | ⟨hnone, -⟩ := hid.own_inv hlink
  · have hsome : draft.idOf? document.key = some id' := hsome
    exact hsome.symm.trans known
  · have hnone : draft.idOf? document.key = none := hnone
    rw [known] at hnone
    cases hnone

end Drafting

end SchemaClasses
