import Mathlib.Logic.Relation
import SchemaClasses.Extension.Grafting
import SchemaClasses.Proofs.Drafting.Orderly

/-!
# Runs on drafts

Resolving schemas takes a draft from one step to the next: documents are found, a document gets its
place, and the class at the next pending place is drafted. What one step preserves, every run
preserves; that a draft is orderly is the first such fact. A run that was drained leaves nothing
pending.
-/

namespace SchemaClasses.Drafting

/-- What those who call are held to. -/
structure Policy where
  /-- Whether documents are resolved or added that the catalog has not found. -/
  strangers : Prop
  /-- When a document is given names. -/
  renames : Draft → Document → ExtensionNames → Prop

namespace Policy

def any : Policy := ⟨True, fun _ _ _ => True⟩

def known : Policy := ⟨False, fun _ _ _ => True⟩

/-- The catalog knows a document, unless there may be strangers. -/
def Allows (policy : Policy) (draft : Draft) (document : Document) : Prop :=
  policy.strangers ∨ draft.catalog.Knows document

end Policy

/-- A step of resolving schemas. -/
inductive Step (policy : Policy) : Draft → Draft → Prop
  | find {draft catalog} : draft.catalog.Moves policy.strangers catalog →
      Step policy draft { draft with catalog := catalog }
  | enter {draft} (document : Document) :
      Step policy draft { draft with catalog := draft.catalog.enter document }
  | leave {draft} : Step policy draft { draft with catalog := draft.catalog.leave }
  | name {draft document names} : policy.Allows draft document →
      policy.renames draft document names →
      Step policy draft
        { draft with extensionNames := Ordered.put draft.extensionNames document.key names }
  | intern {draft document id after} : policy.Allows draft document →
      Interns document draft id after → Step policy draft after
  | drafted {draft id rest place drafted inner} : draft.pending = id :: rest →
      draft.places[id]? = some place →
      Classes place.document
        { draft with pending := rest, catalog := draft.catalog.enter place.document }
        drafted inner →
      Step policy draft ({ inner with catalog := inner.catalog.leave }.fill id drafted)
  | nowhere {draft id rest} : draft.pending = id :: rest → draft.places[id]? = none →
      Step policy draft { draft with pending := rest }
  | resolved {draft id} (reference : String) : id < draft.places.length →
      Step policy draft
        { draft with resolved := Ordered.put draft.resolved reference id }

/-- Steps one after another. -/
abbrev Steps (policy : Policy) : Draft → Draft → Prop :=
  Relation.ReflTransGen (Step policy)

variable {policy : Policy} {draft after : Draft}

theorem Step.orderly (h : Step policy draft after) (orderly : draft.Orderly []) :
    after.Orderly [] := by
  cases h with
  | find hmoves => exact orderly.surroundings hmoves.grows.document?
  | enter => exact orderly.surroundings id
  | leave => exact orderly.surroundings id
  | name => exact orderly.surroundings id
  | intern _ hid => exact orderly.grows hid.grows
  | @drafted id rest place drafted inner hpending hplace hclass =>
    have grows : Draft.Grows { draft with pending := rest }
        { inner with catalog := inner.catalog.leave } := .leave hclass.grows
    have hin : inner.places[id]? = some place := grows.getElem? hplace
    exact ((orderly.pop hpending).grows grows).fill hin
      ⟨_, inner, hclass, .leave inner inner.following⟩
  | nowhere hpending hplace =>
    have hopen := ((orderly.pending _).mp (hpending ▸ List.mem_cons_self)).1
    simp [Draft.IsOpen, hplace] at hopen
  | resolved reference hid =>
    refine ⟨orderly.distinct, orderly.unlinked, orderly.nodup, orderly.pending, orderly.busy,
      ?_, ?_⟩
    · exact fun place hplace drafted hdrafted =>
        (orderly.drafted place hplace drafted hdrafted).mono ⟨rfl, id, id⟩
    · intro entry hentry
      obtain hentry | rfl := Ordered.mem_of_mem_put hentry
      · exact orderly.resolved entry hentry
      · exact hid

theorem Steps.orderly (h : Steps policy draft after) (orderly : draft.Orderly []) :
    after.Orderly [] := by
  induction h with
  | refl => exact orderly
  | tail _ step ih => exact step.orderly ih

/-- What is known stays known, and what a class's place is for never changes. -/
theorem Step.within (h : Step policy draft after) : draft.Within after := by
  cases h with
  | find hmoves => exact ⟨rfl, fun known => known.mono hmoves.grows, id⟩
  | enter | leave | name | nowhere | resolved => exact ⟨rfl, id, id⟩
  | intern _ hid => exact hid.grows.within
  | @drafted next rest place drafted inner hpending hplace hclass =>
    have hinner : draft.Within inner := ⟨hclass.grows.naming, hclass.grows.within.knows,
      hclass.grows.within.holds⟩
    have hfill := Draft.fill_within { inner with catalog := inner.catalog.leave } next drafted
    exact (hinner.trans (.leave inner inner.following)).trans hfill

theorem Steps.within (h : Steps policy draft after) : draft.Within after := by
  induction h with
  | refl => exact .refl draft
  | tail _ step ih => exact ih.trans step.within

theorem Step.sameTexts (h : Step policy draft after) :
    draft.catalog.SameTexts after.catalog := by
  cases h with
  | find hmoves => exact hmoves.grows.sameTexts
  | enter | leave | name | nowhere | resolved => exact ⟨rfl, rfl⟩
  | intern _ hid => exact hid.grows.catalog.sameTexts
  | drafted _ _ hclass =>
    have grows := hclass.grows.catalog
    exact ⟨grows.files, grows.downloads⟩

theorem Steps.sameTexts (h : Steps policy draft after) :
    draft.catalog.SameTexts after.catalog := by
  induction h with
  | refl => exact .refl _
  | tail _ step ih => exact ih.trans step.sameTexts

/-- Only the catalog takes steps. -/
def Looks (strangers : Prop) (draft after : Draft) : Prop :=
  ∃ catalog, Relation.ReflTransGen (Catalog.Moves strangers) draft.catalog catalog ∧
    after = { draft with catalog := catalog }

namespace Looks

variable {strangers : Prop}

theorem refl (draft : Draft) : Looks strangers draft draft := ⟨draft.catalog, .refl, rfl⟩

theorem move {catalog : Catalog} (h : draft.catalog.Moves strangers catalog) :
    Looks strangers draft { draft with catalog := catalog } :=
  ⟨catalog, .single h, rfl⟩

theorem trans {between : Draft} (h : Looks strangers draft between)
    (k : Looks strangers between after) : Looks strangers draft after := by
  obtain ⟨first, hfirst, rfl⟩ := h
  obtain ⟨second, hsecond, rfl⟩ := k
  exact ⟨second, hfirst.trans hsecond, rfl⟩

theorem steps (h : Looks policy.strangers draft after) : Steps policy draft after := by
  obtain ⟨catalog, hmoves, rfl⟩ := h
  induction hmoves with
  | refl => exact .refl
  | tail _ hmove ih => exact .tail ih (.find hmove)

end Looks

section

variable {strangers : Prop} {depth : Nat}

theorem load_looks {reference : String} {found : Option Document}
    (h : load reference draft = some (found, after)) : Looks strangers draft after := by
  obtain ⟨-, rfl⟩ := load_inv h
  exact .move (.load reference)

theorem tell_looks {messages : List Message} {u : Unit}
    (h : tell messages draft = some (u, after)) : Looks strangers draft after := by
  obtain rfl := tell_inv h
  exact .move (.tell messages)

theorem draftAt_inv {id : ClassId} {u : Unit} (h : draftAt depth id draft = some (u, after)) :
    draft.places[id]? = none ∧ after = draft ∨
      ∃ place drafted inner, draft.places[id]? = some place ∧
        classOf depth place.document
          { draft with catalog := draft.catalog.enter place.document } = some (drafted, inner) ∧
        after = { inner with catalog := inner.catalog.leave }.fill id drafted := by
  unfold draftAt at h
  rw [get_bind] at h
  cases hplace : draft.places[id]? with
  | none =>
    simp only [hplace] at h
    obtain ⟨-, rfl⟩ := pure_inv h
    exact .inl ⟨rfl, rfl⟩
  | some place =>
    simp only [hplace] at h
    obtain ⟨drafted, between, hdrafted, h⟩ := bind_inv h
    obtain rfl := modify_inv h
    obtain ⟨inner, hclass, rfl⟩ := inContext_inv hdrafted
    exact .inr ⟨place, drafted, inner, rfl, hclass, rfl⟩

/-- The next class is taken off the pending ones and drafted, and what is left is drained. -/
theorem drain_inv {u : Unit} (h : drain (depth + 1) draft = some (u, after)) :
    draft.pending = [] ∧ after = draft ∨
      ∃ id rest between, draft.pending = id :: rest ∧
        draftAt depth id { draft with pending := rest } = some ((), between) ∧
        drain depth between = some ((), after) := by
  rw [drain, get_bind] at h
  cases hpending : draft.pending with
  | nil =>
    simp only [hpending] at h
    exact .inl ⟨rfl, (pure_inv h).2⟩
  | cons id rest =>
    simp only [hpending] at h
    obtain ⟨_, popped, hpop, h⟩ := bind_inv h
    obtain rfl := modify_inv hpop
    obtain ⟨_, between, hdrafted, h⟩ := bind_inv h
    exact .inr ⟨id, rest, between, rfl, hdrafted, h⟩

/-- The ways in which resolving a reference ends. -/
inductive Resolves (depth : Nat) (reference : String) (draft : Draft) :
    Option ClassId → Draft → Prop
  | known {id} : Ordered.get? draft.resolved reference = some id →
      Resolves depth reference draft (some id) draft
  | missing {loaded} : Ordered.get? draft.resolved reference = none →
      load reference draft = some (none, loaded) → Resolves depth reference draft none loaded
  | lost {document loaded interned} : Ordered.get? draft.resolved reference = none →
      load reference draft = some (some document, loaded) → Interns document loaded none interned →
      Resolves depth reference draft none interned
  | drained {document loaded id interned drained} :
      Ordered.get? draft.resolved reference = none →
      load reference draft = some (some document, loaded) →
      Interns document loaded (some id) interned → drain depth interned = some ((), drained) →
      Resolves depth reference draft (some id)
        { drained with resolved := Ordered.put drained.resolved reference id }

theorem resolve_resolves {reference : String} {found : Option ClassId}
    (h : resolve depth reference draft = some (found, after)) :
    Resolves depth reference draft found after := by
  unfold resolve at h
  rw [get_bind] at h
  cases hresolved : Ordered.get? draft.resolved reference with
  | some id =>
    simp only [hresolved] at h
    obtain ⟨rfl, rfl⟩ := pure_inv h
    exact .known hresolved
  | none =>
    simp only [hresolved] at h
    obtain ⟨document, loaded, hload, h⟩ := bind_inv h
    cases document with
    | none =>
      obtain ⟨rfl, rfl⟩ := pure_inv h
      exact .missing hresolved hload
    | some document =>
      obtain ⟨id, interned, hintern, h⟩ := bind_inv h
      cases id with
      | none =>
        obtain ⟨rfl, rfl⟩ := pure_inv h
        exact .lost hresolved hload (intern_interns hintern)
      | some id =>
        obtain ⟨_, drained, hdrain, h⟩ := bind_inv h
        obtain ⟨_, noted, hnote, h⟩ := bind_inv h
        obtain rfl := modify_inv hnote
        obtain ⟨rfl, rfl⟩ := pure_inv h
        exact .drained hresolved hload (intern_interns hintern) hdrain

theorem resolveExtension_inv {document : Document} {names : ExtensionNames}
    {found : Option ClassId}
    (h : resolveExtension depth document names draft = some (found, after)) :
    ∃ interned,
      Interns document
        { draft with extensionNames := Ordered.put draft.extensionNames document.key names }
        found interned ∧
      (found = none ∧ after = interned ∨
        ∃ id, found = some id ∧ drain depth interned = some ((), after)) := by
  unfold resolveExtension at h
  obtain ⟨_, named, hname, h⟩ := bind_inv h
  obtain rfl := modify_inv hname
  obtain ⟨id, interned, hintern, h⟩ := bind_inv h
  have hid := intern_interns hintern
  cases id with
  | none =>
    obtain ⟨rfl, rfl⟩ := pure_inv h
    exact ⟨_, hid, .inl ⟨rfl, rfl⟩⟩
  | some id =>
    obtain ⟨_, drained, hdrain, h⟩ := bind_inv h
    obtain ⟨rfl, rfl⟩ := pure_inv h
    exact ⟨interned, hid, .inr ⟨id, rfl, hdrain⟩⟩

theorem draftAt_steps {id : ClassId} {rest : List ClassId} {u : Unit}
    (hpending : draft.pending = id :: rest)
    (h : draftAt depth id { draft with pending := rest } = some (u, after)) :
    Steps policy draft after := by
  obtain ⟨hplace, rfl⟩ | ⟨place, drafted, inner, hplace, hclass, rfl⟩ := draftAt_inv h
  · exact .single (.nowhere hpending hplace)
  · exact .single (.drafted hpending hplace (classOf_classes hclass))

theorem drain_steps {u : Unit} (h : drain depth draft = some (u, after)) :
    Steps policy draft after ∧ after.pending = [] := by
  induction depth generalizing draft with
  | zero => cases h
  | succ depth ih =>
    obtain ⟨hpending, rfl⟩ | ⟨id, rest, between, hpending, hdrafted, h⟩ := drain_inv h
    · exact ⟨.refl, hpending⟩
    · obtain ⟨hsteps, hempty⟩ := ih h
      exact ⟨(draftAt_steps hpending hdrafted).trans hsteps, hempty⟩

theorem drain_idle {u : Unit} (hpending : draft.pending = [])
    (h : drain depth draft = some (u, after)) : after = draft := by
  cases depth with
  | zero => cases h
  | succ depth =>
    rw [drain, get_bind, hpending] at h
    exact (pure_inv h).2

end

end SchemaClasses.Drafting
