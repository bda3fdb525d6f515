import SchemaClasses.Proofs.Drafting.Grafts
import SchemaClasses.Proofs.Drafting.Run

/-!
# Calls on drafts

A reference or an extension is resolved by a call, which drains what it leaves pending before it
returns. Said once for all calls: a call takes steps, nothing is pending after it when nothing was
before it, and every class that it gives out has a place. Calls that follow one another do the same.
-/

namespace SchemaClasses.Drafting

variable {policy : Policy} {draft after : Draft} {depth : Nat}

/-- What a call does to a draft in which nothing is pending, giving out classes. -/
structure Completes (policy : Policy) (draft : Draft) (ids : List ClassId) (after : Draft) :
    Prop where
  steps : Steps policy draft after
  pending : after.pending = []
  holds : ∀ id ∈ ids, ∃ key, after.Holds id key

namespace Completes

theorem refl (hpending : draft.pending = []) : Completes policy draft [] draft :=
  ⟨.refl, hpending, by simp⟩

theorem trans {between : Draft} {first second : List ClassId}
    (h : Completes policy draft first between) (k : Completes policy between second after) :
    Completes policy draft (first ++ second) after := by
  refine ⟨h.steps.trans k.steps, k.pending, fun id hid => ?_⟩
  rcases List.mem_append.mp hid with hid | hid
  · obtain ⟨key, holds⟩ := h.holds id hid
    exact ⟨key, k.steps.within.holds holds⟩
  · exact k.holds id hid

theorem of_looks (hpending : draft.pending = []) (h : Looks policy.strangers draft after) :
    Completes policy draft [] after := by
  have hsteps := h.steps
  obtain ⟨catalog, -, rfl⟩ := h
  exact ⟨hsteps, hpending, by simp⟩

theorem looks {between : Draft} {ids : List ClassId} (h : Completes policy draft ids between)
    (k : Looks policy.strangers between after) : Completes policy draft ids after := by
  simpa using h.trans (.of_looks h.pending k)

end Completes

theorem Interns.pending {document : Document} (h : Interns document draft none after) :
    after.pending = draft.pending := by
  obtain ⟨catalog, -, rfl⟩ := h.learns
  rfl

theorem Interns.completes_none {document : Document} (h : Interns document draft none after)
    (hpending : draft.pending = []) (allowed : policy.Allows draft document) :
    Completes policy draft [] after :=
  ⟨.single (.intern allowed h), h.pending.trans hpending, by simp⟩

theorem Interns.completes {document : Document} {id : ClassId} {interned : Draft} {u : Unit}
    (h : Interns document draft (some id) interned) (allowed : policy.Allows draft document)
    (hdrain : drain depth interned = some (u, after)) : Completes policy draft [id] after := by
  obtain ⟨hsteps, hempty⟩ := drain_steps hdrain
  refine ⟨.head (.intern allowed h) hsteps, hempty, fun other hother => ?_⟩
  obtain rfl := List.mem_singleton.mp hother
  obtain ⟨key, holds⟩ := h.has
  exact ⟨key, hsteps.within.holds holds⟩

theorem resolve_completes {reference : String} {found : Option ClassId}
    (orderly : draft.Orderly []) (hpending : draft.pending = [])
    (h : resolve depth reference draft = some (found, after)) :
    Completes policy draft found.toList after := by
  have hloaded {found : Option Document} {loaded : Draft}
      (hload : load reference draft = some (found, loaded)) :
      Completes policy draft [] loaded := .of_looks hpending (load_looks hload)
  cases resolve_resolves h with
  | @known id hresolved =>
    refine ⟨.refl, hpending, fun other hother => ?_⟩
    obtain rfl := List.mem_singleton.mp hother
    exact Draft.has_of_lt (orderly.resolved _ (Ordered.mem_of_get? hresolved))
  | missing _ hload => exact hloaded hload
  | lost _ hload hid =>
    have hbefore := hloaded hload
    exact hbefore.trans (hid.completes_none hbefore.pending (.inr (load_knows hload)))
  | @drained _ _ id _ _ _ hload hid hdrain =>
    have hdrained : Completes policy draft [id] _ :=
      (hloaded hload).trans (hid.completes (.inr (load_knows hload)) hdrain)
    obtain ⟨key, holds⟩ := hdrained.holds id List.mem_cons_self
    exact ⟨hdrained.steps.tail (.resolved reference holds.lt), hdrained.pending, hdrained.holds⟩

theorem resolveExtension_completes {document : Document} {names : ExtensionNames}
    {found : Option ClassId} (hpending : draft.pending = [])
    (allowed : policy.Allows draft document) (renames : policy.renames draft document names)
    (h : resolveExtension depth document names draft = some (found, after)) :
    Completes policy draft found.toList after := by
  have hnamed : Completes policy draft []
      { draft with
        extensionNames := Ordered.put draft.extensionNames document.key names } :=
    ⟨.single (.name allowed renames), hpending, by simp⟩
  obtain ⟨interned, hid, ⟨rfl, rfl⟩ | ⟨id, rfl, hdrain⟩⟩ := resolveExtension_inv h
  · exact hnamed.trans (hid.completes_none hpending allowed)
  · exact hnamed.trans (hid.completes allowed hdrain)

section

variable {strangers : Prop}

theorem attachTo_looks {registry attached : Registry} {a : Attachment} {host : String}
    (h : attachTo registry a host draft = some (attached, after)) :
    Looks strangers draft after := by
  cases attachTo_attaches h with
  | missing hload | untitled hload | titled hload =>
    exact (load_looks hload).trans (.move (.tell _))

theorem Attaches.knows {registry attached : Registry} {a : Attachment} {host : String}
    {document : Document} (h : Attaches a host registry draft attached after)
    (hfound : (draft.catalog.load (host ++ ".schema.json")).1 = some document) :
    after.catalog.Knows document := by
  cases h with
  | missing hload => cases (load_inv hload).1.trans hfound
  | untitled hload | titled hload =>
    cases (load_inv hload).1.trans hfound
    exact (load_knows hload).mono (Catalog.tell_grows _ _)

theorem attachAll_looks {hosts : List String} {registry attached : Registry} {a : Attachment}
    (h : hosts.foldlM (attachTo · a) registry draft = some (attached, after)) :
    Looks strangers draft after := by
  induction hosts generalizing registry draft with
  | nil =>
    obtain ⟨-, rfl⟩ := pure_inv h
    exact .refl _
  | cons host hosts ih =>
    rw [List.foldlM_cons] at h
    obtain ⟨between, middle, hfirst, h⟩ := bind_inv h
    exact (attachTo_looks hfirst).trans (ih h)

end

/-- Whenever the document of an extension is found, the policy lets it be named. -/
def Policy.AllowsNames (policy : Policy) (e : ExtensionSettings) (draft : Draft) : Prop :=
  ∀ document after, onCatalog (·.loadExtension e.schema (some e.extensionName)) draft =
    some (some document, after) → policy.renames after document ⟨e.className, e.extensionName⟩

theorem loadExtension_completes {e : ExtensionSettings} {found : Option Document}
    (hpending : draft.pending = [])
    (h : onCatalog (·.loadExtension e.schema (some e.extensionName)) draft = some (found, after)) :
    Completes policy draft [] after := by
  obtain ⟨-, rfl⟩ := onCatalog_inv h
  exact .of_looks hpending (.move (.loadExtension _ _))

theorem loadedExtension_completes {e : ExtensionSettings} {document : Document} {loaded : Draft}
    {found : Option ClassId} (hpending : draft.pending = []) (allows : policy.AllowsNames e draft)
    (hload : onCatalog (·.loadExtension e.schema (some e.extensionName)) draft =
      some (some document, loaded))
    (hresolve : resolveExtension depth document ⟨e.className, e.extensionName⟩ loaded =
      some (found, after)) : Completes policy draft found.toList after := by
  have hloaded : Completes policy draft [] loaded := loadExtension_completes hpending hload
  have hfinds := draft.catalog.loadExtension_finds e.schema (some e.extensionName)
  have renames := allows document loaded hload
  obtain ⟨hfound, rfl⟩ := onCatalog_inv hload
  exact hloaded.trans (resolveExtension_completes hpending
    (.inr (hfinds.knows document hfound.symm)) renames hresolve)

/-- An extension adds its class, if it has one. -/
theorem graftOne_completes {grafted result : Grafted} {e : ExtensionSettings}
    (hpending : draft.pending = []) (allows : policy.AllowsNames e draft)
    (h : graftOne depth grafted e draft = some (result, after)) :
    ∃ ids, result.classes = grafted.classes ++ ids ∧ Completes policy draft ids after := by
  cases graftOne_grafts h with
  | missing hload =>
    exact ⟨[], (List.append_nil _).symm,
      (loadExtension_completes hpending hload).looks (.move (.tell _))⟩
  | unresolved hload hresolve =>
    exact ⟨[], (List.append_nil _).symm,
      (loadedExtension_completes hpending allows hload hresolve).looks (.move (.tell _))⟩
  | @unnamed _ _ id _ hload hresolve =>
    exact ⟨[id], rfl, loadedExtension_completes hpending allows hload hresolve⟩
  | @attached _ _ id _ _ _ _ hload hresolve _ hattach =>
    exact ⟨[id], rfl,
      (loadedExtension_completes hpending allows hload hresolve).looks (attachAll_looks hattach)⟩

/-- The policy lets extensions be named that are grafted one after another. -/
def Policy.AllowsAll (policy : Policy) (depth : Nat) (grafted : Grafted)
    (extensions : List ExtensionSettings) (draft : Draft) : Prop :=
  ∀ before e later between middle, extensions = before ++ e :: later →
    before.foldlM (graftOne depth) grafted draft = some (between, middle) →
      policy.AllowsNames e middle

theorem Policy.known_allowsAll {grafted : Grafted} {extensions : List ExtensionSettings} :
    Policy.known.AllowsAll depth grafted extensions draft :=
  fun _ _ _ _ _ _ _ _ _ _ => trivial

theorem graftAll_completes {extensions : List ExtensionSettings} {grafted result : Grafted}
    (hpending : draft.pending = []) (allows : policy.AllowsAll depth grafted extensions draft)
    (h : extensions.foldlM (graftOne depth) grafted draft = some (result, after)) :
    ∃ ids, result.classes = grafted.classes ++ ids ∧ Completes policy draft ids after := by
  induction extensions generalizing grafted draft with
  | nil =>
    obtain ⟨rfl, rfl⟩ := pure_inv h
    exact ⟨[], (List.append_nil _).symm, .refl hpending⟩
  | cons e extensions ih =>
    rw [List.foldlM_cons] at h
    obtain ⟨middle, between, hfirst, h⟩ := bind_inv h
    obtain ⟨first, hclasses, hone⟩ :=
      graftOne_completes hpending (allows [] e extensions grafted draft rfl rfl) hfirst
    have hallows : policy.AllowsAll depth middle extensions between := by
      intro before e' later grafted' draft' hsplit hbefore
      refine allows (e :: before) e' later grafted' draft' (by rw [hsplit]; rfl) ?_
      rw [List.foldlM_cons]
      change (graftOne depth grafted e draft).bind _ = _
      rw [hfirst]
      exact hbefore
    obtain ⟨rest, hrest, hall⟩ := ih hone.pending hallows h
    exact ⟨first ++ rest, by rw [hrest, hclasses, List.append_assoc], hone.trans hall⟩

theorem graft_completes {extensions : List ExtensionSettings} {grafted : Grafted}
    (hpending : draft.pending = [])
    (allows : policy.AllowsAll depth ⟨[], .empty⟩ extensions draft)
    (h : graft depth extensions draft = some (grafted, after)) :
    Completes policy draft grafted.classes after := by
  obtain ⟨ids, hclasses, hall⟩ := graftAll_completes hpending allows h
  rw [hclasses]
  exact hall

end SchemaClasses.Drafting
