import SchemaClasses.Proofs.Drafting.Complete

/-!
# What a call leaves as it was

Resolving enters the context of one document after another and follows one schema after another, and
many of its ends come early. An action restores its surroundings when it leaves the context and the
schemas that are being followed as it found them, at whatever end it comes to. Actions put together
from such actions are such actions; so the whole of a call restores its surroundings because its
parts do. A call that gives out no class has not touched the places either.
-/

namespace SchemaClasses

/-- References are relative to the same documents, and the same schemas are being followed. -/
structure Draft.SameStacks (before after : Draft) : Prop where
  context : after.catalog.context = before.catalog.context
  following : after.following = before.following

namespace Draft.SameStacks

variable {before after : Draft}

theorem refl (draft : Draft) : SameStacks draft draft := ⟨rfl, rfl⟩

theorem trans {between : Draft} (h : SameStacks before between) (k : SameStacks between after) :
    SameStacks before after :=
  ⟨k.context.trans h.context, k.following.trans h.following⟩

theorem of_grows (h : before.Grows after) : SameStacks before after :=
  ⟨h.catalog.context, h.following⟩

end Draft.SameStacks

/-- The same documents have the same places, with the same classes in them, and the same classes are
known of references and pending. -/
structure Draft.SameClasses (before after : Draft) : Prop where
  places : after.places = before.places
  idOf? : ∀ key, after.idOf? key = before.idOf? key
  resolved : after.resolved = before.resolved
  pending : after.pending = before.pending

namespace Drafting

variable {α β : Type} {draft after : Draft} {depth : Nat}

/-- Wherever an action ends, the stacks are as they were. -/
def Restores (action : Drafting α) : Prop :=
  ∀ draft result after, action draft = some (result, after) → draft.SameStacks after

namespace Restores

theorem pure (a : α) : Restores (Pure.pure a) := by
  intro draft result after h
  obtain ⟨-, rfl⟩ := pure_inv h
  exact .refl _

theorem outOfDepth : Restores (outOfDepth : Drafting α) := by
  intro draft result after h
  cases h

theorem bind {first : Drafting α} {next : α → Drafting β} (hfirst : Restores first)
    (hnext : ∀ a, Restores (next a)) : Restores (first >>= next) := by
  intro draft result after h
  obtain ⟨a, between, ha, h⟩ := bind_inv h
  exact (hfirst draft a between ha).trans (hnext a between result after h)

theorem get_bind {next : Draft → Drafting β} (hnext : ∀ draft, Restores (next draft)) :
    Restores ((get : Drafting Draft) >>= next) := by
  intro draft result after h
  rw [Drafting.get_bind] at h
  exact hnext draft draft result after h

theorem modify {f : Draft → Draft} (hf : ∀ draft : Draft, draft.SameStacks (f draft)) :
    Restores (modify f : Drafting PUnit) := by
  intro draft result after h
  obtain rfl := modify_inv h
  exact hf draft

theorem of_grows {action : Drafting α}
    (h : ∀ draft result after, action draft = some (result, after) → draft.Grows after) :
    Restores action :=
  fun draft result after hend => .of_grows (h draft result after hend)

theorem load (reference : String) : Restores (load reference) :=
  of_grows fun _ _ _ => load_grows

theorem loadExtension (reference : String) (hint : Option String) :
    Restores (onCatalog (·.loadExtension reference hint)) := by
  refine of_grows fun draft result after h => ?_
  obtain ⟨-, rfl⟩ := onCatalog_inv h
  exact .of_catalog (draft.catalog.loadExtension_finds reference hint).grows

theorem tell (messages : List Message) : Restores (tell messages) := by
  refine of_grows fun draft result after h => ?_
  obtain rfl := tell_inv h
  exact .of_catalog (draft.catalog.tell_grows messages)

theorem warn (warning : Warning) : Restores (warn warning) := tell [.warning warning]

theorem foldlM {γ : Type} {step : β → γ → Drafting β} (hstep : ∀ b c, Restores (step b c))
    (items : List γ) (start : β) : Restores (items.foldlM step start) := by
  induction items generalizing start with
  | nil => exact pure start
  | cons item items ih =>
    rw [List.foldlM_cons]
    exact (hstep start item).bind ih

theorem inContext {action : Drafting α} (h : Restores action) (document : Document) :
    Restores (inContext document action) := by
  intro draft result after hend
  obtain ⟨inner, hinner, rfl⟩ := inContext_inv hend
  have hsame := h _ _ _ hinner
  exact ⟨congrArg List.tail hsame.context, hsame.following⟩

end Restores

/-! ### The parts of a call -/

theorem fragmentType_restores (owner : Owner) (path : String) (fragment : Json) (usage : Usage) :
    Restores (fragmentType owner depth path fragment usage) :=
  .of_grows fun _ _ _ h => (fragmentType_types h).grows

theorem intern_restores (document : Document) : Restores (intern depth document) :=
  .of_grows fun _ _ _ h => (intern_interns h).grows

theorem classOf_restores (document : Document) : Restores (classOf depth document) :=
  .of_grows fun _ _ _ h => (classOf_classes h).grows

theorem draftAt_restores (id : ClassId) : Restores (draftAt depth id) := by
  refine .get_bind fun draft => ?_
  cases draft.places[id]? with
  | none => exact .pure ()
  | some place =>
    refine ((classOf_restores place.document).inContext place.document).bind fun drafted => ?_
    exact .modify fun draft => ⟨rfl, rfl⟩

theorem drain_restores : Restores (drain depth) := by
  -- Every class that is drafted may leave more pending, so the induction is on the depth.
  induction depth with
  | zero => exact .outOfDepth
  | succ depth ih =>
    refine .get_bind fun draft => ?_
    cases draft.pending with
    | nil => exact .pure ()
    | cons id rest =>
      refine .bind (.modify fun draft => ⟨rfl, rfl⟩) fun _ => ?_
      exact (draftAt_restores id).bind fun _ => ih

theorem internDrain_restores (document : Document) {next : ClassId → Drafting (Option ClassId)}
    (hnext : ∀ id, Restores (next id)) :
    Restores (do
      match ← intern depth document with
      | none => return none
      | some id =>
        drain depth
        next id : Drafting (Option ClassId)) := by
  refine (intern_restores document).bind fun id => ?_
  cases id with
  | none => exact .pure none
  | some id => exact drain_restores.bind fun _ => hnext id

theorem resolve_restores (reference : String) : Restores (resolve depth reference) := by
  refine .get_bind fun draft => ?_
  cases Ordered.get? draft.resolved reference with
  | some id => exact .pure _
  | none =>
    refine (Restores.load reference).bind fun document => ?_
    cases document with
    | none => exact .pure none
    | some document =>
      refine internDrain_restores document fun id => ?_
      exact .bind (.modify fun draft => ⟨rfl, rfl⟩) fun _ => .pure (some id)

theorem resolveExtension_restores (document : Document) (names : ExtensionNames) :
    Restores (resolveExtension depth document names) := by
  refine .bind (.modify fun draft => ⟨rfl, rfl⟩) fun _ => ?_
  exact internDrain_restores document fun id => .pure (some id)

theorem attachTo_restores (registry : Registry) (a : Attachment) (host : String) :
    Restores (attachTo registry a host) := by
  refine (Restores.load _).bind fun document => ?_
  cases document with
  | none => exact (Restores.warn _).bind fun _ => .pure registry
  | some document =>
    cases htitle : document.title? with
    | none =>
      simp only [htitle]
      exact (Restores.warn _).bind fun _ => .pure registry
    | some title =>
      simp only [htitle]
      exact (Restores.tell _).bind fun _ => .pure _

theorem graftOne_restores (grafted : Grafted) (e : ExtensionSettings) :
    Restores (graftOne depth grafted e) := by
  refine (Restores.loadExtension _ _).bind fun document => ?_
  cases document with
  | none => exact (Restores.warn _).bind fun _ => .pure grafted
  | some document =>
    refine (resolveExtension_restores document _).bind fun id => ?_
    cases id with
    | none => exact (Restores.warn _).bind fun _ => .pure grafted
    | some id =>
      refine .get_bind fun draft => ?_
      cases draft.typeName? id with
      | none => exact .pure _
      | some typeName =>
        refine (Restores.foldlM (fun registry host => ?_) _ _).bind fun registry => .pure _
        exact attachTo_restores registry _ host

theorem graft_restores (extensions : List ExtensionSettings) :
    Restores (graft depth extensions) :=
  .foldlM graftOne_restores extensions _

/-! ### Calls without a class -/

theorem resolve_learns {reference : String}
    (h : resolve depth reference draft = some (none, after)) : draft.Learns after := by
  cases resolve_resolves h with
  | missing _ hload => exact load_learns hload
  | lost _ hload hid => exact (load_learns hload).trans hid.learns

theorem resolveExtension_learns {document : Document} {names : ExtensionNames}
    (h : resolveExtension depth document names draft = some (none, after)) :
    Draft.Learns
      { draft with extensionNames := Ordered.put draft.extensionNames document.key names }
      after := by
  obtain ⟨interned, hid, ⟨-, rfl⟩ | ⟨id, hsome, -⟩⟩ := resolveExtension_inv h
  · exact hid.learns
  · cases hsome

end Drafting

theorem Draft.Learns.sameClasses {draft after : Draft} (h : draft.Learns after) :
    draft.SameClasses after := by
  obtain ⟨catalog, -, rfl⟩ := h
  exact ⟨rfl, fun _ => rfl, rfl, rfl⟩

open Drafting

/-- Whatever the files hold, every end of a call, and of finding a type inside of one, leaves the
stacks as they were; and a call that gives out no class has left the classes alone. -/
theorem Drafting.stacks_and_classes_restored (depth : Nat) :
    (∀ reference, Restores (resolve depth reference)) ∧
      (∀ document names, Restores (resolveExtension depth document names)) ∧
      (∀ extensions, Restores (graft depth extensions)) ∧
      (∀ owner path fragment usage, Restores (fragmentType owner depth path fragment usage)) ∧
      (∀ reference draft after, resolve depth reference draft = some (none, after) →
        draft.SameClasses after) ∧
      ∀ document names draft after,
        resolveExtension depth document names draft = some (none, after) →
          draft.SameClasses after := by
  refine ⟨resolve_restores, resolveExtension_restores, graft_restores, fragmentType_restores,
    ?_, ?_⟩
  · intro reference draft after h
    exact (resolve_learns h).sameClasses
  · intro document names draft after h
    obtain ⟨places, idOf?, resolved, pending⟩ := (resolveExtension_learns h).sameClasses
    exact ⟨places, idOf?, resolved, pending⟩

/-- Two schemas that only refer to each other have no class. While another schema is being followed
in its own context, with a place pending, resolving one of them restores all of it. -/
theorem Drafting.restored_after_alias_circle :
    let files := FileTree.ofSchemas [("a", .referringTo "b"), ("b", .referringTo "a")]
    let own : Document := ⟨"/s/o", "/s/o", .number⟩
    let new := Draft.new (.new files ["/s"] []) .empty (.ofNamespace "N")
    let draft := { new.append own with
      catalog := new.catalog.enter own
      following := [own.key] }
    ∃ after, resolve 8 "a" draft = some (none, after) ∧
      after.catalog.warnings.map Warning.message = ["schema /s/a is an alias of itself"] ∧
      after.catalog.context = ["/s/o"] ∧ after.following = ["/s/o"] ∧
      draft.SameClasses after := by
  intro files own new draft
  have hrun : (resolve 8 "a" draft : Option _).map
      (fun result => (result.1, result.2.catalog.warnings.map Warning.message)) =
        some (none, ["schema /s/a is an alias of itself"]) := by
    decide +kernel
  obtain ⟨⟨found, after⟩, hcall, heq⟩ := Option.map_eq_some_iff.mp hrun
  obtain ⟨rfl, hwarnings⟩ := Prod.mk.inj heq
  obtain ⟨hrestores, -, -, -, hlearns, -⟩ := stacks_and_classes_restored 8
  have hsame := hrestores "a" draft none after hcall
  exact ⟨after, hcall, hwarnings, hsame.context, hsame.following, hlearns "a" draft after hcall⟩

end SchemaClasses
