import SchemaClasses.Proofs.Drafting.Inversion

/-!
# Watched runs

An action is the same code whether it is watched or not. A watched run comes to the end that the
plain one comes to, and gives the moments on the way, also when it runs into its bound. Both are
compared step by step: what the plain run has come to is known at every step of the watched one, so
whatever is proved of plain runs is at hand at each moment.
-/

namespace SchemaClasses

def Moment.draft : Moment → Draft
  | loading _ draft => draft
  | following draft => draft

/-- The end of an action, if it has one, and the moments that were seen. -/
structure Watched (α : Type) where
  moments : List Moment
  outcome? : Option α

namespace Watched

def andThen {α β : Type} (first : Watched α) (next : α → Watched β) : Watched β :=
  match first.outcome? with
  | none => ⟨first.moments, none⟩
  | some result => ⟨first.moments ++ (next result).moments, (next result).outcome?⟩

instance : Monad Watched where
  pure result := ⟨[], some result⟩
  bind := andThen

instance : Watching Watched where
  outOfDepth := ⟨[], none⟩
  watch moment := ⟨[moment], some ()⟩

end Watched

namespace Drafting

variable {α β : Type} {draft : Draft} {seen other : Moment → Prop}

theorem moments_bind_silent {first : DraftingT Watched α} {next : α → DraftingT Watched β}
    (h : ∀ result between, (next result between).moments = []) :
    ((first >>= next) draft).moments = (first draft).moments := by
  change ((first draft).andThen fun middle => next middle.1 middle.2).moments = _
  unfold Watched.andThen
  cases (first draft).outcome? with
  | none => rfl
  | some middle => simp [h]

/-- A watched action ends like the plain one, and only moments of one kind are seen. -/
structure Sees (watched : DraftingT Watched α) (plain : Drafting α) (draft : Draft)
    (seen : Moment → Prop) : Prop where
  ends : (watched draft).outcome? = plain draft
  moments : ∀ moment ∈ (watched draft).moments, seen moment

namespace Sees

theorem mono {watched : DraftingT Watched α} {plain : Drafting α}
    (h : Sees watched plain draft seen) (k : ∀ moment, seen moment → other moment) :
    Sees watched plain draft other :=
  ⟨h.ends, fun moment hmoment => k moment (h.moments moment hmoment)⟩

theorem silent {result : α} {after : Draft} {watched : DraftingT Watched α} {plain : Drafting α}
    (hwatched : watched draft = ⟨[], some (result, after)⟩)
    (hplain : plain draft = some (result, after)) : Sees watched plain draft seen := by
  refine ⟨by rw [hwatched, hplain], fun moment hmoment => ?_⟩
  rw [hwatched] at hmoment
  cases hmoment

theorem pure (result : α) : Sees (Pure.pure result) (Pure.pure result) draft seen :=
  silent rfl rfl

theorem modify (f : Draft → Draft) : Sees (modify f) (modify f) draft seen :=
  silent rfl rfl

theorem onCatalog (step : Catalog → α × Catalog) :
    Sees (onCatalog step) (onCatalog step) draft seen :=
  silent rfl rfl

theorem outOfDepth : Sees (outOfDepth : DraftingT Watched α) outOfDepth draft seen :=
  ⟨rfl, fun _ hmoment => absurd hmoment List.not_mem_nil⟩

theorem watch {moment : Draft → Moment} (h : seen (moment draft)) :
    Sees (watch moment) (watch moment) draft seen := by
  refine ⟨rfl, fun other hother => ?_⟩
  obtain rfl : other = moment draft := List.mem_singleton.mp hother
  exact h

/-- What comes second is seen from where the plain run has come to. -/
theorem bind {first : DraftingT Watched α} {first' : Drafting α} {next : α → DraftingT Watched β}
    {next' : α → Drafting β} (h : Sees first first' draft seen)
    (k : ∀ {result between}, first' draft = some (result, between) →
      Sees (next result) (next' result) between seen) :
    Sees (first >>= next) (first' >>= next') draft seen := by
  have hends := h.ends
  have hmoments := h.moments
  constructor
  · change ((first draft).andThen fun middle => next middle.1 middle.2).outcome? =
      (first' draft).bind fun middle => next' middle.1 middle.2
    unfold Watched.andThen
    cases hend : (first draft).outcome? with
    | none => rw [← hends, hend, Option.bind_none]
    | some middle =>
      rw [hend] at hends
      rw [← hends, Option.bind_some]
      exact (k hends.symm).ends
  · change ∀ moment ∈ ((first draft).andThen fun middle => next middle.1 middle.2).moments,
      seen moment
    unfold Watched.andThen
    cases hend : (first draft).outcome? with
    | none => exact hmoments
    | some middle =>
      rw [hend] at hends
      intro moment hmoment
      rcases List.mem_append.mp hmoment with hfirst | hnext
      · exact hmoments moment hfirst
      · exact (k hends.symm).moments moment hnext

theorem get_bind {next : Draft → DraftingT Watched β} {next' : Draft → Drafting β}
    (h : Sees (next draft) (next' draft) draft seen) :
    Sees (get >>= next) (get >>= next') draft seen := by
  refine bind (silent rfl rfl) fun hget => ?_
  obtain ⟨rfl, rfl⟩ := Prod.mk.inj (Option.some.inj hget)
  exact h

theorem map {watched : DraftingT Watched α} {plain : Drafting α} (f : α → β)
    (h : Sees watched plain draft seen) : Sees (f <$> watched) (f <$> plain) draft seen := by
  have hbind : Sees (watched >>= fun result => Pure.pure (f result))
      (plain >>= fun result => Pure.pure (f result)) draft seen := bind h fun _ => pure _
  exact hbind

theorem load {reference : String} (h : seen (.loading reference draft)) :
    Sees (load reference) (load reference) draft seen := by
  refine bind (watch h) fun hwatch => ?_
  obtain rfl := watch_inv hwatch
  exact onCatalog _

theorem inContext {document : Document} {watched : DraftingT Watched α} {plain : Drafting α}
    (h : Sees watched plain { draft with catalog := draft.catalog.enter document } seen) :
    Sees (inContext document watched) (inContext document plain) draft seen := by
  refine bind (onCatalog _) fun henter => ?_
  obtain rfl := (onCatalog_inv henter).2
  exact bind h fun _ => bind (onCatalog _) fun _ => pure _

theorem whileFollowing {key : String} {watched : DraftingT Watched α} {plain : Drafting α}
    (hseen : seen (.following { draft with following := key :: draft.following }))
    (h : Sees watched plain { draft with following := key :: draft.following } seen) :
    Sees (whileFollowing key watched) (whileFollowing key plain) draft seen := by
  refine bind (modify _) fun hfollow => ?_
  obtain rfl := modify_inv hfollow
  refine bind (watch hseen) fun hwatch => ?_
  obtain rfl := watch_inv hwatch
  exact bind h fun _ => bind (modify _) fun _ => pure _

end Sees

end Drafting

end SchemaClasses
