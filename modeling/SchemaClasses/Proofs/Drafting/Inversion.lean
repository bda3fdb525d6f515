import SchemaClasses.Draft.Class

/-!
# Ends of actions on a draft

An action that comes to its end has a result and leaves a draft behind. The lemmas here take an end
apart into the ends of the steps of the action, and say what the steps that need no recursion do. An
action that runs into its bound has no end, so every statement is about ends only.
-/

namespace SchemaClasses.Drafting

variable {α β : Type} {draft after : Draft}

/-- The end of a sequence of two actions has an end of the first in it. -/
theorem bind_inv {first : Drafting α} {next : α → Drafting β} {last : β × Draft}
    (h : (first >>= next) draft = some last) :
    ∃ result between, first draft = some (result, between) ∧ next result between = some last := by
  change (first draft).bind (fun middle => next middle.1 middle.2) = some last at h
  obtain ⟨⟨result, between⟩, hfirst, hnext⟩ := Option.bind_eq_some_iff.mp h
  exact ⟨result, between, hfirst, hnext⟩

theorem map_inv {action : Drafting α} {f : α → β} {result : β}
    (h : (f <$> action) draft = some (result, after)) :
    ∃ inner, action draft = some (inner, after) ∧ result = f inner := by
  rw [map_eq_pure_bind] at h
  obtain ⟨inner, between, haction, hpure⟩ := bind_inv h
  cases hpure
  exact ⟨inner, haction, rfl⟩

theorem pure_inv {a result : α} (h : (pure a : Drafting α) draft = some (result, after)) :
    result = a ∧ after = draft := by
  cases h
  exact ⟨rfl, rfl⟩

theorem get_bind {next : Draft → Drafting β} :
    ((get : Drafting Draft) >>= next) draft = next draft draft := rfl

theorem modify_inv {f : Draft → Draft} {u : PUnit}
    (h : (modify f : Drafting PUnit) draft = some (u, after)) : after = f draft := by
  cases h
  rfl

theorem set_inv {next : Draft} {u : PUnit}
    (h : (set next : Drafting PUnit) draft = some (u, after)) : after = next := by
  cases h
  rfl

theorem watch_inv {moment : Draft → Moment} {u : Unit}
    (h : watch moment draft = some (u, after)) : after = draft := by
  cases h
  rfl

theorem onCatalog_inv {step : Catalog → α × Catalog} {result : α}
    (h : onCatalog step draft = some (result, after)) :
    result = (step draft.catalog).1 ∧ after = { draft with catalog := (step draft.catalog).2 } := by
  cases h
  exact ⟨rfl, rfl⟩

theorem load_inv {reference : String} {found : Option Document}
    (h : load reference draft = some (found, after)) :
    found = (draft.catalog.load reference).1 ∧
      after = { draft with catalog := (draft.catalog.load reference).2 } := by
  obtain ⟨_, watched, hwatch, hload⟩ := bind_inv h
  obtain rfl := watch_inv hwatch
  exact onCatalog_inv hload

theorem insert_inv {document known : Document}
    (h : insert document draft = some (known, after)) :
    known = (draft.catalog.insert document).1 ∧
      after = { draft with catalog := (draft.catalog.insert document).2 } :=
  onCatalog_inv h

theorem warn_inv {warning : Warning} {u : Unit}
    (h : warn warning draft = some (u, after)) :
    after = { draft with catalog := draft.catalog.warn warning } :=
  (onCatalog_inv h).2

theorem tell_inv {messages : List Message} {u : Unit}
    (h : tell messages draft = some (u, after)) :
    after = { draft with catalog := draft.catalog.tell messages } :=
  (onCatalog_inv h).2

theorem warn_pure_inv {warning : Warning} {a result : α}
    (h : (do warn warning; pure a : Drafting α) draft = some (result, after)) :
    result = a ∧ after = { draft with catalog := draft.catalog.warn warning } := by
  obtain ⟨u, between, hwarn, hpure⟩ := bind_inv h
  obtain ⟨rfl, rfl⟩ := pure_inv hpure
  exact ⟨rfl, warn_inv hwarn⟩

theorem enumerationOf_inv {label name scope : String} {fragment : Json} {default : Option Json}
    {found : Option Enumeration}
    (h : enumerationOf label name scope fragment default draft = some (found, after)) :
    (∃ e, Enumeration.ofFragment name scope fragment default = .ok e ∧ found = some e ∧
        after = draft) ∨
      ∃ fault, Enumeration.ofFragment name scope fragment default = .error fault ∧ found = none ∧
        after = { draft with catalog := draft.catalog.warn (.enumeration label fault) } := by
  unfold enumerationOf at h
  cases hread : Enumeration.ofFragment name scope fragment default with
  | ok e =>
    simp only [hread] at h
    obtain ⟨rfl, rfl⟩ := pure_inv h
    exact .inl ⟨e, rfl, rfl, rfl⟩
  | error fault =>
    simp only [hread] at h
    obtain ⟨rfl, rfl⟩ := warn_pure_inv h
    exact .inr ⟨fault, rfl, rfl, rfl⟩

theorem inContext_inv {document : Document} {action : Drafting α} {result : α}
    (h : inContext document action draft = some (result, after)) :
    ∃ inner, action { draft with catalog := draft.catalog.enter document } = some (result, inner) ∧
      after = { inner with catalog := inner.catalog.leave } := by
  obtain ⟨_, entered, henter, h⟩ := bind_inv h
  obtain ⟨value, inner, haction, h⟩ := bind_inv h
  obtain ⟨_, left, hleave, h⟩ := bind_inv h
  obtain ⟨rfl, rfl⟩ := pure_inv h
  obtain rfl := (onCatalog_inv henter).2
  exact ⟨inner, haction, (onCatalog_inv hleave).2⟩

theorem whileFollowing_inv {key : String} {action : Drafting α} {result : α}
    (h : whileFollowing key action draft = some (result, after)) :
    ∃ inner, action { draft with following := key :: draft.following } = some (result, inner) ∧
      after = { inner with following := inner.following.tail } := by
  obtain ⟨_, entered, henter, h⟩ := bind_inv h
  obtain ⟨_, watched, hwatch, h⟩ := bind_inv h
  obtain ⟨value, inner, haction, h⟩ := bind_inv h
  obtain ⟨_, left, hleave, h⟩ := bind_inv h
  obtain ⟨rfl, rfl⟩ := pure_inv h
  obtain rfl := watch_inv hwatch
  obtain rfl := modify_inv henter
  exact ⟨inner, haction, modify_inv hleave⟩

end SchemaClasses.Drafting
