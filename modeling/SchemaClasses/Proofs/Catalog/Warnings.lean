import SchemaClasses.Proofs.Catalog.Ledger

/-!
# What a catalog tells

A catalog that looks for a document says why when it finds none, and a document that it finds is no
reason for a warning, but for a title that two files share. What has been told since an earlier
catalog is what its warnings have been continued by.
-/

namespace SchemaClasses

namespace Warning

def isLost : Warning → Bool
  | noContext _ | notLoaded _ _ | noFragment _ _ => true
  | _ => false

def isShared : Warning → Bool
  | sharedTitle _ _ _ => true
  | _ => false

theorem isLost_of_isShared {warning : Warning} (h : warning.isShared = true) :
    warning.isLost = false := by
  cases warning <;> simp [isShared, isLost] at h ⊢

end Warning

namespace Catalog

def warningsSince (earlier later : Catalog) : List Warning :=
  later.warnings.drop earlier.warnings.length

variable {catalog between after : Catalog}

theorem warningsSince_of_log {messages : List Message}
    (h : after.log = catalog.log ++ messages) :
    catalog.warningsSince after = warningsOf messages := by
  simp [warningsSince, warnings, h, warningsOf_append]

theorem warnings_eq (h : catalog.Grows after) :
    after.warnings = catalog.warnings ++ catalog.warningsSince after := by
  obtain ⟨messages, hlog⟩ := h.log
  rw [warningsSince_of_log hlog.symm, warnings, ← hlog, warningsOf_append, warnings]

theorem warningsSince_trans (h : catalog.Grows between) (k : between.Grows after) :
    catalog.warningsSince after =
      catalog.warningsSince between ++ between.warningsSince after := by
  have hall : catalog.warnings ++ catalog.warningsSince after =
      catalog.warnings ++ (catalog.warningsSince between ++ between.warningsSince after) := by
    rw [← warnings_eq (h.trans k), ← List.append_assoc, ← warnings_eq h, ← warnings_eq k]
  exact List.append_cancel_left hall

theorem warningsSince_warn (catalog : Catalog) (warning : Warning) :
    catalog.warningsSince (catalog.warn warning) = [warning] := by
  have hlog : (catalog.warn warning).log = catalog.log ++ [.warning warning] := rfl
  exact warningsSince_of_log hlog

/-- No warning has been told since the earlier catalog but of shared titles. -/
def OnlyShares (earlier later : Catalog) : Prop :=
  ∀ warning ∈ earlier.warningsSince later, warning.isShared = true

theorem onlyShares_of_log (h : after.log = catalog.log) : catalog.OnlyShares after := by
  have hlog : after.log = catalog.log ++ [] := by rw [h, List.append_nil]
  intro warning hwarning
  rw [warningsSince_of_log hlog] at hwarning
  cases hwarning

theorem onlyShares_of_sharedTitle {title previous current : String}
    (h : after.log = catalog.log ++ [.warning (.sharedTitle title previous current)]) :
    catalog.OnlyShares after := by
  intro warning hwarning
  rw [warningsSince_of_log h] at hwarning
  obtain rfl := List.mem_singleton.mp hwarning
  rfl

theorem addFile_onlyShares (catalog : Catalog) (document : Document) :
    catalog.OnlyShares (catalog.addFile document) := by
  unfold addFile
  split
  · unfold giveTitle
    split
    · split
      · exact onlyShares_of_log rfl
      · exact onlyShares_of_sharedTitle rfl
    · exact onlyShares_of_log rfl
  · exact onlyShares_of_log rfl

theorem loadFirst_onlyShares (catalog : Catalog) (locations : List String) :
    catalog.OnlyShares (catalog.loadFirst locations).2 := by
  obtain ⟨missing, hfirst⟩ := catalog.loadFirst_eq locations
  rw [hfirst]
  cases hnew : catalog.newAmong? locations with
  | none => exact onlyShares_of_log rfl
  | some file => exact catalog.addFile_onlyShares file

/-- A step that looks for a document: it says why when it finds none, and tells nothing else but of
shared titles. -/
structure Tells (catalog : Catalog) (found : Option Document × Catalog) : Prop where
  only : ∀ warning ∈ catalog.warningsSince found.2, warning.isLost = true ∨ warning.isShared = true
  lost : (∃ warning ∈ catalog.warningsSince found.2, warning.isLost = true) ↔ found.1 = none

namespace Tells

theorem found {document : Document} (h : catalog.OnlyShares after) :
    catalog.Tells (some document, after) := by
  constructor
  · intro warning hwarning
    exact .inr (h warning hwarning)
  · simp only [reduceCtorEq, iff_false]
    intro ⟨warning, hwarning, hlost⟩
    cases (Warning.isLost_of_isShared (h warning hwarning)).symm.trans hlost

/-- What a failure tells after files have been added. -/
theorem lost_after {warning : Warning} (hgrows : catalog.Grows between)
    (h : catalog.OnlyShares between) (hlost : warning.isLost = true) :
    catalog.Tells (none, between.warn warning) := by
  have htold : catalog.warningsSince (between.warn warning) =
      catalog.warningsSince between ++ [warning] := by
    rw [warningsSince_trans hgrows (between.warn_grows warning), warningsSince_warn]
  constructor
  · intro other hother
    simp only [htold, List.mem_append, List.mem_singleton] at hother
    rcases hother with hother | rfl
    · exact .inr (h other hother)
    · exact .inl hlost
  · simp only [iff_true]
    exact ⟨warning, by simp [htold], hlost⟩

end Tells

theorem select_tells {document : Document} {fragment : String} (hgrows : catalog.Grows between)
    (h : catalog.OnlyShares between) : catalog.Tells (between.select document fragment) := by
  unfold select
  split
  · exact .found h
  · dsimp only
    split
    · exact .found h
    · split
      · exact .lost_after hgrows h rfl
      · exact .found h

theorem loadFrom_tells (catalog : Catalog) (reference : String) (locations : List String)
    (fragment : String) : catalog.Tells (catalog.loadFrom reference locations fragment) := by
  have hgrows := (catalog.loadFirst_finds locations).grows
  have hshared := catalog.loadFirst_onlyShares locations
  unfold loadFrom
  split
  · rename_i document between hfirst
    rw [hfirst] at hgrows hshared
    exact select_tells hgrows hshared
  · rename_i between hfirst
    rw [hfirst] at hgrows hshared
    exact .lost_after hgrows hshared rfl

theorem load_tells (catalog : Catalog) (reference : String) :
    catalog.Tells (catalog.load reference) := by
  unfold load
  dsimp only
  split
  · split
    · exact catalog.loadFrom_tells _ _ _
    · exact .lost_after (.refl _) (onlyShares_of_log rfl) rfl
  · exact catalog.loadFrom_tells _ _ _

end Catalog

end SchemaClasses
