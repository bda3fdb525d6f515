import SchemaClasses.Catalog

/-!
# Growth of the catalog

A catalog only ever learns documents: what a key means once, it means from then on. Steps that find
or add documents and tell of it leave the files, the paths and the context as they are. A document
is known when its key means it; every document that a step of the catalog gives out is known.
-/

namespace SchemaClasses.Catalog

/-- What can be read in one catalog can be read in the other. -/
structure SameTexts (before after : Catalog) : Prop where
  files : after.files = before.files
  downloads : after.downloads = before.downloads

theorem SameTexts.refl (catalog : Catalog) : SameTexts catalog catalog := ⟨rfl, rfl⟩

theorem SameTexts.trans {before between after : Catalog} (h : SameTexts before between)
    (k : SameTexts between after) : SameTexts before after :=
  ⟨k.files.trans h.files, k.downloads.trans h.downloads⟩

theorem SameTexts.symm {before after : Catalog} (h : SameTexts before after) :
    SameTexts after before :=
  ⟨h.files.symm, h.downloads.symm⟩

/-- What a key means in one catalog it means in the other, in the same surroundings. -/
structure Grows (before after : Catalog) : Prop where
  files : after.files = before.files
  searchPaths : after.searchPaths = before.searchPaths
  extensionPaths : after.extensionPaths = before.extensionPaths
  downloads : after.downloads = before.downloads
  context : after.context = before.context
  log : before.log <+: after.log
  document? : ∀ {key document}, before.document? key = some document →
    after.document? key = some document

namespace Grows

theorem refl (catalog : Catalog) : Grows catalog catalog :=
  ⟨rfl, rfl, rfl, rfl, rfl, List.prefix_refl _, id⟩

theorem trans {before between after : Catalog} (h : Grows before between)
    (k : Grows between after) : Grows before after :=
  ⟨k.files.trans h.files, k.searchPaths.trans h.searchPaths,
    k.extensionPaths.trans h.extensionPaths, k.downloads.trans h.downloads,
    k.context.trans h.context, h.log.trans k.log, fun known => k.document? (h.document? known)⟩

theorem sameTexts {before after : Catalog} (h : Grows before after) : SameTexts before after :=
  ⟨h.files, h.downloads⟩

end Grows

theorem SameTexts.of_grows {catalog other after after' : Catalog} (h : SameTexts catalog other)
    (grows : Grows catalog after) (grows' : Grows other after') : SameTexts after after' where
  files := grows'.files.trans (h.files.trans grows.files.symm)
  downloads := grows'.downloads.trans (h.downloads.trans grows.downloads.symm)

/-- The key of a document means it. -/
def Knows (catalog : Catalog) (document : Document) : Prop :=
  catalog.document? document.key = some document

variable {catalog : Catalog} {document : Document}

theorem Knows.mono {after : Catalog} (h : catalog.Knows document) (grows : catalog.Grows after) :
    after.Knows document :=
  grows.document? h

theorem Knows.unique {other : Document} (h : catalog.Knows document) (k : catalog.Knows other)
    (key : document.key = other.key) : document = other := by
  rw [Knows, key, k] at h
  exact (Option.some.inj h).symm

theorem knows_of_document? {key : String} (h : catalog.document? key = some document) :
    catalog.Knows document := by
  have hkey : document.key = key := by simpa using List.find?_some h
  rw [Knows, hkey, h]

theorem not_knows_new (files : FileTree) (searchPaths extensionPaths : List String)
    (downloads : List (String × String)) (document : Document) :
    ¬(new files searchPaths extensionPaths downloads).Knows document := by
  simp [Knows, document?, new]

theorem document?_eq {after : Catalog} (h : after.documents = catalog.documents) (key : String) :
    after.document? key = catalog.document? key := by
  rw [document?, document?, h]

theorem tell_grows (catalog : Catalog) (messages : List Message) :
    catalog.Grows (catalog.tell messages) :=
  ⟨rfl, rfl, rfl, rfl, rfl, List.prefix_append _ _, id⟩

theorem warn_grows (catalog : Catalog) (warning : Warning) :
    catalog.Grows (catalog.warn warning) :=
  catalog.tell_grows _

theorem leave_grows {inner : Catalog} (h : (catalog.enter document).Grows inner) :
    catalog.Grows inner.leave :=
  ⟨h.files, h.searchPaths, h.extensionPaths, h.downloads, by rw [leave, h.context]; rfl, h.log,
    h.document?⟩

theorem add_grows (new : catalog.document? document.key = none) :
    catalog.Grows (catalog.add document) := by
  refine ⟨rfl, rfl, rfl, rfl, rfl, List.prefix_refl _, ?_⟩
  intro key known h
  have hkey : document.key ≠ key := by
    rintro rfl
    rw [new] at h
    cases h
  simpa [document?, add, List.find?_cons, hkey] using h

theorem add_knows (catalog : Catalog) (document : Document) :
    (catalog.add document).Knows document := by
  simp [Knows, document?, add]

theorem giveTitle_grows (catalog : Catalog) (document : Document) (title : String) :
    catalog.Grows (catalog.giveTitle document title) := by
  unfold giveTitle
  split
  · split
    · exact ⟨rfl, rfl, rfl, rfl, rfl, List.prefix_refl _, id⟩
    · exact ⟨rfl, rfl, rfl, rfl, rfl, List.prefix_append _ _, id⟩
  · exact ⟨rfl, rfl, rfl, rfl, rfl, List.prefix_refl _, id⟩

theorem addFile_grows (new : catalog.document? document.key = none) :
    catalog.Grows (catalog.addFile document) := by
  unfold addFile
  split
  · exact (add_grows new).trans (giveTitle_grows _ _ _)
  · exact add_grows new

theorem addFile_knows (catalog : Catalog) (document : Document) :
    (catalog.addFile document).Knows document := by
  unfold addFile
  split
  · exact (catalog.add_knows document).mono (giveTitle_grows _ _ _)
  · exact catalog.add_knows document

/-- A step that looks for a document: the catalog grows, and it knows what is found. -/
structure Finds (catalog : Catalog) (found : Option Document × Catalog) : Prop where
  grows : catalog.Grows found.2
  knows : ∀ document, found.1 = some document → found.2.Knows document

theorem insert_finds (catalog : Catalog) (document : Document) :
    catalog.Finds (some (catalog.insert document).1, (catalog.insert document).2) := by
  unfold insert
  split
  · rename_i known h
    refine ⟨.refl _, ?_⟩
    rintro _ ⟨⟩
    exact knows_of_document? h
  · refine ⟨add_grows ‹_›, ?_⟩
    rintro _ ⟨⟩
    exact catalog.add_knows document

theorem insert_key (catalog : Catalog) (document : Document) :
    (catalog.insert document).1.key = document.key := by
  unfold insert
  split
  · simpa using List.find?_some ‹catalog.document? document.key = _›
  · rfl

theorem loadLocation_finds (catalog : Catalog) (location : String) :
    catalog.Finds (catalog.loadLocation location) := by
  unfold loadLocation
  split
  · exact ⟨⟨rfl, rfl, rfl, rfl, rfl, List.prefix_refl _, id⟩, by simp⟩
  · split
    · rename_i document h
      refine ⟨.refl _, ?_⟩
      rintro _ ⟨⟩
      exact knows_of_document? h
    · rename_i new
      split
      · exact ⟨.refl _, by simp⟩
      · refine ⟨addFile_grows new, ?_⟩
        rintro _ ⟨⟩
        exact catalog.addFile_knows _

/-- What looking at one location keeps, looking at one after another keeps. -/
theorem loadFirst_keeps {kept : Catalog → Prop}
    (keeps : ∀ {catalog : Catalog}, kept catalog → ∀ location,
      kept (catalog.loadLocation location).2)
    (h : kept catalog) (locations : List String) : kept (catalog.loadFirst locations).2 := by
  induction locations generalizing catalog with
  | nil => exact h
  | cons location rest ih =>
    have hlocation := keeps h location
    rw [loadFirst]
    split
    · rename_i document between heq
      rwa [heq] at hlocation
    · rename_i between heq
      rw [heq] at hlocation
      exact ih hlocation

theorem loadFirst_finds (catalog : Catalog) (locations : List String) :
    catalog.Finds (catalog.loadFirst locations) := by
  induction locations generalizing catalog with
  | nil => exact ⟨.refl _, by simp [loadFirst]⟩
  | cons location rest ih =>
    have h := catalog.loadLocation_finds location
    rw [loadFirst]
    split
    · rename_i document after heq
      rwa [heq] at h
    · rename_i after heq
      rw [heq] at h
      exact ⟨h.grows.trans (ih after).grows, (ih after).knows⟩

theorem select_finds (known : catalog.Knows document) (fragment : String) :
    catalog.Finds (catalog.select document fragment) := by
  unfold select
  split
  · refine ⟨.refl _, ?_⟩
    rintro _ ⟨⟩
    exact known
  · dsimp only
    split
    · rename_i part h
      refine ⟨.refl _, ?_⟩
      rintro _ ⟨⟩
      exact knows_of_document? h
    · rename_i new
      split
      · exact ⟨catalog.warn_grows _, by simp⟩
      · refine ⟨add_grows new, ?_⟩
        rintro _ ⟨⟩
        exact catalog.add_knows _

theorem loadFrom_finds (catalog : Catalog) (reference : String) (locations : List String)
    (fragment : String) : catalog.Finds (catalog.loadFrom reference locations fragment) := by
  have h := catalog.loadFirst_finds locations
  unfold loadFrom
  split
  · rename_i document after heq
    rw [heq] at h
    have selected := select_finds (h.knows document rfl) fragment
    exact ⟨h.grows.trans selected.grows, selected.knows⟩
  · rename_i after heq
    rw [heq] at h
    exact ⟨h.grows.trans (after.warn_grows _), by simp⟩

theorem load_finds (catalog : Catalog) (reference : String) :
    catalog.Finds (catalog.load reference) := by
  unfold load
  dsimp only
  split
  · split
    · exact catalog.loadFrom_finds _ _ _
    · exact ⟨catalog.warn_grows _, by simp⟩
  · exact catalog.loadFrom_finds _ _ _

theorem loadExtension_finds (catalog : Catalog) (reference : String) (hint : Option String) :
    catalog.Finds (catalog.loadExtension reference hint) :=
  catalog.loadFrom_finds _ _ _

/-- A step that a catalog takes by itself. Documents that it has not found are added only when there
may be strangers. -/
inductive Moves (strangers : Prop) (catalog : Catalog) : Catalog → Prop
  | load (reference : String) : Moves strangers catalog (catalog.load reference).2
  | loadExtension (reference : String) (hint : Option String) :
      Moves strangers catalog (catalog.loadExtension reference hint).2
  | insert (document : Document) : strangers → Moves strangers catalog (catalog.insert document).2
  | tell (messages : List Message) : Moves strangers catalog (catalog.tell messages)

theorem Moves.grows {strangers : Prop} {after : Catalog} (h : Moves strangers catalog after) :
    catalog.Grows after := by
  cases h with
  | load reference => exact (catalog.load_finds reference).grows
  | loadExtension reference hint => exact (catalog.loadExtension_finds reference hint).grows
  | insert document => exact (catalog.insert_finds document).grows
  | tell messages => exact catalog.tell_grows messages

end SchemaClasses.Catalog
