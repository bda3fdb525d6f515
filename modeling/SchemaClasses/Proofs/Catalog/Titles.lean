import SchemaClasses.Proofs.Catalog.Sources

/-!
# Titles of files

A file with a title is known by it, until another file with the same title takes it. That is
recorded as a collision, so every file that has been loaded is known by its title or has lost it in
a collision; and as long as none is recorded, no two of the files have the same title. Fragments of
files and objects declared at properties are not known by their titles, and may share them with each
other and with files.
-/

namespace SchemaClasses

/-- The document is a whole file, and no part of one. -/
def Document.IsFile (document : Document) : Prop := document.source = document.key

namespace Catalog

/-- A title means a known document that has it, and a known file that has a title is what the title
means, or another file has taken it. -/
structure Accounted (catalog : Catalog) : Prop where
  held : ∀ title document, catalog.byTitle? title = some document →
    catalog.Knows document ∧ document.title? = some title
  owned : ∀ document title, catalog.Knows document → document.IsFile →
    document.title? = some title → catalog.byTitle? title = some document ∨
      ∃ entry ∈ catalog.collisions, entry.title = title ∧ entry.previous = document.key

/-- As long as no title was taken from a file, the file that a title means is every known file that
has the title. -/
def Titled (catalog : Catalog) : Prop :=
  catalog.collisions = [] → ∀ document title, catalog.Knows document → document.IsFile →
    document.title? = some title → catalog.byTitle? title = some document

variable {catalog after : Catalog} {document : Document}

theorem documents_giveTitle (catalog : Catalog) (document : Document) (title : String) :
    (catalog.giveTitle document title).documents = catalog.documents := by
  unfold giveTitle
  split
  · split <;> rfl
  · rfl

theorem byTitle?_giveTitle (catalog : Catalog) (document : Document) (title other : String) :
    (catalog.giveTitle document title).byTitle? other =
      if title = other then some document else catalog.byTitle? other := by
  have htitles : (catalog.giveTitle document title).titles =
      Ordered.put catalog.titles title document := by
    unfold giveTitle
    split
    · split <;> rfl
    · rfl
  rw [byTitle?, htitles, Ordered.get?_put, byTitle?]

theorem collisions_giveTitle (catalog : Catalog) (document : Document) (title : String) :
    (catalog.giveTitle document title).collisions = catalog.collisions ++
      ((catalog.byTitle? title).filter (·.key ≠ document.key)).toList.map fun previous =>
        ⟨title, previous.key, document.key⟩ := by
  unfold giveTitle
  cases catalog.byTitle? title with
  | none => simp
  | some previous => by_cases hkey : previous.key = document.key <;> simp [Option.filter, hkey]

theorem byTitle?_addFile (catalog : Catalog) (document : Document) (title : String) :
    (catalog.addFile document).byTitle? title =
      if document.title? = some title then some document else catalog.byTitle? title := by
  unfold addFile
  cases document.title? with
  | none => rfl
  | some given =>
    simp only [byTitle?_giveTitle, Option.some.injEq]
    rfl

theorem collisions_addFile (catalog : Catalog) (document : Document) :
    (catalog.addFile document).collisions = catalog.collisions ++
      document.title?.toList.flatMap fun title =>
        ((catalog.byTitle? title).filter (·.key ≠ document.key)).toList.map fun previous =>
          ⟨title, previous.key, document.key⟩ := by
  unfold addFile
  cases document.title? with
  | none => exact (List.append_nil _).symm
  | some title =>
    rw [collisions_giveTitle, Option.toList_some, List.flatMap_singleton]
    rfl

theorem knows_addFile {other : Document} (h : (catalog.addFile document).Knows other) :
    other = document ∨ catalog.Knows other := by
  have hadd : (catalog.add document).Knows other := by
    unfold addFile at h
    split at h
    · rwa [Knows, document?_eq (documents_giveTitle _ _ _)] at h
    · exact h
  exact knows_add hadd

theorem new_accounted (files : FileTree) (searchPaths extensionPaths : List String)
    (downloads : List (String × String)) :
    (new files searchPaths extensionPaths downloads).Accounted :=
  ⟨fun _ _ held => (nomatch held),
    fun document _ known => absurd known (not_knows_new _ _ _ _ document)⟩

namespace Accounted

theorem titled (h : catalog.Accounted) : catalog.Titled := by
  intro free document title known hfile htitle
  refine (h.owned document title known hfile htitle).resolve_right ?_
  rintro ⟨entry, hentry, -⟩
  rw [free] at hentry
  cases hentry

theorem of_same (h : catalog.Accounted) (hdocuments : after.documents = catalog.documents)
    (htitles : after.titles = catalog.titles)
    (hcollisions : after.collisions = catalog.collisions) : after.Accounted := by
  have hknows (document : Document) : after.Knows document ↔ catalog.Knows document := by
    rw [Knows, Knows, document?_eq hdocuments]
  have hbyTitle? (title : String) : after.byTitle? title = catalog.byTitle? title := by
    rw [byTitle?, byTitle?, htitles]
  refine ⟨fun title document held => ?_, fun document title known hfile htitle => ?_⟩
  · rw [hknows]
    exact h.held title document (hbyTitle? title ▸ held)
  · rw [hbyTitle?, hcollisions]
    exact h.owned document title ((hknows document).mp known) hfile htitle

theorem tell (h : catalog.Accounted) (messages : List Message) :
    (catalog.tell messages).Accounted :=
  h.of_same rfl rfl rfl

theorem add (h : catalog.Accounted) (new : catalog.document? document.key = none)
    (hpart : ¬document.IsFile) : (catalog.add document).Accounted := by
  refine ⟨fun title other held => ?_, fun other title known hfile htitle => ?_⟩
  · exact (h.held title other held).imp_left (·.mono (add_grows new))
  · rcases knows_add known with rfl | hbefore
    · exact absurd hfile hpart
    · exact h.owned other title hbefore hfile htitle

theorem addFile (h : catalog.Accounted) (new : catalog.document? document.key = none) :
    (catalog.addFile document).Accounted := by
  refine ⟨fun title other held => ?_, fun other title known hfile htitle => ?_⟩
  · rw [byTitle?_addFile] at held
    split at held
    · obtain rfl := Option.some.inj held
      exact ⟨catalog.addFile_knows document, ‹_›⟩
    · exact (h.held title other held).imp_left (·.mono (addFile_grows new))
  · rw [byTitle?_addFile, collisions_addFile]
    rcases knows_addFile known with rfl | hknown
    · exact .inl (if_pos htitle)
    · rcases h.owned other title hknown hfile htitle with hmeant | ⟨entry, hentry, hlost⟩
      · by_cases heq : document.title? = some title
        · have hne : other.key ≠ document.key := by
            intro hkey
            rw [Knows, hkey, new] at hknown
            cases hknown
          refine .inr ⟨⟨title, other.key, document.key⟩, List.mem_append_right _ ?_, rfl, rfl⟩
          simp [heq, hmeant, Option.filter, hne]
        · exact .inl ((if_neg heq).trans hmeant)
      · exact .inr ⟨entry, List.mem_append_left _ hentry, hlost⟩

theorem loadLocation (h : catalog.Accounted) (location : String) :
    (catalog.loadLocation location).2.Accounted := by
  unfold Catalog.loadLocation
  split
  · exact h.of_same rfl rfl rfl
  · split
    · exact h
    · split
      · exact h
      · exact h.addFile ‹_›

theorem loadFirst (h : catalog.Accounted) (locations : List String) :
    (catalog.loadFirst locations).2.Accounted :=
  loadFirst_keeps loadLocation h locations

theorem not_isFile {schema : Json} (new : catalog.document? document.key = none)
    (hsource : catalog.Knows ⟨document.source, document.source, schema⟩) : ¬document.IsFile := by
  intro hfile
  rw [Knows, hfile, new] at hsource
  cases hsource

theorem insert {schema : Json} (h : catalog.Accounted)
    (hsource : catalog.Knows ⟨document.source, document.source, schema⟩) :
    (catalog.insert document).2.Accounted := by
  unfold Catalog.insert
  split
  · exact h
  · exact h.add ‹_› (not_isFile ‹_› hsource)

theorem select (h : catalog.Accounted) (sourced : catalog.Sourced) (known : catalog.Knows document)
    (fragment : String) : (catalog.select document fragment).2.Accounted := by
  obtain ⟨schema, comes⟩ := sourced document known
  unfold Catalog.select
  split
  · exact h
  · dsimp only
    split
    · exact h
    · rename_i new
      split
      · exact h.tell _
      · exact h.add new (not_isFile new comes.loaded.knows)

theorem loadFrom (h : catalog.Accounted) (sourced : catalog.Sourced) (reference : String)
    (locations : List String) (fragment : String) :
    (catalog.loadFrom reference locations fragment).2.Accounted := by
  have hfirst := h.loadFirst locations
  have hsourced := sourced.loadFirst locations
  have hfinds := catalog.loadFirst_finds locations
  unfold Catalog.loadFrom
  split
  · rename_i document between heq
    rw [heq] at hfirst hsourced hfinds
    exact hfirst.select hsourced (hfinds.knows document rfl) fragment
  · rename_i between heq
    rw [heq] at hfirst
    exact hfirst.tell _

theorem load (h : catalog.Accounted) (sourced : catalog.Sourced) (reference : String) :
    (catalog.load reference).2.Accounted := by
  unfold Catalog.load
  dsimp only
  split
  · split
    · exact h.loadFrom sourced _ _ _
    · exact h.tell _
  · exact h.loadFrom sourced _ _ _

end Accounted

/-- As long as no title was taken from a file, known files of one title are the same file. -/
theorem Titled.unique {other : Document} {title : String} (h : catalog.Titled)
    (free : catalog.collisions = []) (known : catalog.Knows document) (hfile : document.IsFile)
    (htitle : document.title? = some title) (known' : catalog.Knows other) (hfile' : other.IsFile)
    (htitle' : other.title? = some title) : document = other := by
  have hdocument := h free document title known hfile htitle
  have hother := h free other title known' hfile' htitle'
  exact Option.some.inj (hdocument.symm.trans hother)

theorem accounted_lasting : Lasting fun catalog => catalog.Sourced ∧ catalog.Accounted where
  sourced := And.left
  load := fun reference ⟨sourced, h⟩ => ⟨sourced.load reference, h.load sourced reference⟩
  loadExtension := fun _ _ ⟨sourced, h⟩ =>
    ⟨sourced.loadFrom _ _ _, h.loadFrom sourced _ _ _⟩
  insert := fun ⟨sourced, h⟩ hloaded hstems rooted hkey =>
    ⟨sourced.insert hloaded hstems rooted hkey, h.insert hloaded.knows⟩
  tell := fun messages ⟨sourced, h⟩ => ⟨sourced.tell messages, h.tell messages⟩
  enter := fun document ⟨sourced, h⟩ => ⟨sourced.enter document, h.of_same rfl rfl rfl⟩
  leave := fun ⟨sourced, h⟩ => ⟨sourced.leave, h.of_same rfl rfl rfl⟩

end Catalog

end SchemaClasses
