import SchemaClasses.Proofs.Catalog.Bounds

/-!
# What loading adds

A document that is loaded anew is a file at one of the locations that the reference means, or what a
pointer leads to in the document there. Its key is among those that can be found, and its schema is
a part of a file or of a document that was made otherwise; only the title that such a document was
given may be found bare.
-/

namespace SchemaClasses

namespace Json

variable {whole value part : Json}

/-- A value is a part of another, or nothing but a title. -/
def IsPart (whole value : Json) : Prop := value.Occurs whole ∨ ∃ title, value = .str title

theorem Stems.child_isPart (h : whole.Stems True value) {token : List Char}
    (hchild : value.child? token = some part) : whole.IsPart part := by
  cases h with
  | part hpart => exact .inl ((occurs_of_child? hchild).trans hpart)
  | titled title hpart =>
    rcases child?_titled hchild with rfl | hchild
    · exact .inr ⟨title, rfl⟩
    · exact .inl ((occurs_of_child? hchild).trans hpart)
  | title => cases hchild

theorem IsPart.stems (h : whole.IsPart value) : whole.Stems True value := by
  obtain hpart | ⟨title, rfl⟩ := h
  · exact .part hpart
  · exact .title title trivial

/-- A pointer that is not empty leads to a part. -/
theorem Stems.pointer_isPart (h : whole.Stems True value) {pointer : String} (hne : pointer ≠ "")
    (hpointer : value.pointer? pointer = some part) : whole.IsPart part := by
  obtain ⟨tokens, htokens, hfold⟩ := Option.bind_eq_some_iff.mp hpointer
  cases tokens with
  | nil =>
    unfold pointerTokens? at htokens
    split at htokens
    · rename_i hempty
      exact absurd (String.toList_injective hempty) hne
    · rw [Option.some.injEq, List.map_eq_nil_iff] at htokens
      exact absurd htokens (Text.pieces_ne_nil _ _)
    · cases htokens
  | cons token tokens =>
    rw [List.foldlM_cons] at hfold
    obtain ⟨first, hfirst, hrest⟩ := Option.bind_eq_some_iff.mp hfold
    have hpart := h.child_isPart hfirst
    clear hpointer htokens hfold hfirst
    induction tokens generalizing first with
    | nil =>
      obtain rfl := Option.some.inj hrest
      exact hpart
    | cons token tokens ih =>
      rw [List.foldlM_cons] at hrest
      obtain ⟨next, hnext, hlater⟩ := Option.bind_eq_some_iff.mp hrest
      exact ih next hlater (hpart.stems.child_isPart hnext)

end Json

/-- A document has one of the given sources, and its schema stems from one of the given ones. -/
structure Document.StemsFrom (sources : List String) (wholes : List Json) (document : Document) :
    Prop where
  source : document.source ∈ sources
  stems : ∃ whole ∈ wholes, whole.Stems True document.body

/-- A document has one of the given sources, and its schema is a part of one of the given ones. -/
structure Document.PartFrom (sources : List String) (wholes : List Json) (document : Document) :
    Prop where
  source : document.source ∈ sources
  part : ∃ whole ∈ wholes, whole.IsPart document.body

namespace Catalog

variable {catalog : Catalog} {document whole : Document} {locations : List String}
variable {sources : List String} {wholes : List Json}

theorem documents_addFile (catalog : Catalog) (document : Document) :
    (catalog.addFile document).documents = document :: catalog.documents := by
  unfold addFile
  split
  · unfold giveTitle
    split
    · split <;> rfl
    · rfl
  · rfl

/-- Loading adds the file with a path. -/
structure AddsFile (catalog : Catalog) (path : String) (document : Document) : Prop where
  read : catalog.readBody? path = some document.body
  key : document.key = path
  source : document.source = path

theorem loadLocation_adds {location : String}
    (h : document ∈ (catalog.loadLocation location).2.documents) :
    document ∈ catalog.documents ∨
      ∃ key, catalog.keyOf? location = some key ∧ catalog.AddsFile key document := by
  unfold loadLocation at h
  split at h
  · exact .inl h
  · rename_i key hkey
    split at h
    · exact .inl h
    · split at h
      · exact .inl h
      · rename_i body hread
        rw [documents_addFile] at h
        rcases List.mem_cons.mp h with rfl | h
        · exact .inr ⟨key, hkey, hread, rfl, rfl⟩
        · exact .inl h

theorem loadFirst_adds (h : document ∈ (catalog.loadFirst locations).2.documents) :
    document ∈ catalog.documents ∨ ∃ location ∈ locations, ∃ key,
      catalog.keyOf? location = some key ∧ catalog.AddsFile key document := by
  induction locations generalizing catalog with
  | nil => exact .inl h
  | cons location rest ih =>
    have hadds := @loadLocation_adds catalog document location
    have hgrows := (catalog.loadLocation_finds location).grows
    rw [loadFirst] at h
    split at h
    · rename_i found between heq
      rw [heq] at hadds
      exact (hadds h).imp id fun hfile => ⟨location, List.mem_cons_self, hfile⟩
    · rename_i between heq
      rw [heq] at hadds hgrows
      rcases ih h with hbefore | ⟨other, hother, key, hkey, hfile⟩
      · exact (hadds hbefore).imp id fun hfile => ⟨location, List.mem_cons_self, hfile⟩
      · refine .inr ⟨other, List.mem_cons_of_mem _ hother, key, ?_, ?_, hfile.key, hfile.source⟩
        · rwa [keyOf?_eq hgrows.files] at hkey
        · rw [← hgrows.sameTexts.readBody?_eq]
          exact hfile.read

theorem select_adds {fragment : String}
    (h : document ∈ (catalog.select whole fragment).2.documents) :
    document ∈ catalog.documents ∨ fragment ≠ "" ∧ ∃ body,
      whole.body.pointer? fragment = some body ∧
      document = ⟨whole.key ++ "#" ++ fragment, whole.source, body⟩ := by
  unfold select at h
  split at h
  · exact .inl h
  · rename_i hfragment
    dsimp only at h
    split at h
    · exact .inl h
    · split at h
      · exact .inl h
      · rename_i body hbody
        rcases List.mem_cons.mp h with rfl | h
        · exact .inr ⟨fun hempty => hfragment (.inl hempty), body, hbody, rfl⟩
        · exact .inl h

theorem AddsFile.partFrom {location key : String} (h : catalog.AddsFile key document)
    (hkey : catalog.keyOf? location = some key) (readable : catalog.readable ⊆ sources)
    (schemas : catalog.schemas ⊆ wholes) : document.PartFrom sources wholes := by
  obtain ⟨hsource, hschema⟩ := (isLocated_of_keyOf? hkey).mem_readable h.read
  refine ⟨?_, document.body, schemas hschema, .inl .self⟩
  rw [h.source]
  exact readable hsource

theorem loadFrom_adds {reference fragment : String} (readable : catalog.readable ⊆ sources)
    (schemas : catalog.schemas ⊆ wholes)
    (made : ∀ known ∈ catalog.documents, known.StemsFrom sources wholes)
    (h : document ∈ (catalog.loadFrom reference locations fragment).2.documents) :
    document ∈ catalog.documents ∨ document.PartFrom sources wholes ∧
      ∃ location ∈ locations, ∃ key, catalog.keyOf? location = some key ∧
        (document.key = key ∨ document.key = key ++ "#" ++ fragment) := by
  have hadds := @loadFirst_adds catalog
  have hfile {known : Document} {between : Catalog} {found : Option Document}
      (heq : catalog.loadFirst locations = (found, between)) (hknown : known ∈ between.documents) :
      known ∈ catalog.documents ∨ known.PartFrom sources wholes ∧
        ∃ location ∈ locations, catalog.keyOf? location = some known.key := by
    refine (hadds (by rw [heq]; exact hknown)).imp id ?_
    rintro ⟨location, hlocation, key, hkey, hfile⟩
    exact ⟨hfile.partFrom hkey readable schemas, location, hlocation, hfile.key ▸ hkey⟩
  have hends {known : Document} {between : Catalog} {found : Option Document}
      (heq : catalog.loadFirst locations = (found, between)) (hknown : known ∈ between.documents) :
      known ∈ catalog.documents ∨ known.PartFrom sources wholes ∧
        ∃ location ∈ locations, ∃ key, catalog.keyOf? location = some key ∧
          (known.key = key ∨ known.key = key ++ "#" ++ fragment) := by
    refine (hfile heq hknown).imp id ?_
    rintro ⟨hpart, location, hlocation, hkey⟩
    exact ⟨hpart, location, hlocation, known.key, hkey, .inl rfl⟩
  unfold loadFrom at h
  split at h
  · rename_i found between heq
    rcases select_adds h with h | ⟨hfragment, body, hbody, rfl⟩
    · exact hends heq h
    · have hfirst : (catalog.loadFirst locations).1 = some found := by rw [heq]
      obtain ⟨location, hlocation, hkey⟩ := loadFirst_key hfirst
      have hknown : found ∈ between.documents := by
        have hfinds := (catalog.loadFirst_finds locations).knows found hfirst
        rw [heq] at hfinds
        exact hfinds.mem
      have hfrom : found.StemsFrom sources wholes := by
        rcases hfile heq hknown with hbefore | ⟨⟨hsource, stem, hstem, hpart⟩, -⟩
        · exact made found hbefore
        · exact ⟨hsource, stem, hstem, hpart.stems⟩
      obtain ⟨stem, hstem, hstems⟩ := hfrom.stems
      refine .inr ⟨⟨hfrom.source, stem, hstem, hstems.pointer_isPart hfragment hbody⟩, ?_⟩
      exact ⟨location, hlocation, found.key, hkey, .inr rfl⟩
  · rename_i between heq
    exact hends heq h

/-- A document that loading adds is a part of what there was, under a key that can be found. -/
theorem load_adds {reference : String} (readable : catalog.readable ⊆ sources)
    (schemas : catalog.schemas ⊆ wholes)
    (made : ∀ known ∈ catalog.documents, known.StemsFrom sources wholes)
    (h : document ∈ (catalog.load reference).2.documents) :
    document ∈ catalog.documents ∨ document.PartFrom sources wholes ∧
      document.key ∈ catalog.keysFrom (catalog.contextTop?.getD "") reference := by
  have hfrom {locations : List String}
      (hsubset : locations ⊆ if (Location.splitReference reference).1 = "" then
          [catalog.contextTop?.getD ""]
        else Location.beside (catalog.contextTop?.getD "") (Location.splitReference reference).1 ::
          catalog.searchPaths.map (Location.inDirectory · (Location.splitReference reference).1))
      (hdocument : document ∈ (catalog.loadFrom reference locations
        (Location.splitReference reference).2).2.documents) :
      document ∈ catalog.documents ∨ document.PartFrom sources wholes ∧
        document.key ∈ catalog.keysFrom (catalog.contextTop?.getD "") reference := by
    refine (loadFrom_adds readable schemas made hdocument).imp id ?_
    rintro ⟨hpart, location, hlocation, key, hkey, hends⟩
    refine ⟨hpart, List.mem_flatMap.mpr ⟨key, ?_, by simpa using hends⟩⟩
    exact List.mem_filterMap.mpr ⟨location, hsubset hlocation, hkey⟩
  unfold load at h
  dsimp only at h
  split at h
  · rename_i hfile
    split at h
    · rename_i top htop
      refine hfrom ?_ h
      rw [if_pos hfile, htop, Option.getD_some]
      exact List.Subset.refl _
    · exact .inl h
  · rename_i hfile
    refine hfrom ?_ h
    rw [if_neg hfile, locations]
    intro location hlocation
    rcases List.mem_append.mp hlocation with hbeside | hpath
    · obtain ⟨top, htop, rfl⟩ := Option.map_eq_some_iff.mp (Option.mem_toList.mp hbeside)
      rw [htop, Option.getD_some]
      exact List.mem_cons_self
    · exact List.mem_cons_of_mem _ hpath

end Catalog

end SchemaClasses
