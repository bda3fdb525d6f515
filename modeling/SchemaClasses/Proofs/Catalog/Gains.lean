import SchemaClasses.Proofs.Catalog.Loading
import SchemaClasses.Proofs.Json.Height

/-!
# What a catalog gains

Whatever a catalog does, the documents that it has more of afterwards were loaded or come from those
who gave them to it. What is loaded has the path of a file for its key, or such a path and a pointer
after a hash. So as long as no hash is in paths and in the names of fields, what is loaded does not
have the key of an object that is declared at a path of a class.
-/

namespace SchemaClasses

namespace Catalog

variable {catalog between after : Catalog} {document : Document} {comes : Document → Prop}

/-- A document is what loading may find: what is at a location, or what a pointer leads to there. -/
inductive Loads (catalog : Catalog) (document : Document) : Prop
  | file {location} : catalog.keyOf? location = some document.key → Loads catalog document
  | part {location whole fragment} : catalog.Knows whole →
      catalog.keyOf? location = some whole.key →
      whole.body.pointer? fragment = some document.body →
      document.key = whole.key ++ "#" ++ fragment → Loads catalog document

/-- A reference is followed to a schema: that of a document that is no class, is known, and is the
answer to the reference in some context. -/
def Follows (catalog : Catalog) (reference : String) (body : Json) : Prop :=
  isClassLike body = false ∧
    ∃ document, catalog.Knows document ∧ document.body = body ∧
      ∃ before : Catalog, before.files = catalog.files ∧ before.searchPaths = catalog.searchPaths ∧
        (before.load reference).1 = some document

theorem Follows.mono {reference : String} {body : Json} (h : catalog.Follows reference body)
    (files : after.files = catalog.files) (searchPaths : after.searchPaths = catalog.searchPaths)
    (knows : ∀ {document}, catalog.Knows document → after.Knows document) :
    after.Follows reference body := by
  obtain ⟨hclass, document, known, hbody, before, hfiles, hpaths, hload⟩ := h
  exact ⟨hclass, document, knows known, hbody, before, hfiles.trans files.symm,
    hpaths.trans searchPaths.symm, hload⟩

/-- All documents that a catalog has gained were loaded or come from elsewhere. -/
structure Gains (comes : Document → Prop) (before after : Catalog) : Prop where
  files : after.files = before.files
  searchPaths : after.searchPaths = before.searchPaths
  knows : ∀ {document}, before.Knows document → after.Knows document
  documents : ∀ document ∈ after.documents,
    document ∈ before.documents ∨ after.Loads document ∨ comes document

theorem Loads.mono (h : catalog.Loads document) (files : after.files = catalog.files)
    (knows : ∀ {document}, catalog.Knows document → after.Knows document) :
    after.Loads document := by
  cases h with
  | file hkey => exact .file ((keyOf?_eq files _).trans hkey)
  | part known hkey hbody heq =>
    exact .part (knows known) ((keyOf?_eq files _).trans hkey) hbody heq

namespace Gains

theorem of_same (hfiles : after.files = catalog.files)
    (hpaths : after.searchPaths = catalog.searchPaths)
    (hdocuments : after.documents = catalog.documents) : catalog.Gains comes after where
  files := hfiles
  searchPaths := hpaths
  knows known := (document?_eq hdocuments _).trans known
  documents _ h := .inl (hdocuments ▸ h)

theorem refl (catalog : Catalog) : catalog.Gains comes catalog := of_same rfl rfl rfl

theorem trans (h : catalog.Gains comes between) (k : between.Gains comes after) :
    catalog.Gains comes after where
  files := k.files.trans h.files
  searchPaths := k.searchPaths.trans h.searchPaths
  knows known := k.knows (h.knows known)
  documents document hdocument := by
    rcases k.documents document hdocument with hbetween | hnew
    · rcases h.documents document hbetween with hbefore | hloads | hcomes
      · exact .inl hbefore
      · exact .inr (.inl (hloads.mono k.files k.knows))
      · exact .inr (.inr hcomes)
    · exact .inr hnew

theorem warn (catalog : Catalog) (warning : Warning) :
    catalog.Gains comes (catalog.warn warning) :=
  of_same rfl rfl rfl

theorem leave (h : (catalog.enter document).Gains comes after) :
    catalog.Gains comes after.leave :=
  (of_same rfl rfl rfl : catalog.Gains comes (catalog.enter document)).trans
    (h.trans (of_same rfl rfl rfl))

theorem insert (catalog : Catalog) (hcomes : comes document) :
    catalog.Gains comes (catalog.insert document).2 := by
  have grows := (catalog.insert_finds document).grows
  refine ⟨grows.files, grows.searchPaths, fun known => known.mono grows, fun other hother => ?_⟩
  unfold Catalog.insert at hother
  split at hother
  · exact .inl hother
  · rcases List.mem_cons.mp hother with rfl | hbefore
    · exact .inr (.inr hcomes)
    · exact .inl hbefore

theorem loadFrom (catalog : Catalog) (reference : String) (locations : List String)
    (fragment : String) :
    catalog.Gains comes (catalog.loadFrom reference locations fragment).2 := by
  have grows := (catalog.loadFrom_finds reference locations fragment).grows
  have finds := catalog.loadFirst_finds locations
  have hadds := @loadFirst_adds catalog
  refine ⟨grows.files, grows.searchPaths, fun known => known.mono grows,
    fun document hdocument => ?_⟩
  have hfile {known : Document} (hknown : known ∈ (catalog.loadFirst locations).2.documents) :
      known ∈ catalog.documents ∨
        (catalog.loadFrom reference locations fragment).2.Loads known := by
    refine (hadds hknown).imp id ?_
    rintro ⟨location, -, key, hkey, hfile⟩
    exact .file ((keyOf?_eq grows.files location).trans (hfile.key ▸ hkey))
  cases heq : catalog.loadFirst locations with
  | mk found between =>
    rw [heq] at finds hfile
    cases found with
    | none =>
      refine (hfile ?_).imp id .inl
      rwa [Catalog.loadFrom, heq] at hdocument
    | some whole =>
      have hselect := hdocument
      rw [Catalog.loadFrom, heq] at hselect
      rcases select_adds hselect with hbetween | ⟨-, body, hbody, rfl⟩
      · exact (hfile hbetween).imp id .inl
      · obtain ⟨location, -, hkey⟩ := loadFirst_key (congrArg Prod.fst heq)
        have known := finds.knows whole rfl
        have hgrows := (select_finds known fragment).grows
        refine .inr (.inl (.part ?_ ((keyOf?_eq grows.files location).trans hkey) hbody rfl))
        rw [Catalog.loadFrom, heq]
        exact known.mono hgrows

theorem load (catalog : Catalog) (reference : String) :
    catalog.Gains comes (catalog.load reference).2 := by
  unfold Catalog.load
  dsimp only
  split
  · split
    · exact .loadFrom _ _ _ _
    · exact .warn catalog _
  · exact .loadFrom _ _ _ _

theorem moves (h : catalog.Moves False after) : catalog.Gains comes after := by
  cases h with
  | load reference => exact .load catalog reference
  | loadExtension => exact .loadFrom _ _ _ _
  | insert _ hstrangers => exact hstrangers.elim
  | tell => exact .of_same rfl rfl rfl

end Gains

end Catalog

/-! ### Hashes in names -/

namespace Json

variable {value part : Json} {pointer : String}

/-- Some field has a name with a hash. -/
def HashInName (value : Json) : Prop :=
  ∃ part : Json, part.Occurs value ∧ ∃ name ∈ part.fieldNames, '#' ∈ name.toList

theorem hash_mem_unescapeToken {token : List Char} (h : '#' ∈ token) :
    '#' ∈ unescapeToken token := by
  fun_induction unescapeToken token with
  | case1 rest ih | case2 rest ih => simpa using ih (by simpa using h)
  | case3 c rest _ _ ih =>
    rcases List.mem_cons.mp h with rfl | h
    · exact List.mem_cons_self
    · exact List.mem_cons_of_mem _ (ih h)
  | case4 => cases h

/-- A token with a hash in it names a field. -/
theorem hashInName_of_child? {token : List Char} (h : value.child? token = some part)
    (hmem : '#' ∈ token) : value.HashInName := by
  cases value with
  | obj fields =>
    refine ⟨_, .self, String.ofList token, ?_, by simpa using hmem⟩
    exact List.mem_map_of_mem (f := Prod.fst) (Ordered.mem_of_get? h)
  | arr items =>
    obtain ⟨index, hindex, -⟩ := Option.bind_eq_some_iff.mp h
    unfold index? at hindex
    have hdigits : token.all Char.isDigit = false := by
      rw [List.all_eq_false]
      exact ⟨'#', hmem, by decide⟩
    simp [hdigits] at hindex
  | null | bool | num | str => cases h

/-- A pointer that leads somewhere is empty or starts with a slash, and has no hash in it unless a
field has one in its name. -/
theorem pointer?_hash (h : value.pointer? pointer = some part) (names : ¬value.HashInName) :
    '#' ∉ pointer.toList ∧ (pointer.toList = [] ∨ Location.isFragment pointer.toList = true) := by
  obtain ⟨tokens, htokens, hfold⟩ := Option.bind_eq_some_iff.mp h
  have hnone : ∀ token ∈ tokens, '#' ∉ token := by
    clear h htokens
    induction tokens generalizing value with
    | nil => simp
    | cons token rest ih =>
      rw [List.foldlM_cons] at hfold
      obtain ⟨next, hnext, hfold⟩ := Option.bind_eq_some_iff.mp hfold
      have hrest := ih (fun ⟨inner, hinner, hname⟩ =>
        names ⟨inner, hinner.trans (occurs_of_child? hnext), hname⟩) hfold
      rintro _ (_ | ⟨_, hmem⟩)
      · exact fun hmem => names (hashInName_of_child? hnext hmem)
      · exact hrest _ hmem
  unfold pointerTokens? at htokens
  split at htokens
  · rename_i hempty
    exact ⟨by simp [hempty], .inl hempty⟩
  · rename_i rest hslash
    obtain rfl := Option.some.inj htokens
    refine ⟨fun hmem => ?_, .inr (by rw [hslash]; rfl)⟩
    have hrest : '#' ∈ rest := by simpa [hslash] using hmem
    obtain ⟨piece, hpiece, hc⟩ := @Text.exists_mem_pieces (· == '/') _ _ hrest rfl
    exact hnone _ (List.mem_map_of_mem hpiece) (hash_mem_unescapeToken hc)
  · cases htokens

end Json

/-- A field of a schema in a tree has a name with a hash. -/
def FileTree.HashInName (files : FileTree) : Prop := ∃ schema ∈ files.schemas, schema.HashInName

namespace Catalog

variable {catalog : Catalog} {document : Document} {path key : String}

/-- What is loaded does not have the key of an object that is declared at a path. -/
theorem Loads.key_ne (h : catalog.Loads document) (known : catalog.Knows document)
    (sourced : catalog.Sourced) (offline : catalog.downloads = [])
    (paths : ¬catalog.files.HashInPath) (names : ¬catalog.files.HashInName)
    (hpath : '#' ∉ path.toList) :
    document.key ≠ key ++ "#inline/" ++ path := by
  intro hkey
  rw [Location.inline_eq] at hkey
  cases h with
  | file hlocation =>
    have located := isLocated_of_keyOf? hlocation
    refine paths ⟨_, sourced.isPath_of_located known located offline, ?_⟩
    rw [hkey]
    simp
  | @part _ whole fragment hwhole hlocation hbody heq =>
    have located := isLocated_of_keyOf? hlocation
    obtain ⟨body, hread, hfile⟩ := sourced.file (not_hashInKey paths offline) hwhole located
    have hschema := (located.mem_readable hread).2
    rw [schemas_of_offline offline] at hschema
    have hnames : ¬whole.body.HashInName := by
      rw [hfile]
      exact fun hname => names ⟨body, hschema, hname⟩
    obtain ⟨hsingle, hstarts⟩ := Json.pointer?_hash hbody hnames
    obtain ⟨-, rfl⟩ := Location.append_inj hsingle (by simp [hpath]) (heq.symm.trans hkey)
    simp [Location.isFragment] at hstarts

theorem Sourced.hash_not_mem_name (sourced : catalog.Sourced) (offline : catalog.downloads = [])
    (names : ¬catalog.files.HashInName) (known : catalog.Knows document) {name : String}
    {fragment : Json} (h : (name, fragment) ∈ document.properties) : '#' ∉ name.toList := by
  intro hmem
  obtain ⟨schema, comes⟩ := sourced document known
  obtain ⟨object, hget, hname⟩ := Document.properties_named h
  have hschema := comes.loaded.mem_schemas
  rw [schemas_of_offline offline] at hschema
  exact names ⟨schema, hschema, object, comes.stems.get? hget (by decide), name, hname, hmem⟩

end Catalog

end SchemaClasses
