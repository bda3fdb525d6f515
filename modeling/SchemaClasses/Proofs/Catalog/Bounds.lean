import Mathlib.Data.List.Infix
import SchemaClasses.Proofs.Catalog.Plain

/-!
# Bounds of a catalog

A tree has finitely many paths, finitely many URLs can be downloaded, and there are finitely many
texts in what these lead to and in the documents that a catalog knows. Documents found later have
such sources, or the sources that others had, and no texts but these. So whatever is looked for from
such documents has one of finitely many keys.
-/

namespace SchemaClasses

namespace FileTree

variable {files : FileTree} {place next : List String}

def places (files : FileTree) : List (List String) :=
  (files.workingDirectory :: files.nodes.map Prod.fst).flatMap List.inits

theorem mem_places :
    place ∈ files.places ↔ ∃ whole ∈ files.workingDirectory :: files.nodes.map Prod.fst,
      place <+: whole := by
  simp [places]

theorem follow_mem_places {component : String} (hplace : place ∈ files.places)
    (h : files.follow place component = .ok next) : next ∈ files.places := by
  obtain rfl | rfl | ⟨node, hnode⟩ := follow_cases h
  · exact hplace
  · obtain ⟨whole, hwhole, hprefix⟩ := mem_places.mp hplace
    exact mem_places.mpr ⟨whole, hwhole, (List.dropLast_prefix place).trans hprefix⟩
  · rcases node?_inv hnode with ⟨rfl, -⟩ | hmem
    · exact mem_places.mpr ⟨_, List.mem_cons_self, List.nil_prefix⟩
    · refine mem_places.mpr ⟨next, List.mem_cons_of_mem _ ?_, List.prefix_refl next⟩
      exact List.mem_map_of_mem (f := Prod.fst) hmem

def paths (files : FileTree) : List String := files.places.map spell

theorem IsPath.mem_paths {key : String} (h : files.IsPath key) : key ∈ files.paths := by
  obtain ⟨location, h⟩ := h
  have hstart : files.startOf location ∈ files.places := by
    refine mem_places.mpr ⟨files.workingDirectory, List.mem_cons_self, ?_⟩
    unfold startOf
    split
    · exact List.nil_prefix
    · exact List.prefix_refl _
  obtain ⟨place, hplace, rfl⟩ := canonical?_inv h
  exact List.mem_map_of_mem (followAllShort_keeps (fun _ => follow_mem_places) hstart hplace)

end FileTree

def FileNode.schema? : FileNode → Option Json
  | .file (some text) => Json.read? text
  | _ => none

def FileTree.schemas (files : FileTree) : List Json := files.nodes.filterMap (·.2.schema?)

theorem FileTree.mem_schemas {files : FileTree} {path : String} {schema : Json}
    (h : (files.readText? path).bind Json.read? = some schema) : schema ∈ files.schemas := by
  obtain ⟨text, htext, hread⟩ := Option.bind_eq_some_iff.mp h
  obtain ⟨node, hnode, hfile⟩ := readText?_inv htext
  refine List.mem_filterMap.mpr ⟨node, hnode, ?_⟩
  rw [hfile, FileNode.schema?, hread]

/-- A document has one of the given sources, and no texts but the given ones. -/
structure Document.MadeOf (sources texts : List String) (document : Document) : Prop where
  source : document.source ∈ sources
  texts : document.body.texts ⊆ texts

namespace Catalog

variable {catalog after : Catalog} {document : Document} {sources texts : List String}

theorem Knows.mem (h : catalog.Knows document) : document ∈ catalog.documents :=
  List.mem_of_find?_eq_some h

def readable (catalog : Catalog) : List String :=
  catalog.files.paths ++ catalog.downloads.map Prod.fst

def schemas (catalog : Catalog) : List Json :=
  catalog.files.schemas ++ catalog.downloads.filterMap (Json.read? ·.2)

theorem IsLocated.mem_readable {key : String} {schema : Json} (h : catalog.IsLocated key)
    (hread : catalog.readBody? key = some schema) :
    key ∈ catalog.readable ∧ schema ∈ catalog.schemas := by
  rcases h with hurl | hpath
  · rw [readBody?, readText?, if_pos hurl] at hread
    obtain ⟨text, htext, hschema⟩ := Option.bind_eq_some_iff.mp hread
    have hentry := Ordered.mem_of_get? htext
    exact ⟨List.mem_append_right _ (List.mem_map_of_mem hentry),
      List.mem_append_right _ (List.mem_filterMap.mpr ⟨_, hentry, hschema⟩)⟩
  · rw [readBody?_path hpath] at hread
    exact ⟨List.mem_append_left _ hpath.mem_paths,
      List.mem_append_left _ (FileTree.mem_schemas hread)⟩

theorem HasLoaded.mem_schemas {key : String} {schema : Json} (h : catalog.HasLoaded key schema) :
    schema ∈ catalog.schemas :=
  (h.located.mem_readable h.reads).2

theorem schemas_of_offline (offline : catalog.downloads = []) :
    catalog.schemas = catalog.files.schemas := by
  rw [schemas, offline, List.filterMap_nil, List.append_nil]

theorem SameTexts.readable_eq (h : catalog.SameTexts after) :
    after.readable = catalog.readable := by
  unfold readable
  rw [h.files, h.downloads]

theorem SameTexts.schemas_eq (h : catalog.SameTexts after) : after.schemas = catalog.schemas := by
  unfold schemas
  rw [h.files, h.downloads]

/-- Everything that is known, and every file, is made of the given sources and texts. -/
structure Bounded (sources texts : List String) (catalog : Catalog) : Prop where
  readable : catalog.readable ⊆ sources
  schemaTexts : ∀ schema ∈ catalog.schemas, schema.texts ⊆ texts
  made : ∀ document ∈ catalog.documents, document.MadeOf sources texts

/-- Every catalog has bounds that a given document is within as well. -/
theorem exists_bounded (catalog : Catalog) (document : Document) :
    ∃ sources texts, catalog.Bounded sources texts ∧ document.MadeOf sources texts := by
  let documents := document :: catalog.documents
  have hmade : ∀ other ∈ documents,
      other.MadeOf (catalog.readable ++ documents.map (·.source))
        (catalog.schemas.flatMap (·.texts) ++ documents.flatMap (·.body.texts)) := by
    intro other hother
    refine ⟨List.mem_append_right _ (List.mem_map_of_mem hother), fun text htext => ?_⟩
    exact List.mem_append_right _ (List.mem_flatMap.mpr ⟨other, hother, htext⟩)
  refine ⟨_, _, ⟨List.subset_append_left _ _, fun schema hschema text htext => ?_, ?_⟩,
    hmade document List.mem_cons_self⟩
  · exact List.mem_append_left _ (List.mem_flatMap.mpr ⟨schema, hschema, htext⟩)
  · exact fun other hother => hmade other (List.mem_cons_of_mem _ hother)

namespace Bounded

theorem of_same (h : catalog.Bounded sources texts) (htexts : catalog.SameTexts after)
    (hdocuments : after.documents = catalog.documents) : after.Bounded sources texts := by
  refine ⟨?_, ?_, ?_⟩
  · rw [htexts.readable_eq]
    exact h.readable
  · rw [htexts.schemas_eq]
    exact h.schemaTexts
  · rw [hdocuments]
    exact h.made

theorem add (h : catalog.Bounded sources texts) (made : document.MadeOf sources texts) :
    (catalog.add document).Bounded sources texts := by
  refine ⟨h.readable, h.schemaTexts, fun other hother => ?_⟩
  rcases List.mem_cons.mp hother with rfl | hother
  · exact made
  · exact h.made other hother

theorem insert (h : catalog.Bounded sources texts) (made : document.MadeOf sources texts) :
    (catalog.insert document).2.Bounded sources texts := by
  unfold Catalog.insert
  split
  · exact h
  · exact h.add made

theorem addFile (h : catalog.Bounded sources texts) (made : document.MadeOf sources texts) :
    (catalog.addFile document).Bounded sources texts := by
  have hadd := h.add made
  unfold Catalog.addFile
  split
  · unfold giveTitle
    split
    · split
      · exact hadd.of_same ⟨rfl, rfl⟩ rfl
      · exact hadd.of_same ⟨rfl, rfl⟩ rfl
    · exact hadd.of_same ⟨rfl, rfl⟩ rfl
  · exact hadd

theorem loadLocation (h : catalog.Bounded sources texts) (location : String) :
    (catalog.loadLocation location).2.Bounded sources texts := by
  unfold Catalog.loadLocation
  split
  · exact h.of_same ⟨rfl, rfl⟩ rfl
  · rename_i key hkey
    split
    · exact h
    · split
      · exact h
      · rename_i schema hread
        obtain ⟨hreadable, hschema⟩ := (isLocated_of_keyOf? hkey).mem_readable hread
        exact h.addFile ⟨h.readable hreadable, h.schemaTexts schema hschema⟩

theorem loadFirst (h : catalog.Bounded sources texts) (locations : List String) :
    (catalog.loadFirst locations).2.Bounded sources texts :=
  loadFirst_keeps loadLocation h locations

theorem select (h : catalog.Bounded sources texts) (made : document.MadeOf sources texts)
    (fragment : String) : (catalog.select document fragment).2.Bounded sources texts := by
  unfold Catalog.select
  split
  · exact h
  · dsimp only
    split
    · exact h
    · split
      · exact h.of_same ⟨rfl, rfl⟩ rfl
      · rename_i body hbody
        refine h.add ⟨made.source, ?_⟩
        exact List.Subset.trans (Json.occurs_of_pointer? hbody).texts_subset made.texts

theorem loadFrom (h : catalog.Bounded sources texts) (reference : String)
    (locations : List String) (fragment : String) :
    (catalog.loadFrom reference locations fragment).2.Bounded sources texts := by
  have hfirst := h.loadFirst locations
  have hfinds := catalog.loadFirst_finds locations
  unfold Catalog.loadFrom
  split
  · rename_i document between heq
    rw [heq] at hfirst hfinds
    exact hfirst.select (hfirst.made document (hfinds.knows document rfl).mem) fragment
  · rename_i between heq
    rw [heq] at hfirst
    exact hfirst.of_same ⟨rfl, rfl⟩ rfl

theorem load (h : catalog.Bounded sources texts) (reference : String) :
    (catalog.load reference).2.Bounded sources texts := by
  unfold Catalog.load
  dsimp only
  split
  · split
    · exact h.loadFrom _ _ _
    · exact h.of_same ⟨rfl, rfl⟩ rfl
  · exact h.loadFrom _ _ _

end Bounded

/-! ### Keys that can be found -/

/-- The keys that a reference may lead to from a source. -/
def keysFrom (catalog : Catalog) (source reference : String) : List String :=
  let file := (Location.splitReference reference).1
  let locations :=
    if file = "" then [source]
    else Location.beside source file :: catalog.searchPaths.map (Location.inDirectory · file)
  (locations.filterMap catalog.keyOf?).flatMap fun key =>
    [key, key ++ "#" ++ (Location.splitReference reference).2]

def keysWithin (catalog : Catalog) (sources texts : List String) : List String :=
  sources.flatMap fun source => texts.flatMap (catalog.keysFrom source)

theorem keyOf?_eq (h : after.files = catalog.files) (location : String) :
    after.keyOf? location = catalog.keyOf? location := by
  rw [keyOf?, keyOf?, h]

theorem keysFrom_eq (hfiles : after.files = catalog.files)
    (hpaths : after.searchPaths = catalog.searchPaths) : after.keysFrom = catalog.keysFrom := by
  have hkeyOf? : after.keyOf? = catalog.keyOf? := funext (keyOf?_eq hfiles)
  funext source reference
  rw [keysFrom, keysFrom, hkeyOf?, hpaths]

theorem keysWithin_eq (grows : catalog.Grows after) (sources texts : List String) :
    after.keysWithin sources texts = catalog.keysWithin sources texts := by
  rw [keysWithin, keysWithin, keysFrom_eq grows.files grows.searchPaths]

theorem loadFirst_key {locations : List String}
    (h : (catalog.loadFirst locations).1 = some document) :
    ∃ location ∈ locations, catalog.keyOf? location = some document.key := by
  induction locations generalizing catalog with
  | nil => cases h
  | cons location rest ih =>
    have hgrows := (catalog.loadLocation_finds location).grows
    rw [loadFirst] at h
    split at h
    · rename_i found between heq
      obtain rfl := Option.some.inj h
      exact ⟨location, List.mem_cons_self, loadLocation_key (by rw [heq])⟩
    · rename_i between heq
      rw [heq] at hgrows
      obtain ⟨other, hother, hkey⟩ := ih h
      refine ⟨other, List.mem_cons_of_mem _ hother, ?_⟩
      rwa [keyOf?_eq hgrows.files] at hkey

theorem select_key {part : Document} {fragment : String}
    (h : (catalog.select document fragment).1 = some part) :
    part.key = document.key ∨ part.key = document.key ++ "#" ++ fragment := by
  unfold select at h
  split at h
  · exact .inl (congrArg Document.key (Option.some.inj h)).symm
  · dsimp only at h
    split at h
    · rename_i found hfound
      obtain rfl := Option.some.inj h
      exact .inr (by simpa using List.find?_some hfound)
    · split at h
      · cases h
      · obtain rfl := Option.some.inj h
        exact .inr rfl

theorem loadFrom_key {reference fragment : String} {locations : List String}
    (h : (catalog.loadFrom reference locations fragment).1 = some document) :
    ∃ location ∈ locations, ∃ key, catalog.keyOf? location = some key ∧
      (document.key = key ∨ document.key = key ++ "#" ++ fragment) := by
  unfold loadFrom at h
  split at h
  · rename_i file between heq
    have hfirst : (catalog.loadFirst locations).1 = some file := by rw [heq]
    obtain ⟨location, hlocation, hkey⟩ := loadFirst_key hfirst
    exact ⟨location, hlocation, file.key, hkey, select_key h⟩
  · cases h

/-- A reference leads to one of the keys that it may lead to from what references are relative to;
without that it only leads to what is in the search paths. -/
theorem load_key {source reference : String}
    (htop : ∀ top ∈ catalog.contextTop?, top = source)
    (h : (catalog.load reference).1 = some document) :
    document.key ∈ catalog.keysFrom source reference := by
  have hfrom : ∃ location ∈ if (Location.splitReference reference).1 = "" then [source]
      else Location.beside source (Location.splitReference reference).1 ::
        catalog.searchPaths.map (Location.inDirectory · (Location.splitReference reference).1),
      ∃ key, catalog.keyOf? location = some key ∧ (document.key = key ∨
        document.key = key ++ "#" ++ (Location.splitReference reference).2) := by
    unfold load at h
    dsimp only at h
    split at h
    · rename_i hfile
      rw [if_pos hfile]
      split at h
      · rename_i top hcontext
        obtain rfl := htop top hcontext
        exact loadFrom_key h
      · cases h
    · rename_i hfile
      rw [if_neg hfile]
      obtain ⟨location, hlocation, hkey⟩ := loadFrom_key h
      refine ⟨location, ?_, hkey⟩
      rcases List.mem_append.mp hlocation with hbeside | hpath
      · obtain ⟨top, hcontext, rfl⟩ := Option.map_eq_some_iff.mp (Option.mem_toList.mp hbeside)
        rw [htop top hcontext]
        exact List.mem_cons_self
      · exact List.mem_cons_of_mem _ hpath
  obtain ⟨location, hlocation, key, hkey, hdocument⟩ := hfrom
  refine List.mem_flatMap.mpr ⟨key, List.mem_filterMap.mpr ⟨location, hlocation, hkey⟩, ?_⟩
  simpa using hdocument

/-! ### The longest key -/

def longestKey (catalog : Catalog) : Nat :=
  (catalog.documents.map (·.key.length)).foldr max 0

theorem longestKey_add (catalog : Catalog) (document : Document) :
    (catalog.add document).longestKey = max document.key.length catalog.longestKey := rfl

theorem Knows.length_le (h : catalog.Knows document) :
    document.key.length ≤ catalog.longestKey := by
  have hmem := h.mem
  unfold longestKey
  generalize catalog.documents = documents at hmem
  induction documents with
  | nil => cases hmem
  | cons first rest ih =>
    rw [List.map_cons, List.foldr_cons]
    rcases List.mem_cons.mp hmem with rfl | hmem
    · exact Nat.le_max_left _ _
    · exact Nat.le_trans (ih hmem) (Nat.le_max_right _ _)

end Catalog

end SchemaClasses
