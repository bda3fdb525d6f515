import Mathlib.Data.List.Infix
import SchemaClasses.Proofs.Catalog.Plain

/-!
# Transparency of the catalog

A catalog keeps what it has found, and yet what it answers does not depend on that. As long as no
path has a `#`, an answer follows from the files, the paths and what references are relative to: it
is the part that the fragment selects in the first of the locations that holds a schema. Only which
documents are made depends on the past, since none is made twice.
-/

namespace SchemaClasses

namespace Text

theorem occurs_iff {part cs : List Char} : occurs part cs = true ↔ part <:+: cs := by
  induction cs with
  | nil => simp [occurs]
  | cons c rest ih =>
    rw [occurs, Bool.or_eq_true, ih, List.isPrefixOf_iff_prefix, List.infix_cons_iff]

end Text

def FileTree.fileAt? (files : FileTree) (path : String) : Option Document :=
  ((files.readText? path).bind Json.read?).map fun body => ⟨path, path, body⟩

def FileTree.documentAt? (files : FileTree) (location : String) : Option Document :=
  if Location.isUrl location then none else (files.canonical? location).bind files.fileAt?

/-- The part of a document that a fragment selects. -/
def Document.part? (document : Document) (fragment : String) : Option Document :=
  if fragment = "" ∨ fragment = "/" then some document
  else (document.body.pointer? fragment).map fun body =>
    ⟨document.key ++ "#" ++ fragment, document.source, body⟩

namespace Catalog

/-- A call on a catalog. -/
inductive Call where
  | load (reference : String)
  | loadExtension (reference : String) (hint : Option String)
  | enter (document : Document)
  | leave

namespace Call

def fragment : Call → String
  | load reference => (Location.splitReference reference).2
  | loadExtension reference _ => (Location.splitReference reference).2
  | _ => ""

/-- What references are relative to after a call. -/
def context (sources : List String) : Call → List String
  | enter document => document.source :: sources
  | leave => sources.tail
  | _ => sources

end Call

/-- What a call answers, and the catalog after it. -/
def call (catalog : Catalog) : Call → Option Document × Catalog
  | .load reference => catalog.load reference
  | .loadExtension reference hint => catalog.loadExtension reference hint
  | .enter document => (none, catalog.enter document)
  | .leave => (none, catalog.leave)

def after (catalog : Catalog) (calls : List Call) : Catalog :=
  calls.foldl (fun catalog call => (catalog.call call).2) catalog

end Catalog

/-- The files and paths that a catalog starts with. -/
structure Library where
  files : FileTree
  searchPaths : List String
  extensionPaths : List String

namespace Library

open Catalog

def catalog (library : Library) (downloads : List (String × String) := []) : Catalog :=
  .new library.files library.searchPaths library.extensionPaths downloads

def hintedPaths (library : Library) (hint : Option String) : List String :=
  let fits (path : String) : Bool := ∀ text ∈ hint, text.toList <:+: path.toList
  library.extensionPaths.filter fits ++ library.extensionPaths.filter (!fits ·)

/-- Where a call looks, in order, with references relative to `top`. -/
def locations (library : Library) (top : Option String) : Call → List String
  | .load reference =>
    let file := (Location.splitReference reference).1
    if file = "" then top.toList
    else (top.map (Location.beside · file)).toList ++
      library.searchPaths.map (Location.inDirectory · file)
  | .loadExtension reference hint =>
    let file := (Location.splitReference reference).1
    (library.hintedPaths hint).map (Location.inDirectory · file)
  | _ => []

def file? (library : Library) (top : Option String) (call : Call) : Option Document :=
  (library.locations top call).findSome? library.files.documentAt?

def answer? (library : Library) (top : Option String) (call : Call) : Option Document :=
  (library.file? top call).bind (·.part? call.fragment)

end Library

theorem FileTree.fileAt?_inv {files : FileTree} {path : String} {file : Document}
    (h : files.fileAt? path = some file) : ∃ body, file = ⟨path, path, body⟩ := by
  obtain ⟨body, -, rfl⟩ := Option.map_eq_some_iff.mp h
  exact ⟨body, rfl⟩

theorem FileTree.exists_path {files : FileTree} {locations : List String} {file : Document}
    (h : locations.findSome? files.documentAt? = some file) :
    ∃ path, files.IsPath path ∧ files.fileAt? path = some file := by
  obtain ⟨location, -, hlocation⟩ := List.exists_of_findSome?_eq_some h
  unfold documentAt? at hlocation
  split at hlocation
  · cases hlocation
  · obtain ⟨path, hcanonical, hfile⟩ := Option.bind_eq_some_iff.mp hlocation
    exact ⟨path, ⟨location, hcanonical⟩, hfile⟩

/-! ### Next to a file -/

namespace Location

open FileTree

/-- A name next to a file takes the place of the last component. -/
theorem beside_spell {place : List String} {file name : String}
    (h : ∀ part ∈ place ++ [file], IsComponent part) (hurl : isUrl name = false)
    (hname : isAbsolute name = false) :
    beside (spell (place ++ [file])) name = spell (place ++ [name]) := by
  have hplace : ∀ part ∈ place, IsComponent part := fun part hpart =>
    h part (List.mem_append_left _ hpart)
  have hfile : isUrl (spell (place ++ [file])) = false := by
    rw [← Bool.not_eq_true]
    intro hurl
    cases (isAbsolute_spell _).symm.trans (isAbsolute_of_isUrl hurl)
  simp [beside, hurl, hname, hfile, parent?_spell h, join_spell hplace hname]

end Location

namespace FileTree

open Location

theorem exists_spell {files : FileTree} {key : String}
    (hstart : ∀ part ∈ files.workingDirectory, IsComponent part) (h : files.IsPath key) :
    ∃ place, key = spell place ∧ ∀ part ∈ place, IsComponent part := by
  obtain ⟨location, h⟩ := h
  obtain ⟨place, hplace, rfl⟩ := canonical?_inv h
  have hfrom : ∀ part ∈ files.startOf location, IsComponent part := by
    unfold startOf
    split
    · simp
    · exact hstart
  have hkeeps {place next : List String} {component : String}
      (hmem : component ∈ components location) (hpart : ∀ part ∈ place, IsComponent part)
      (hfollow : files.follow place component = .ok next) : ∀ part ∈ next, IsComponent part := by
    obtain ⟨piece, hpiece, rfl⟩ := List.mem_map.mp hmem
    refine follow_isComponent ?_ hpart hfollow
    rw [String.toList_ofList]
    exact Text.not_mem_of_mem_pieces hpiece
  exact ⟨place, rfl, followAllShort_keeps hkeeps hfrom hplace⟩

/-- Next to a document that is found in a file, a relative name is one in the directory of the
file. -/
theorem beside_of_documentAt? {files : FileTree} {location : String} {document : Document}
    (hstart : ∀ part ∈ files.workingDirectory, IsComponent part)
    (h : files.documentAt? location = some document) :
    ∃ directory file, document.source = spell (directory ++ [file]) ∧
      (∀ part ∈ directory ++ [file], IsComponent part) ∧
      ∀ name, isUrl name = false → isAbsolute name = false →
        beside document.source name = spell (directory ++ [name]) := by
  unfold documentAt? at h
  split at h
  · cases h
  obtain ⟨path, hcanonical, hfile⟩ := Option.bind_eq_some_iff.mp h
  obtain ⟨body, hbody, rfl⟩ := Option.map_eq_some_iff.mp hfile
  obtain ⟨text, htext, -⟩ := Option.bind_eq_some_iff.mp hbody
  obtain ⟨place, rfl, hplace⟩ := exists_spell hstart ⟨location, hcanonical⟩
  have hne : place ≠ [] := by
    rintro rfl
    cases htext
  obtain ⟨directory, file, rfl⟩ : ∃ directory file, place = directory ++ [file] :=
    ⟨_, _, (List.dropLast_concat_getLast hne).symm⟩
  exact ⟨directory, file, rfl, hplace, fun name hurl hname => beside_spell hplace hurl hname⟩

end FileTree

theorem Document.part?_cases {document part : Document} {fragment : String}
    (h : document.part? fragment = some part) :
    part = document ∨ ¬(fragment = "" ∨ fragment = "/") ∧ ∃ body,
      document.body.pointer? fragment = some body ∧
      part = ⟨document.key ++ "#" ++ fragment, document.source, body⟩ := by
  unfold part? at h
  split at h
  · exact .inl (Option.some.inj h).symm
  · rename_i hwhole
    obtain ⟨body, hbody, rfl⟩ := Option.map_eq_some_iff.mp h
    exact .inr ⟨hwhole, body, hbody, rfl⟩

/-- A path without a `#` ends at the first one. -/
theorem Location.append_injective {path other fragment fragment' : String}
    (hpath : '#' ∉ path.toList) (hother : '#' ∉ other.toList)
    (h : path ++ "#" ++ fragment = other ++ "#" ++ fragment') :
    path = other ∧ fragment = fragment' := by
  have hparts := congrArg parts h
  rw [parts_append, parts_append, parts_of_not_mem hpath, parts_of_not_mem hother,
    List.singleton_append, List.singleton_append, List.cons.injEq] at hparts
  exact ⟨String.toList_injective hparts.1, parts_injective hparts.2⟩

namespace Catalog

variable {catalog : Catalog} {document file : Document}

/-- A step that finds only what is known makes no document. -/
theorem loadLocation_documents {location : String}
    (known : ∀ found, (catalog.loadLocation location).1 = some found → catalog.Knows found) :
    (catalog.loadLocation location).2.documents = catalog.documents := by
  unfold loadLocation at known ⊢
  split
  · rfl
  · rename_i key hkey
    simp only [hkey] at known
    split
    · rfl
    · rename_i new
      simp only [new] at known
      split
      · rfl
      · rename_i body hread
        simp only [hread] at known
        have hknows : catalog.document? key = some _ := known _ rfl
        rw [new] at hknows
        cases hknows

theorem loadFirst_documents {locations : List String}
    (known : ∀ found, (catalog.loadFirst locations).1 = some found → catalog.Knows found) :
    (catalog.loadFirst locations).2.documents = catalog.documents := by
  induction locations generalizing catalog with
  | nil => rfl
  | cons location rest ih =>
    rw [loadFirst] at known ⊢
    split
    · rename_i found between heq
      simp only [heq] at known
      have hlocation : (catalog.loadLocation location).2.documents = catalog.documents :=
        loadLocation_documents (by simpa [heq] using known)
      rwa [heq] at hlocation
    · rename_i between heq
      simp only [heq] at known
      have hlocation : (catalog.loadLocation location).2.documents = catalog.documents :=
        loadLocation_documents (by simp [heq])
      rw [heq] at hlocation
      refine (ih fun found hfound => ?_).trans hlocation
      exact (document?_eq hlocation _).trans (known found hfound)

theorem select_documents {fragment : String}
    (known : ∀ found, (catalog.select document fragment).1 = some found → catalog.Knows found) :
    (catalog.select document fragment).2.documents = catalog.documents := by
  unfold select at known ⊢
  split
  · rfl
  · rename_i hwhole
    simp only [if_neg hwhole] at known
    dsimp only
    split
    · rfl
    · rename_i new
      simp only [new] at known
      split
      · rfl
      · rename_i body hbody
        simp only [hbody] at known
        have hknows : catalog.document? _ = some _ := known _ rfl
        rw [new] at hknows
        cases hknows

theorem loadFrom_documents {reference fragment : String} {locations : List String}
    (first : ∀ found, (catalog.loadFirst locations).1 = some found → catalog.Knows found)
    (known : ∀ found, (catalog.loadFrom reference locations fragment).1 = some found →
      catalog.Knows found) :
    (catalog.loadFrom reference locations fragment).2.documents = catalog.documents := by
  have hfirst := loadFirst_documents first
  unfold loadFrom at known ⊢
  split
  · rename_i file between heq
    simp only [heq] at known
    rw [heq] at hfirst
    refine (select_documents fun found hfound => ?_).trans hfirst
    exact (document?_eq hfirst _).trans (known found hfound)
  · rename_i between heq
    rwa [heq] at hfirst

/-- Nothing is downloaded, keys are distinct, and every document is a file or a part of one. -/
structure Faithful (catalog : Catalog) : Prop where
  offline : catalog.downloads = []
  distinct : (catalog.documents.map (·.key)).Nodup
  parts : ∀ document, catalog.Knows document → ∃ path file fragment,
    catalog.files.IsPath path ∧ catalog.files.fileAt? path = some file ∧
      file.part? fragment = some document

theorem new_faithful (files : FileTree) (searchPaths extensionPaths : List String) :
    (new files searchPaths extensionPaths).Faithful :=
  ⟨rfl, List.nodup_nil, fun _ known => by cases known⟩

namespace Faithful

theorem fileAt?_key (h : catalog.Faithful) (known : catalog.Knows document)
    (hkey : '#' ∉ document.key.toList) :
    catalog.files.fileAt? document.key = some document := by
  obtain ⟨path, file, fragment, -, hfile, hpart⟩ := h.parts document known
  obtain ⟨body, rfl⟩ := FileTree.fileAt?_inv hfile
  obtain rfl | ⟨-, part, -, rfl⟩ := Document.part?_cases hpart
  · exact hfile
  · simp at hkey

/-- A document whose key has a fragment after the path of a file is that part of the file. -/
theorem part?_key (h : catalog.Faithful) (plain : ¬catalog.files.HashInPath)
    (known : catalog.Knows document) {path fragment : String} (hpath : catalog.files.IsPath path)
    (hfile : catalog.files.fileAt? path = some file)
    (hkey : document.key = path ++ "#" ++ fragment) : file.part? fragment = some document := by
  obtain ⟨path', file', fragment', hpath', hfile', hpart⟩ := h.parts document known
  obtain ⟨body, rfl⟩ := FileTree.fileAt?_inv hfile'
  obtain rfl | ⟨-, part, -, rfl⟩ := Document.part?_cases hpart
  · refine absurd ⟨path', hpath', ?_⟩ plain
    rw [show path' = _ from hkey]
    simp
  · obtain ⟨rfl, rfl⟩ := Location.append_injective (fun hmem => plain ⟨path', hpath', hmem⟩)
      (fun hmem => plain ⟨path, hpath, hmem⟩) hkey
    obtain rfl := Option.some.inj (hfile.symm.trans hfile')
    exact hpart

theorem absolute (h : catalog.Faithful) (known : catalog.Knows document) :
    Location.isAbsolute document.key = true := by
  obtain ⟨path, file, fragment, hpath, hfile, hpart⟩ := h.parts document known
  obtain ⟨body, rfl⟩ := FileTree.fileAt?_inv hfile
  obtain rfl | ⟨-, part, -, rfl⟩ := Document.part?_cases hpart
  · exact hpath.absolute
  · rw [String.append_assoc]
    exact Location.isAbsolute_append hpath.absolute _

theorem of_same {after : Catalog} (h : catalog.Faithful) (htexts : catalog.SameTexts after)
    (hdocuments : after.documents = catalog.documents) : after.Faithful := by
  refine ⟨htexts.downloads.trans h.offline, hdocuments ▸ h.distinct, fun document known => ?_⟩
  rw [htexts.files]
  exact h.parts document ((document?_eq hdocuments _).symm.trans known)

theorem add (h : catalog.Faithful) (new : catalog.document? document.key = none)
    {path fragment : String} (hpath : catalog.files.IsPath path)
    (hfile : catalog.files.fileAt? path = some file)
    (hpart : file.part? fragment = some document) : (catalog.add document).Faithful := by
  refine ⟨h.offline, ?_, ?_⟩
  · refine List.nodup_cons.mpr ⟨fun hmem => ?_, h.distinct⟩
    obtain ⟨other, hother, hkey⟩ := List.mem_map.mp hmem
    have := List.find?_eq_none.mp new other hother
    simp [hkey] at this
  · intro other known
    rcases knows_add known with rfl | hbefore
    · exact ⟨path, file, fragment, hpath, hfile, hpart⟩
    · exact h.parts other hbefore

theorem addFile (h : catalog.Faithful) {path : String} (hpath : catalog.files.IsPath path)
    (hfile : catalog.files.fileAt? path = some file) (new : catalog.document? file.key = none) :
    (catalog.addFile file).Faithful := by
  have hpart : file.part? "" = some file := by simp [Document.part?]
  have hadd := h.add new hpath hfile hpart
  unfold Catalog.addFile
  split
  · unfold giveTitle
    split
    · split
      · exact hadd.of_same ⟨rfl, rfl⟩ rfl
      · exact hadd.of_same ⟨rfl, rfl⟩ rfl
    · exact hadd.of_same ⟨rfl, rfl⟩ rfl
  · exact hadd

theorem loadLocation (h : catalog.Faithful) (location : String) :
    (catalog.loadLocation location).2.Faithful := by
  unfold Catalog.loadLocation
  split
  · exact h.of_same ⟨rfl, rfl⟩ rfl
  · rename_i key hkey
    split
    · exact h
    · rename_i new
      split
      · exact h
      · rename_i body hread
        have hpath := (isLocated_of_keyOf? hkey).isPath hread h.offline
        rw [readBody?_path hpath] at hread
        refine h.addFile hpath ?_ new
        rw [FileTree.fileAt?, hread, Option.map_some]

/-- What is found at a location is the file there, whatever is known. -/
theorem loadLocation_fst (h : catalog.Faithful) (plain : ¬catalog.files.HashInPath)
    (location : String) :
    (catalog.loadLocation location).1 = catalog.files.documentAt? location := by
  unfold FileTree.documentAt?
  by_cases hurl : Location.isUrl location = true
  · have hkey : catalog.keyOf? location = some (Location.normalizeUrl location) := by
      rw [keyOf?, if_pos hurl]
    have hnormal := Location.isUrl_normalizeUrl hurl
    have hunknown : catalog.document? (Location.normalizeUrl location) = none := by
      refine Option.eq_none_iff_forall_ne_some.mpr fun document hdocument => ?_
      have known := knows_of_document? hdocument
      have hkey : document.key = Location.normalizeUrl location := by
        simpa using List.find?_some hdocument
      have := h.absolute known
      rw [hkey, Location.isAbsolute_of_isUrl hnormal] at this
      cases this
    have hread : catalog.readBody? (Location.normalizeUrl location) = none := by
      rw [readBody?, readText?, if_pos hnormal, h.offline]
      rfl
    rw [if_pos hurl]
    simp [Catalog.loadLocation, hkey, hunknown, hread]
  · have hkey : catalog.keyOf? location = catalog.files.canonical? location := by
      rw [keyOf?, if_neg hurl]
    rw [if_neg hurl]
    cases hcanonical : catalog.files.canonical? location with
    | none => simp [Catalog.loadLocation, hkey, hcanonical]
    | some path =>
      have hpath : catalog.files.IsPath path := ⟨location, hcanonical⟩
      rw [Option.bind_some]
      cases hknown : catalog.document? path with
      | some document =>
        have hdocument : document.key = path := by simpa using List.find?_some hknown
        have hfile := h.fileAt?_key (knows_of_document? hknown)
          (fun hmem => plain ⟨path, hpath, hdocument ▸ hmem⟩)
        rw [← hdocument, hfile]
        simp [Catalog.loadLocation, hkey, hcanonical, hknown]
      | none =>
        have hread := readBody?_path hpath
        rw [FileTree.fileAt?, ← hread]
        cases hbody : catalog.readBody? path <;>
          simp [Catalog.loadLocation, hkey, hcanonical, hknown, hbody]

theorem loadFirst (h : catalog.Faithful) (locations : List String) :
    (catalog.loadFirst locations).2.Faithful :=
  loadFirst_keeps loadLocation h locations

theorem loadFirst_fst (h : catalog.Faithful) (plain : ¬catalog.files.HashInPath)
    (locations : List String) :
    (catalog.loadFirst locations).1 = locations.findSome? catalog.files.documentAt? := by
  induction locations generalizing catalog with
  | nil => rfl
  | cons location rest ih =>
    have hlocation := h.loadLocation location
    have hfiles := (catalog.loadLocation_finds location).grows.files
    have hfound := h.loadLocation_fst plain location
    rw [Catalog.loadFirst]
    split
    · rename_i document between heq
      rw [heq] at hfound
      rw [List.findSome?_cons, ← hfound]
    · rename_i between heq
      rw [heq] at hlocation hfiles hfound
      rw [ih hlocation (hfiles ▸ plain), hfiles, List.findSome?_cons, ← hfound]

theorem select (h : catalog.Faithful) {path : String} (hpath : catalog.files.IsPath path)
    (hfile : catalog.files.fileAt? path = some file) (fragment : String) :
    (catalog.select file fragment).2.Faithful := by
  unfold Catalog.select
  split
  · exact h
  · rename_i hwhole
    dsimp only
    split
    · exact h
    · rename_i new
      split
      · exact h.of_same ⟨rfl, rfl⟩ rfl
      · rename_i body hbody
        have hpart : file.part? fragment =
            some ⟨file.key ++ "#" ++ fragment, file.source, body⟩ := by
          rw [Document.part?, if_neg hwhole, hbody, Option.map_some]
        exact h.add new hpath hfile hpart

/-- What is selected in a file is the part of it, whatever is known. -/
theorem select_fst (h : catalog.Faithful) (plain : ¬catalog.files.HashInPath) {path : String}
    (hpath : catalog.files.IsPath path) (hfile : catalog.files.fileAt? path = some file)
    (fragment : String) : (catalog.select file fragment).1 = file.part? fragment := by
  unfold Catalog.select
  split
  · rw [Document.part?, if_pos ‹_›]
  · rename_i hwhole
    dsimp only
    split
    · rename_i part hknown
      obtain ⟨body, rfl⟩ := FileTree.fileAt?_inv hfile
      exact (h.part?_key plain (knows_of_document? hknown) hpath hfile
        (by simpa using List.find?_some hknown)).symm
    · rw [Document.part?, if_neg hwhole]
      split
      · rename_i hbody
        rw [hbody, Option.map_none]
      · rename_i body hbody
        rw [hbody, Option.map_some]

theorem loadFirst_file (h : catalog.Faithful) (plain : ¬catalog.files.HashInPath)
    {locations : List String} {between : Catalog}
    (heq : catalog.loadFirst locations = (some file, between)) :
    between.Faithful ∧ ¬between.files.HashInPath ∧
      ∃ path, between.files.IsPath path ∧ between.files.fileAt? path = some file := by
  have hfirst := h.loadFirst locations
  have hfound := h.loadFirst_fst plain locations
  have hfiles := (catalog.loadFirst_finds locations).grows.files
  rw [heq] at hfirst hfound hfiles
  dsimp only at hfiles
  rw [hfiles]
  exact ⟨hfirst, plain, FileTree.exists_path hfound.symm⟩

theorem loadFrom (h : catalog.Faithful) (plain : ¬catalog.files.HashInPath)
    (reference : String) (locations : List String) (fragment : String) :
    (catalog.loadFrom reference locations fragment).2.Faithful := by
  unfold Catalog.loadFrom
  split
  · rename_i file between heq
    obtain ⟨hfirst, -, path, hpath, hfile⟩ := h.loadFirst_file plain heq
    exact hfirst.select hpath hfile fragment
  · rename_i between heq
    have hfirst := h.loadFirst locations
    rw [heq] at hfirst
    exact hfirst.of_same ⟨rfl, rfl⟩ rfl

theorem loadFrom_fst (h : catalog.Faithful) (plain : ¬catalog.files.HashInPath)
    (reference : String) (locations : List String) (fragment : String) :
    (catalog.loadFrom reference locations fragment).1 =
      (locations.findSome? catalog.files.documentAt?).bind (·.part? fragment) := by
  rw [← h.loadFirst_fst plain locations]
  unfold Catalog.loadFrom
  split
  · rename_i file between heq
    obtain ⟨hfirst, hplain, path, hpath, hfile⟩ := h.loadFirst_file plain heq
    rw [heq, Option.bind_some]
    exact hfirst.select_fst hplain hpath hfile fragment
  · rename_i between heq
    rw [heq]
    rfl

end Faithful

/-- A catalog that has started with the files and paths of a library. -/
structure Serves (catalog : Catalog) (library : Library) : Prop where
  files : catalog.files = library.files
  searchPaths : catalog.searchPaths = library.searchPaths
  extensionPaths : catalog.extensionPaths = library.extensionPaths
  faithful : catalog.Faithful

variable {library : Library}

theorem hintedPaths_eq (h : catalog.extensionPaths = library.extensionPaths)
    (hint : Option String) : catalog.hintedPaths hint = library.hintedPaths hint := by
  unfold hintedPaths Library.hintedPaths
  rw [h]
  cases hint with
  | none => simp
  | some text =>
    have hfits (path : String) :
        Text.occurs text.toList path.toList = decide (text.toList <:+: path.toList) := by
      rw [Bool.eq_iff_iff, Text.occurs_iff, decide_eq_true_iff]
    simp [hfits]

/-- A call that loads something loads it from the locations that the library has for it. -/
theorem call_eq (hsearch : catalog.searchPaths = library.searchPaths)
    (hextension : catalog.extensionPaths = library.extensionPaths) (call : Call) :
    (∃ reference, catalog.call call = catalog.loadFrom reference
      (library.locations catalog.contextTop? call) call.fragment) ∨
    library.locations catalog.contextTop? call = [] ∧ ∃ context log,
      catalog.call call = (none, { catalog with context := context, log := log }) := by
  cases call with
  | load reference =>
    simp only [Catalog.call, Library.locations, Call.fragment, load]
    split
    · cases htop : catalog.contextTop? with
      | some top => exact .inl ⟨reference, rfl⟩
      | none => exact .inr ⟨rfl, _, _, rfl⟩
    · refine .inl ⟨reference, ?_⟩
      rw [locations, hsearch]
  | loadExtension reference hint =>
    refine .inl ⟨reference, ?_⟩
    simp only [Catalog.call, Library.locations, Call.fragment, loadExtension,
      hintedPaths_eq hextension]
  | enter document => exact .inr ⟨rfl, _, _, rfl⟩
  | leave => exact .inr ⟨rfl, _, _, rfl⟩

theorem new_serves (library : Library) : library.catalog.Serves library :=
  ⟨rfl, rfl, rfl, new_faithful _ _ _⟩

namespace Serves

theorem call (h : catalog.Serves library) (plain : ¬library.files.HashInPath) (call : Call) :
    (catalog.call call).2.Serves library := by
  obtain ⟨reference, heq⟩ | ⟨-, context, log, heq⟩ := call_eq h.searchPaths h.extensionPaths call
  · have hgrows := (catalog.loadFrom_finds reference
      (library.locations catalog.contextTop? call) call.fragment).grows
    rw [heq]
    exact ⟨hgrows.files.trans h.files, hgrows.searchPaths.trans h.searchPaths,
      hgrows.extensionPaths.trans h.extensionPaths,
      h.faithful.loadFrom (h.files ▸ plain) _ _ _⟩
  · rw [heq]
    exact ⟨h.files, h.searchPaths, h.extensionPaths, h.faithful.of_same ⟨rfl, rfl⟩ rfl⟩

theorem after (h : catalog.Serves library) (plain : ¬library.files.HashInPath) (calls : List Call) :
    (catalog.after calls).Serves library := by
  induction calls generalizing catalog with
  | nil => exact h
  | cons call calls ih => exact ih (h.call plain call)

/-- An answer follows from the library and from what references are relative to. -/
theorem call_fst (h : catalog.Serves library) (plain : ¬library.files.HashInPath) (call : Call) :
    (catalog.call call).1 = library.answer? catalog.contextTop? call := by
  unfold Library.answer? Library.file?
  obtain ⟨reference, heq⟩ | ⟨hlocations, context, log, heq⟩ :=
    call_eq h.searchPaths h.extensionPaths call
  · rw [heq, h.faithful.loadFrom_fst (h.files ▸ plain), h.files]
  · rw [heq, hlocations]
    rfl

end Serves

theorem call_context (catalog : Catalog) (call : Call) :
    (catalog.call call).2.context = call.context catalog.context := by
  cases call with
  | load reference => exact (catalog.load_finds reference).grows.context
  | loadExtension reference hint => exact (catalog.loadExtension_finds reference hint).grows.context
  | enter document => rfl
  | leave => rfl

theorem after_context (catalog : Catalog) (calls : List Call) :
    (catalog.after calls).context = calls.foldl Call.context catalog.context := by
  induction calls generalizing catalog with
  | nil => rfl
  | cons call calls ih =>
    rw [List.foldl_cons, ← call_context]
    exact ih _

theorem Knows.call (h : catalog.Knows document) (call : Call) :
    (catalog.call call).2.Knows document := by
  cases call with
  | load reference => exact h.mono (catalog.load_finds reference).grows
  | loadExtension reference hint => exact h.mono (catalog.loadExtension_finds reference hint).grows
  | enter => exact h
  | leave => exact h

theorem Knows.after (h : catalog.Knows document) (calls : List Call) :
    (catalog.after calls).Knows document := by
  induction calls generalizing catalog with
  | nil => exact h
  | cons call calls ih => exact ih (h.call call)

/-- After a call the file that it has looked in is known, and what it has answered. -/
theorem Serves.call_knows (h : catalog.Serves library) (plain : ¬library.files.HashInPath)
    {call : Call} (hfile : library.file? catalog.contextTop? call = some file) :
    (catalog.call call).2.Knows file ∧
      ∀ document, (catalog.call call).1 = some document → (catalog.call call).2.Knows document := by
  obtain ⟨reference, heq⟩ | ⟨hlocations, -⟩ := call_eq h.searchPaths h.extensionPaths call
  · rw [heq]
    refine ⟨?_, (catalog.loadFrom_finds _ _ _).knows⟩
    have hfirst := h.faithful.loadFirst_fst (h.files ▸ plain)
      (library.locations catalog.contextTop? call)
    rw [h.files] at hfirst
    have hfound := hfirst.trans hfile
    have known := (catalog.loadFirst_finds _).knows file hfound
    unfold Catalog.loadFrom
    split
    · rename_i found between heq
      rw [heq] at hfound known
      obtain rfl := Option.some.inj hfound
      exact known.mono (select_finds known _).grows
    · rename_i between heq
      rw [heq] at hfound
      cases hfound
  · rw [Library.file?, hlocations] at hfile
    cases hfile

theorem Serves.call_documents (h : catalog.Serves library) (plain : ¬library.files.HashInPath)
    {call : Call} (first : ∀ file, library.file? catalog.contextTop? call = some file →
      catalog.Knows file)
    (known : ∀ document, (catalog.call call).1 = some document → catalog.Knows document) :
    (catalog.call call).2.documents = catalog.documents := by
  obtain ⟨reference, heq⟩ | ⟨-, context, log, heq⟩ := call_eq h.searchPaths h.extensionPaths call
  · rw [heq] at known ⊢
    refine loadFrom_documents (fun file hfile => first file ?_) known
    rwa [h.faithful.loadFirst_fst (h.files ▸ plain), h.files] at hfile
  · rw [heq]

end Catalog

namespace Library

open Catalog

variable {library : Library}

def after (library : Library) (calls : List Call) : Catalog := library.catalog.after calls

theorem file?_unique {top top' : Option String} {call again : Call} {file other : Document}
    (hfile : library.file? top call = some file) (hother : library.file? top' again = some other)
    (hkey : other.key = file.key) : other = file := by
  obtain ⟨path, -, hfile⟩ := FileTree.exists_path hfile
  obtain ⟨path', -, hother⟩ := FileTree.exists_path hother
  obtain ⟨body, rfl⟩ := FileTree.fileAt?_inv hfile
  obtain ⟨body', rfl⟩ := FileTree.fileAt?_inv hother
  obtain rfl : path' = path := hkey
  exact Option.some.inj (hother.symm.trans hfile)

/-- What a catalog answers does not depend on what it has answered before, and two calls that select
the same fragment of the same file get the one document that was made for the first. -/
theorem answers_transparent (plain : ¬library.files.HashInPath) (calls : List Call) :
    (∀ call, ((library.after calls).call call).1 =
      library.answer? (library.after calls).contextTop? call) ∧
    (library.after calls).context = calls.foldl Call.context [] ∧
    (∀ others call, (library.after others).contextTop? = (library.after calls).contextTop? →
      ((library.after others).call call).1 = ((library.after calls).call call).1) ∧
    ((library.after calls).documents.map (·.key)).Nodup ∧
    ∀ call file document, library.file? (library.after calls).contextTop? call = some file →
      ((library.after calls).call call).1 = some document →
      ∀ more again other,
        library.file? (library.after (calls ++ call :: more)).contextTop? again = some other →
        other.key = file.key → again.fragment = call.fragment →
        (library.after (calls ++ call :: more)).document? document.key = some document ∧
        ((library.after (calls ++ call :: more)).call again).1 = some document ∧
        ((library.after (calls ++ call :: more)).call again).2.documents =
          (library.after (calls ++ call :: more)).documents := by
  have serves (calls : List Call) : (library.after calls).Serves library :=
    (new_serves library).after plain calls
  refine ⟨fun call => (serves calls).call_fst plain call, after_context _ _,
    fun others call htop => ?_, (serves calls).faithful.distinct, ?_⟩
  · rw [(serves others).call_fst plain, (serves calls).call_fst plain, htop]
  · intro call file document hfile hanswer more again other hother hkey hfragment
    obtain rfl := file?_unique hfile hother hkey
    obtain ⟨hknows, hanswers⟩ := (serves calls).call_knows plain hfile
    have hlater : library.after (calls ++ call :: more) =
        ((library.after calls).call call).2.after more := by
      rw [after, Catalog.after, List.foldl_append]
      rfl
    have hfirst : (library.after (calls ++ call :: more)).Knows other :=
      hlater ▸ hknows.after more
    have known : (library.after (calls ++ call :: more)).Knows document :=
      hlater ▸ (hanswers document hanswer).after more
    have hagain : ((library.after (calls ++ call :: more)).call again).1 = some document := by
      rw [(serves _).call_fst plain, answer?, hother, hfragment, ← hanswer,
        (serves calls).call_fst plain, answer?, hfile]
    refine ⟨known, hagain, (serves _).call_documents plain (fun file hfile => ?_)
      fun found hfound => ?_⟩
    · obtain rfl := Option.some.inj (hother.symm.trans hfile)
      exact hfirst
    · obtain rfl := Option.some.inj (hagain.symm.trans hfound)
      exact known

def oneItem : Library :=
  ⟨⟨[], [(["s"], .directory), (["s", "a"], .file (some "[true]"))]⟩, ["/s"], []⟩

/-- The item is found, and found again once references are relative to it. -/
theorem answers_transparent_item :
    ¬oneItem.files.HashInPath ∧ ∃ document, document.key = "/s/a#/0" ∧
      ((oneItem.after []).call (.load "a#/0")).1 = some document ∧
      ((oneItem.after [.load "a#/0", .enter document]).call (.load "#/0")).1 = some document ∧
      ((oneItem.after [.load "a#/0", .enter document]).call (.load "#/0")).2.documents =
        (oneItem.after [.load "a#/0", .enter document]).documents := by
  have plain : ¬oneItem.files.HashInPath := by
    refine FileTree.not_hashInPath ?_ ?_ <;> decide
  have hanswer : (((oneItem.after []).call (.load "a#/0")).1.map fun document =>
      (document.key, document.source)) = some ("/s/a#/0", "/s/a") := by
    decide +kernel
  have hfile : ((oneItem.file? none (.load "a#/0")).map fun file => file.key) = some "/s/a" := by
    decide +kernel
  have hagain : ((oneItem.file? (some "/s/a") (.load "#/0")).map fun file => file.key) =
      some "/s/a" := by
    decide +kernel
  obtain ⟨document, hanswer, hkeys⟩ := Option.map_eq_some_iff.mp hanswer
  obtain ⟨hkey, hsource⟩ := Prod.mk.inj hkeys
  obtain ⟨file, hfile, hpath⟩ := Option.map_eq_some_iff.mp hfile
  obtain ⟨other, hother, hpath'⟩ := Option.map_eq_some_iff.mp hagain
  obtain ⟨-, -, -, -, hsame⟩ := answers_transparent plain []
  have htop : (oneItem.after [.load "a#/0", .enter document]).contextTop? = some "/s/a" := by
    rw [← hsource]
    rfl
  obtain ⟨-, hfound, hdocuments⟩ := hsame (.load "a#/0") file document hfile hanswer
    [.enter document] (.load "#/0") other (by rw [← hother, ← htop]; rfl)
    (hpath'.trans hpath.symm) (by decide)
  exact ⟨plain, document, hkey, hanswer, hfound, hdocuments⟩

end Library

end SchemaClasses
