import Mathlib.Data.List.Chain
import SchemaClasses.Proofs.Catalog.Titles
import SchemaClasses.Proofs.Catalog.Transparency

/-!
# The ledger of titles

Whatever is asked of a catalog, and whatever documents it is given, a request loads one file anew
at most: the one that it looks in, if that was not known. Of the files of one title that have been
loaded, in that order, the last one is known by the title, and the collisions of the title are the
hand-overs from each file to the next. A request that finds its file and not the fragment in it
loads the file all the same.
-/

namespace SchemaClasses

namespace Catalog

/-- What is asked of a catalog: a call, or that a document is known that is in no file. -/
inductive Request where
  | call (call : Call)
  | insert (document : Document)

def serve (catalog : Catalog) : Request → Option Document × Catalog
  | .call call => catalog.call call
  | .insert document => (some (catalog.insert document).1, (catalog.insert document).2)

def served (catalog : Catalog) (requests : List Request) : Catalog :=
  requests.foldl (fun catalog request => (catalog.serve request).2) catalog

/-- Where a request looks for its file, in order. -/
def lookedAt (catalog : Catalog) : Request → List String
  | .call call =>
    Library.locations ⟨catalog.files, catalog.searchPaths, catalog.extensionPaths⟩
      catalog.contextTop? call
  | .insert _ => []

def documentAt? (catalog : Catalog) (location : String) : Option Document :=
  (catalog.keyOf? location).bind fun key =>
    (catalog.document? key).or ((catalog.readBody? key).map fun body => ⟨key, key, body⟩)

def isNew (catalog : Catalog) (document : Document) : Bool :=
  (catalog.document? document.key).isNone

def newAmong? (catalog : Catalog) (locations : List String) : Option Document :=
  (locations.findSome? catalog.documentAt?).filter catalog.isNew

def newFile? (catalog : Catalog) (request : Request) : Option Document :=
  catalog.newAmong? (catalog.lookedAt request)

/-- The files that requests load anew one after another. -/
def newFiles (catalog : Catalog) : List Request → List Document
  | [] => []
  | request :: requests =>
    (catalog.newFile? request).toList ++ (catalog.serve request).2.newFiles requests

/-- The catalog with the file that has been loaded anew, if there is one. -/
def withFile (catalog : Catalog) (file? : Option Document) : Catalog :=
  file?.elim catalog catalog.addFile

/-- The hand-over of the title of a new file from the file that had it. -/
def handOver? (catalog : Catalog) (file : Document) : Option Collision := do
  let title ← file.title?
  let previous ← catalog.byTitle? title
  return ⟨title, previous.key, file.key⟩

variable {catalog : Catalog} {document file : Document}

/-! ### What a request loads -/

/-- Looking at a location finds the document there, and adds it if it is new. -/
theorem loadLocation_eq (catalog : Catalog) (location : String) :
    ∃ missing, catalog.loadLocation location = (catalog.documentAt? location,
      { catalog.withFile ((catalog.documentAt? location).filter catalog.isNew) with
        missing := missing }) := by
  unfold loadLocation documentAt?
  cases hkey : catalog.keyOf? location with
  | none => exact ⟨location :: catalog.missing, rfl⟩
  | some key =>
    cases hknown : catalog.document? key with
    | some known =>
      have hsame : known.key = key := by simpa using List.find?_some hknown
      have hold : catalog.isNew known = false := by simp [isNew, hsame, hknown]
      exact ⟨catalog.missing, by simp [withFile, Option.filter, hold, hknown]⟩
    | none =>
      cases hread : catalog.readBody? key with
      | none => exact ⟨catalog.missing, by simp [withFile, hknown, hread]⟩
      | some body =>
        have hnew : catalog.isNew ⟨key, key, body⟩ = true := by simp [isNew, hknown]
        exact ⟨(catalog.addFile ⟨key, key, body⟩).missing,
          by simp [withFile, Option.filter, hnew, hknown, hread]⟩

/-- The paths that led nowhere do not matter to a new file. -/
theorem withFile_missing (catalog : Catalog) (file? : Option Document)
    (missing missing' : List String) :
    { withFile { catalog with missing := missing } file? with missing := missing' } =
      { catalog.withFile file? with missing := missing' } := by
  cases file? with
  | none => rfl
  | some file =>
    simp only [withFile, Option.elim_some, addFile]
    cases file.title? with
    | none => rfl
    | some title =>
      simp only [giveTitle, add, byTitle?]
      cases Ordered.get? catalog.titles title with
      | none => rfl
      | some previous =>
        dsimp only
        split <;> rfl

theorem loadFirst_eq (catalog : Catalog) (locations : List String) :
    ∃ missing, catalog.loadFirst locations = (locations.findSome? catalog.documentAt?,
      { catalog.withFile (catalog.newAmong? locations) with missing := missing }) := by
  induction locations generalizing catalog with
  | nil => exact ⟨catalog.missing, rfl⟩
  | cons location rest ih =>
    obtain ⟨missing, hlocation⟩ := catalog.loadLocation_eq location
    rw [loadFirst, hlocation, newAmong?, List.findSome?_cons]
    cases hfound : catalog.documentAt? location with
    | some document => exact ⟨missing, rfl⟩
    | none =>
      obtain ⟨missing', hrest⟩ := ih { catalog with missing := missing }
      exact ⟨missing', hrest.trans (congrArg (Prod.mk _) (withFile_missing ..))⟩

theorem select_titles (catalog : Catalog) (document : Document) (fragment : String) :
    (catalog.select document fragment).2.titles = catalog.titles ∧
      (catalog.select document fragment).2.collisions = catalog.collisions := by
  unfold select
  split
  · exact ⟨rfl, rfl⟩
  · dsimp only
    split
    · exact ⟨rfl, rfl⟩
    · split <;> exact ⟨rfl, rfl⟩

theorem loadFrom_titles (catalog : Catalog) (reference : String) (locations : List String)
    (fragment : String) :
    (catalog.loadFrom reference locations fragment).2.titles =
        (catalog.withFile (catalog.newAmong? locations)).titles ∧
      (catalog.loadFrom reference locations fragment).2.collisions =
        (catalog.withFile (catalog.newAmong? locations)).collisions := by
  obtain ⟨missing, hfirst⟩ := catalog.loadFirst_eq locations
  rw [loadFrom, hfirst]
  cases locations.findSome? catalog.documentAt? with
  | some document => exact select_titles _ document fragment
  | none => exact ⟨rfl, rfl⟩

theorem insert_titles (catalog : Catalog) (document : Document) :
    (catalog.insert document).2.titles = catalog.titles ∧
      (catalog.insert document).2.collisions = catalog.collisions := by
  unfold insert
  split <;> exact ⟨rfl, rfl⟩

/-- A request that loads something loads it from where it looks, and another one changes no document
and no title. -/
theorem serve_cases (catalog : Catalog) (request : Request) :
    (∃ reference fragment, catalog.serve request =
      catalog.loadFrom reference (catalog.lookedAt request) fragment) ∨
    catalog.lookedAt request = [] ∧ (∀ file, catalog.Knows file →
      (catalog.serve request).2.Knows file) ∧ (catalog.serve request).2.titles = catalog.titles ∧
      (catalog.serve request).2.collisions = catalog.collisions := by
  cases request with
  | insert document =>
    exact .inr ⟨rfl, fun file known => known.mono (catalog.insert_finds document).grows,
      catalog.insert_titles document⟩
  | call call =>
    obtain ⟨reference, heq⟩ | ⟨hlocations, context, log, heq⟩ :=
      @call_eq catalog ⟨catalog.files, catalog.searchPaths, catalog.extensionPaths⟩ rfl rfl call
    · exact .inl ⟨reference, _, heq⟩
    · refine .inr ⟨hlocations, fun file known => known.call call, ?_⟩
      rw [serve, heq]
      exact ⟨rfl, rfl⟩

theorem serve_titles (catalog : Catalog) (request : Request) :
    (catalog.serve request).2.titles =
        (catalog.withFile (catalog.newFile? request)).titles ∧
      (catalog.serve request).2.collisions =
        (catalog.withFile (catalog.newFile? request)).collisions := by
  obtain ⟨reference, fragment, heq⟩ | ⟨hlocations, -, hsame⟩ := catalog.serve_cases request
  · rw [heq, newFile?]
    exact catalog.loadFrom_titles _ _ _
  · rw [newFile?, hlocations]
    exact hsame

/-- What is known stays known, and a file that is loaded anew is known. -/
theorem serve_knows (catalog : Catalog) (request : Request) (h : catalog.Knows file ∨
    catalog.newFile? request = some file) : (catalog.serve request).2.Knows file := by
  obtain ⟨reference, fragment, heq⟩ | ⟨hlocations, hknows, -⟩ := catalog.serve_cases request
  · rw [heq]
    rcases h with known | hnew
    · exact known.mono (catalog.loadFrom_finds _ _ _).grows
    · obtain ⟨missing, hfirst⟩ := catalog.loadFirst_eq (catalog.lookedAt request)
      obtain ⟨hfound, -⟩ := Option.filter_eq_some_iff.mp hnew
      have known := (catalog.loadFirst_finds (catalog.lookedAt request)).knows file
        (by rw [hfirst, hfound])
      rw [hfirst, hfound] at known
      rw [loadFrom, hfirst, hfound]
      exact known.mono (select_finds known fragment).grows
  · rcases h with known | hnew
    · exact hknows file known
    · rw [newFile?, hlocations] at hnew
      cases hnew

/-! ### The files of a title -/

def ofTitle (title : String) (files : List Document) : List Document :=
  files.filter (·.title? = some title)

/-- The hand-overs of a title from each of some files to the next. -/
def handOvers (title : String) (files : List Document) : List Collision :=
  List.zipWith (fun previous current => ⟨title, previous.key, current.key⟩) files files.tail

theorem handOvers_concat (title : String) (files : List Document) (file : Document) :
    handOvers title (files ++ [file]) = handOvers title files ++
      (files.getLast?.map fun previous => Collision.mk title previous.key file.key).toList := by
  induction files with
  | nil => rfl
  | cons first rest ih =>
    cases rest with
    | nil => rfl
    | cons second rest =>
      have hcons (files : List Document) : handOvers title (first :: second :: files) =
          ⟨title, first.key, second.key⟩ :: handOvers title (second :: files) := rfl
      rw [List.cons_append, List.cons_append, hcons, hcons, ← List.cons_append, ih,
        List.cons_append, List.getLast?_cons_cons]

theorem length_handOvers (title : String) (files : List Document) :
    (handOvers title files).length = files.length - 1 := by
  rw [handOvers, List.length_zipWith, List.length_tail]
  omega

theorem previous_handOvers {title : String} {files : List Document} {entry : Collision}
    (h : (handOvers title files).head? = some entry) :
    files.head?.map (·.key) = some entry.previous := by
  match files, h with
  | first :: second :: rest, h =>
    obtain rfl := Option.some.inj h
    rfl

/-- The last hand-over is to the last file. -/
theorem current_handOvers {title : String} {files : List Document} {entry : Collision}
    (h : (handOvers title files).getLast? = some entry) :
    files.getLast?.map (·.key) = some entry.current := by
  rcases List.eq_nil_or_concat files with rfl | ⟨init, last, rfl⟩
  · cases h
  · rw [List.concat_eq_append, handOvers_concat] at h
    rw [List.concat_eq_append, List.getLast?_concat, Option.map_some]
    cases hinit : init.getLast? with
    | none =>
      rw [List.getLast?_eq_none_iff.mp hinit] at h
      cases h
    | some previous =>
      rw [hinit, Option.map_some, Option.toList_some, List.getLast?_concat] at h
      obtain rfl := Option.some.inj h
      rfl

theorem isChain_handOvers (title : String) (files : List Document) :
    (handOvers title files).IsChain fun entry next => next.previous = entry.current := by
  match files with
  | [] | [_] => exact .nil
  | [_, _] => exact .singleton _
  | first :: second :: third :: rest =>
    exact .cons_cons rfl (isChain_handOvers title (second :: third :: rest))

/-- The titles and the collisions of a catalog are those of the files that it has loaded. -/
structure Ledger (files : List Document) (catalog : Catalog) : Prop where
  knows : ∀ file ∈ files, catalog.Knows file
  distinct : (files.map (·.key)).Nodup
  byTitle? : ∀ title, catalog.byTitle? title = (ofTitle title files).getLast?
  collisions : ∀ title, catalog.collisions.filter (·.title = title) =
    handOvers title (ofTitle title files)

variable {files : List Document} {request : Request}

/-- A new file takes its title from the file that had it. -/
theorem addFile_collisions (h : catalog.Ledger files) (hnew : catalog.isNew file = true) :
    (catalog.addFile file).collisions =
      catalog.collisions ++ (catalog.handOver? file).toList := by
  rw [collisions_addFile]
  congr 1
  unfold handOver?
  cases file.title? with
  | none => rfl
  | some title =>
    rw [Option.toList_some, List.flatMap_singleton]
    cases hprevious : catalog.byTitle? title with
    | none => simp [hprevious]
    | some previous =>
      have hne : previous.key ≠ file.key := by
        intro heq
        rw [h.byTitle?] at hprevious
        have known := h.knows previous (List.mem_of_mem_filter (List.mem_of_getLast? hprevious))
        rw [Knows, heq] at known
        simp [isNew, known] at hnew
      simp [Option.filter, hne, hprevious]

namespace Ledger

theorem new (files : FileTree) (searchPaths extensionPaths : List String)
    (downloads : List (String × String)) :
    Ledger [] (.new files searchPaths extensionPaths downloads) :=
  ⟨by simp, List.nodup_nil, fun _ => rfl, fun _ => rfl⟩

theorem addFile (h : catalog.Ledger files) (hnew : catalog.isNew file = true) :
    (catalog.addFile file).Ledger (files ++ [file]) := by
  have hnone : catalog.document? file.key = none := by simpa [isNew] using hnew
  refine ⟨?_, ?_, fun title => ?_, fun title => ?_⟩
  · intro other hother
    rcases List.mem_append.mp hother with hother | hother
    · exact (h.knows other hother).mono (addFile_grows hnone)
    · rw [List.mem_singleton.mp hother]
      exact catalog.addFile_knows file
  · rw [List.map_append, List.map_singleton, List.nodup_append]
    refine ⟨h.distinct, by simp, ?_⟩
    rintro key hkey _ hfile rfl
    obtain ⟨other, hother, rfl⟩ := List.mem_map.mp hkey
    have known := h.knows other hother
    rw [Knows, List.mem_singleton.mp hfile, hnone] at known
    cases known
  · rw [byTitle?_addFile, ofTitle, List.filter_append, h.byTitle?]
    by_cases htitle : file.title? = some title <;> simp [htitle, ofTitle]
  · rw [addFile_collisions h hnew, List.filter_append, h.collisions, ofTitle, ofTitle,
      List.filter_append]
    by_cases htitle : file.title? = some title
    · rw [List.filter_singleton]
      simp only [htitle, decide_true, cond_true]
      rw [handOvers_concat, handOver?, htitle]
      have hlast := h.byTitle? title
      rw [ofTitle] at hlast
      rw [← hlast]
      cases hprevious : catalog.byTitle? title <;> simp [hprevious]
    · have hother : (catalog.handOver? file).toList.filter (·.title = title) = [] := by
        rw [List.filter_eq_nil_iff]
        intro entry hentry
        obtain ⟨given, hgiven, hentry⟩ := Option.bind_eq_some_iff.mp (Option.mem_toList.mp hentry)
        obtain ⟨previous, -, hentry⟩ := Option.bind_eq_some_iff.mp hentry
        obtain rfl := Option.some.inj hentry
        simpa [hgiven] using htitle
      simp [hother, htitle]

theorem serve (h : catalog.Ledger files) (request : Request) :
    (catalog.serve request).2.Ledger (files ++ (catalog.newFile? request).toList) := by
  obtain ⟨htitles, hcollisions⟩ := catalog.serve_titles request
  have hknows : ∀ file ∈ files ++ (catalog.newFile? request).toList,
      (catalog.serve request).2.Knows file := by
    intro file hfile
    rcases List.mem_append.mp hfile with hfile | hfile
    · exact catalog.serve_knows request (.inl (h.knows file hfile))
    · exact catalog.serve_knows request (.inr (Option.mem_toList.mp hfile))
  cases hnew : catalog.newFile? request with
  | none =>
    rw [hnew] at htitles hcollisions hknows
    rw [Option.toList_none, List.append_nil] at hknows ⊢
    refine ⟨hknows, h.distinct, fun title => ?_, fun title => ?_⟩
    · rw [Catalog.byTitle?, htitles]
      exact h.byTitle? title
    · rw [hcollisions]
      exact h.collisions title
  | some file =>
    have hadded := h.addFile (Option.filter_eq_some_iff.mp hnew).2
    rw [hnew] at htitles hcollisions hknows
    refine ⟨hknows, hadded.distinct, fun title => ?_, fun title => ?_⟩
    · rw [Catalog.byTitle?, htitles]
      exact hadded.byTitle? title
    · rw [hcollisions]
      exact hadded.collisions title

theorem served (h : catalog.Ledger files) (requests : List Request) :
    (catalog.served requests).Ledger (files ++ catalog.newFiles requests) := by
  induction requests generalizing catalog files with
  | nil =>
    rw [newFiles, List.append_nil]
    exact h
  | cons request requests ih =>
    have hrest := ih (h.serve request)
    rwa [List.append_assoc] at hrest

theorem serve_collisions (h : catalog.Ledger files) (request : Request) :
    (catalog.serve request).2.collisions = catalog.collisions ++
      ((catalog.newFile? request).bind catalog.handOver?).toList := by
  rw [(catalog.serve_titles request).2]
  cases hnew : catalog.newFile? request with
  | none => exact (List.append_nil _).symm
  | some file => exact addFile_collisions h (Option.filter_eq_some_iff.mp hnew).2

end Ledger

theorem newFile?_eq_none (h : ∀ file,
    (catalog.lookedAt request).findSome? catalog.documentAt? = some file → catalog.Knows file) :
    catalog.newFile? request = none := by
  rw [newFile?, newAmong?, Option.filter_eq_none_iff]
  intro file hfile
  have known := h file hfile
  rw [Knows] at known
  simp [isNew, known]

end Catalog

namespace Library

open Catalog

/-- Of the files of a title that have been loaded, the last one is known by the title, and the
collisions of the title lead from the first of them to the last. A request adds one when it loads a
file anew that has the title of another, whether or not it then finds the fragment; one that looks
in a known file, or finds none, or gives a document adds nothing. -/
theorem titles_handed_over (library : Library) (downloads : List (String × String))
    (requests : List Request) :
    let catalog := (library.catalog downloads).served requests
    (∀ title,
      let files := ofTitle title ((library.catalog downloads).newFiles requests)
      let entries := catalog.collisions.filter (·.title = title)
      (files.map (·.key)).Nodup ∧
      catalog.byTitle? title = files.getLast? ∧
      entries.length = files.length - 1 ∧
      (∀ entry, entries.head? = some entry →
        files.head?.map (·.key) = some entry.previous) ∧
      entries.IsChain (fun entry next => next.previous = entry.current) ∧
      ∀ entry, entries.getLast? = some entry →
        (catalog.byTitle? title).map (·.key) = some entry.current) ∧
    ∀ request,
      (catalog.serve request).2.collisions =
        catalog.collisions ++ ((catalog.newFile? request).bind catalog.handOver?).toList ∧
      ((∀ file, (catalog.lookedAt request).findSome? catalog.documentAt? = some file →
          catalog.Knows file) →
        (catalog.serve request).2.collisions = catalog.collisions) := by
  intro catalog
  have ledger : catalog.Ledger ((library.catalog downloads).newFiles requests) :=
    (Ledger.new _ _ _ _).served requests
  refine ⟨fun title => ?_, fun request => ⟨ledger.serve_collisions request, fun known => ?_⟩⟩
  · dsimp only
    rw [ledger.collisions, ledger.byTitle?]
    refine ⟨?_, rfl, length_handOvers _ _, fun entry => previous_handOvers,
      isChain_handOvers _ _, fun entry => current_handOvers⟩
    exact ledger.distinct.sublist (List.filter_sublist.map _)
  · rw [ledger.serve_collisions, newFile?_eq_none known]
    exact List.append_nil _

def twoOfATitle : Library :=
  ⟨⟨[], [(["s"], .directory), (["s", "a"], .file (some "\x7b\"title\":\"T\"\x7d")),
    (["s", "b"], .file (some "\x7b\"title\":\"T\"\x7d"))]⟩, ["/s"], []⟩

/-- A request that fails adds a collision, because its file is loaded and only the fragment in it is
missing. -/
theorem failure_collides :
    let catalog := twoOfATitle.catalog.served [.call (.load "a")]
    (catalog.serve (.call (.load "b#/x"))).1.isNone = true ∧ catalog.collisions = [] ∧
      (catalog.serve (.call (.load "b#/x"))).2.collisions = [⟨"T", "/s/a", "/s/b"⟩] := by
  decide +kernel

end Library

end SchemaClasses
