import SchemaClasses.Output
import SchemaClasses.Proofs.FileTree

/-!
# Written files

Files that are written one after another, up to the last, change what is at their places and nothing
else. Where several lie at one place, the last decides what is there in the end.
-/

namespace SchemaClasses

namespace OutputFile

open FileTree (Alters)

variable {before after : FileTree} {files : List OutputFile} {file : OutputFile}

/-- The file can be read from a tree. -/
def IsIn (file : OutputFile) (tree : FileTree) : Prop := tree.readText? file.path = some file.text

def change (before : FileTree) (file : OutputFile) : List String × Option String :=
  (before.spot file.path, some file.text)

theorem makeParent_alters {path : String} (h : makeParent before path = .ok after) :
    Alters [] before after := by
  unfold makeParent at h
  split at h
  · rw [← Except.ok.inj h]
    exact .refl before
  split at h
  · rename_i hmade
    rw [← Except.ok.inj h]
    exact FileTree.makeDirectories_alters hmade
  · cases h

theorem write_alters (h : file.write before = .ok after) :
    Alters [file.change before] before after ∧
      after.place file.path = .ok (before.spot file.path) := by
  unfold write at h
  simp only [throw, throwThe, MonadExceptOf.throw, bind, Except.bind, pure, Except.pure] at h
  split at h
  · cases h
  rename_i between hparent
  have hmade := makeParent_alters hparent
  split at h
  · rename_i hwrite
    obtain rfl := Except.ok.inj h
    have hwritten := FileTree.write_alters hwrite
    rw [hmade.spot_eq] at hwritten
    exact ⟨hmade.trans hwritten.1, hwritten.2⟩
  · cases h

/-- Files that are written change what is at their places, and their paths lead there. -/
theorem writeAll_alters (h : writeAll before files = (after, none)) :
    Alters (files.map (change before)) before after ∧
      ∀ file ∈ files, after.place file.path = .ok (before.spot file.path) := by
  induction files generalizing before with
  | nil =>
    rw [← (Prod.mk.inj h).1]
    exact ⟨.refl before, by simp⟩
  | cons file files ih =>
    rw [writeAll] at h
    cases hfile : file.write before with
    | error fault =>
      rw [hfile] at h
      cases h
    | ok between =>
      rw [hfile] at h
      obtain ⟨hfirst, hplace⟩ := write_alters hfile
      obtain ⟨hrest, hplaces⟩ := ih h
      have hchange : files.map (change between) = files.map (change before) :=
        List.map_congr_left fun file _ => by rw [change, change, hfirst.spot_eq]
      rw [hchange] at hrest
      refine ⟨hfirst.trans hrest, List.forall_mem_cons.mpr ⟨hrest.leads hplace, ?_⟩⟩
      intro file hmem
      rw [hplaces file hmem, hfirst.spot_eq]

def filesAt (before : FileTree) (place : List String) (files : List OutputFile) :
    List OutputFile :=
  files.filter (before.spot ·.path = place)

theorem mem_filesAt {place : List String} :
    file ∈ filesAt before place files ↔ file ∈ files ∧ before.spot file.path = place := by
  simp [filesAt]

theorem file?_of_writeAll (h : writeAll before files = (after, none)) (place : List String) :
    after.file? place = (((filesAt before place files).getLast?.map fun file => some file.text).or
      (before.file? place)) := by
  rw [(writeAll_alters h).1.file, FileTree.lastPut, List.filter_map, List.map_map,
    List.getLast?_map]
  rfl

theorem readText?_of_last {last : OutputFile} (h : writeAll before files = (after, none))
    (hmem : file ∈ files)
    (hlast : (filesAt before (before.spot file.path) files).getLast? = some last) :
    after.readText? file.path = some last.text := by
  rw [FileTree.readText?_eq ((writeAll_alters h).2 file hmem), file?_of_writeAll h, hlast]
  rfl

theorem isIn_of_writeAll (h : writeAll before files = (after, none)) (hmem : file ∈ files)
    (alone : ∀ other ∈ files, before.spot other.path = before.spot file.path →
      other.content = file.content) :
    file.IsIn after ∧ after.file? (before.spot file.path) = some (some file.text) := by
  obtain ⟨last, hlast⟩ := Option.isSome_iff_exists.mp (List.getLast?_isSome.mpr
    (List.ne_nil_of_mem (mem_filesAt.mpr ⟨hmem, rfl⟩)))
  obtain ⟨hother, hspot⟩ := mem_filesAt.mp (List.mem_of_getLast? hlast)
  have htext : last.text = file.text :=
    congrArg (fun content : Json => content.pretty ++ "\n") (alone last hother hspot)
  rw [IsIn, readText?_of_last h hmem hlast, file?_of_writeAll h, hlast, ← htext]
  exact ⟨rfl, rfl⟩

theorem file?_of_elsewhere (h : writeAll before files = (after, none)) {place : List String}
    (elsewhere : ∀ file ∈ files, before.spot file.path ≠ place) :
    after.file? place = before.file? place := by
  have hnone : filesAt before place files = [] :=
    List.filter_eq_nil_iff.mpr fun file hfile => by simpa using elsewhere file hfile
  rw [file?_of_writeAll h, hnone]
  rfl

end OutputFile

end SchemaClasses
