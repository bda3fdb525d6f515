import SchemaClasses.Proofs.Generation.OutputPaths
import SchemaClasses.Proofs.Generation.WrittenFiles

/-!
# Handler files

A run writes the handler view of each object to a file of its own, or gathers the views in one file.
Files of a run lie at different places when the directories do, and when the bare names of the
classes are different and have no slashes. Then a run leaves every one of its files as it was
written, and both kinds of runs end with the same views.
-/

namespace SchemaClasses

/-- What a file is called after that has the view of a class with a bare name. -/
def ViewKind.stem : ViewKind → String → String
  | model, name => name
  | reader, name => name ++ "JsonHandler"
  | writer, name => name ++ "JsonWriter"

theorem ViewKind.exists_iff {p : ViewKind → Prop} :
    (∃ kind, p kind) ↔ p .model ∨ p .reader ∨ p .writer := by
  constructor
  · rintro ⟨kind, hkind⟩
    cases kind with
    | model => exact .inl hkind
    | reader => exact .inr (.inl hkind)
    | writer => exact .inr (.inr hkind)
  · rintro (hkind | hkind | hkind) <;> exact ⟨_, hkind⟩

theorem ViewKind.stem_injective (kind : ViewKind) : Function.Injective kind.stem := by
  cases kind with
  | model => exact fun _ _ h => h
  | reader => exact fun _ _ h => (String.append_left_inj _).mp h
  | writer => exact fun _ _ h => (String.append_left_inj _).mp h

theorem ViewKind.not_mem_stem (kind : ViewKind) {name : String} (h : '/' ∉ name.toList) :
    '/' ∉ (kind.stem name).toList := by
  cases kind <;> simp [stem, h]

theorem ViewKind.stem_reader_ne (name : String) :
    reader.stem name ≠ "GeneratedJsonHandlers" ∧ reader.stem name ≠ "extensions" := by
  have hlast : (reader.stem name).toList.getLast? = some 'r' := by
    rw [stem, String.toList_append, List.getLast?_append]
    rfl
  constructor <;> intro h <;> rw [h] at hlast <;> exact absurd hlast (by decide)

namespace OutputOptions

variable {options : OutputOptions} {kind other : ViewKind} {stem third : String}

def leaf (options : OutputOptions) (kind : ViewKind) (stem : String) : String :=
  Location.join (options.directory kind) (stem ++ ".json")

/-- The three directories are at different places. -/
def Apart (options : OutputOptions) (files : FileTree) : Prop :=
  [files.spot options.modelDirectory, files.spot options.readerDirectory,
    files.spot options.writerDirectory].Nodup

instance (options : OutputOptions) (files : FileTree) : Decidable (options.Apart files) :=
  inferInstanceAs (Decidable (List.Nodup _))

theorem Apart.eq {files : FileTree} (apart : options.Apart files)
    (h : files.spot (options.directory kind) = files.spot (options.directory other)) :
    kind = other := by
  have hmem (kind : ViewKind) : kind ∈ [ViewKind.model, .reader, .writer] := by
    cases kind <;> simp
  have apart : ([ViewKind.model, .reader, .writer].map fun kind =>
      files.spot (options.directory kind)).Nodup := apart
  exact List.inj_on_of_nodup_map apart (hmem kind) (hmem other) h

theorem leaf_stem (options : OutputOptions) (kind : ViewKind) (name : String) :
    options.leaf kind (kind.stem name) = options.path kind name := by
  cases kind <;> simp [leaf, path, ViewKind.stem, ViewKind.ending, String.append_assoc]

theorem spot_leaf (files : FileTree) (options : OutputOptions) (kind : ViewKind)
    (hstem : '/' ∉ stem.toList) : files.spot (options.leaf kind stem) =
      files.spot (options.directory kind) ++ [stem ++ ".json"] := by
  have hslash : '/' ∉ (stem ++ ".json").toList := by
    rw [String.toList_append, List.mem_append]
    exact not_or.mpr ⟨hstem, by decide⟩
  have hlast : (stem ++ ".json").toList.getLast? = some 'n' := by
    rw [String.toList_append, List.getLast?_append]
    rfl
  have hne (name : String) (hname : name.toList.getLast? ≠ some 'n') : stem ++ ".json" ≠ name := by
    rintro rfl
    exact hname hlast
  rw [leaf, files.spot_join _ hslash, FileTree.step,
    if_neg (not_or.mpr ⟨hne _ (by decide), hne _ (by decide)⟩), if_neg (hne _ (by decide))]

theorem spot_leaf_inj {files : FileTree} (apart : options.Apart files)
    (hstem : '/' ∉ stem.toList) (hthird : '/' ∉ third.toList)
    (h : files.spot (options.leaf kind stem) = files.spot (options.leaf other third)) :
    kind = other ∧ stem = third := by
  rw [spot_leaf files options kind hstem, spot_leaf files options other hthird] at h
  obtain ⟨hdirectory, hname⟩ := List.append_inj' h rfl
  exact ⟨apart.eq hdirectory, (String.append_left_inj _).mp (List.singleton_inj.mp hname)⟩

end OutputOptions

namespace Run

variable {run : Run} {naming : Naming} {options : OutputOptions} {one : Bool}
variable {c : ClassDescriptor} {kind : ViewKind} {stem : String} {content other : Json}

/-- The view of a class that goes to a file of a kind. -/
def view? (run : Run) (naming : Naming) (c : ClassDescriptor) : ViewKind → Option Json
  | .model => some (View.model run.table c)
  | .reader => c.object?.map (View.reader run.registry c)
  | .writer => c.object?.map (View.writer naming run.registry c)

/-- A run that writes handler views to one file, or not, has a file of a kind, with what it is
called after and what it holds. -/
inductive HasFile (run : Run) (naming : Naming) (one : Bool) : ViewKind → String → Json → Prop
  | view {c : ClassDescriptor} {kind : ViewKind} {content : Json} (hc : c ∈ run.generated)
      (apiece : kind = .reader → one = false) (hview : run.view? naming c kind = some content) :
      HasFile run naming one kind (kind.stem c.bareName) content
  | handlers (gathered : one = true) :
      HasFile run naming one .reader "GeneratedJsonHandlers" (.arr run.handlerViews)
  | extensions : HasFile run naming one .reader "extensions" run.registry.toJson

theorem mem_classFiles {file : OutputFile} : file ∈ run.classFiles naming options c ↔
    ∃ kind, (kind = .reader → options.oneHandlerFile = false) ∧
      run.view? naming c kind = some file.content ∧ file.path = options.path kind c.bareName := by
  obtain ⟨path, content⟩ := file
  rw [ViewKind.exists_iff]
  unfold classFiles
  cases hobject : c.object? <;> cases options.oneHandlerFile <;>
    simp [hobject, view?, OutputOptions.path, OutputOptions.directory, ViewKind.ending,
      ClassDescriptor.bareName, and_comm, @eq_comm _ content]

theorem mem_files {file : OutputFile} : file ∈ run.files naming options ↔
    ∃ kind stem, run.HasFile naming options.oneHandlerFile kind stem file.content ∧
      file.path = options.leaf kind stem := by
  unfold files
  rw [List.mem_append, List.mem_append, List.mem_flatMap]
  constructor
  · rintro ((⟨c, hc, hfile⟩ | hfile) | hfile)
    · obtain ⟨kind, apiece, hview, hpath⟩ := mem_classFiles.mp hfile
      exact ⟨kind, _, .view hc apiece hview, hpath.trans (options.leaf_stem _ _).symm⟩
    · split at hfile
      · rename_i gathered
        rw [List.mem_singleton.mp hfile]
        exact ⟨_, _, .handlers gathered, rfl⟩
      · cases hfile
    · rw [List.mem_singleton.mp hfile]
      exact ⟨_, _, .extensions, rfl⟩
  · rintro ⟨kind, stem, hfile, hpath⟩
    obtain ⟨path, content⟩ := file
    obtain rfl := hpath
    cases hfile with
    | view hc apiece hview =>
      exact .inl (.inl ⟨_, hc, mem_classFiles.mpr ⟨_, apiece, hview, options.leaf_stem _ _⟩⟩)
    | handlers gathered =>
      rw [if_pos gathered]
      exact .inl (.inr (List.mem_singleton.mpr rfl))
    | extensions => exact .inr (List.mem_singleton.mpr rfl)

namespace HasFile

theorem not_mem (h : run.HasFile naming one kind stem content)
    (flat : ∀ c ∈ run.generated, '/' ∉ c.bareName.toList) : '/' ∉ stem.toList := by
  cases h with
  | view hc => exact kind.not_mem_stem (flat _ hc)
  | handlers => decide
  | extensions => decide

/-- Files of a kind that are called after the same hold the same. -/
theorem unique (distinct : (run.generated.map (·.bareName)).Nodup)
    (h : run.HasFile naming one kind stem content) (h' : run.HasFile naming one kind stem other) :
    content = other := by
  generalize hstem : stem = stem' at h'
  cases h with
  | @view c _ _ hc _ hview =>
    cases h' with
    | @view d _ _ hd _ hview' =>
      have hname : c.bareName = d.bareName := kind.stem_injective hstem
      obtain rfl := List.inj_on_of_nodup_map distinct hc hd hname
      exact Option.some.inj (hview.symm.trans hview')
    | handlers => exact absurd hstem (ViewKind.stem_reader_ne _).1
    | extensions => exact absurd hstem (ViewKind.stem_reader_ne _).2
  | handlers =>
    cases h' with
    | view => exact absurd hstem.symm (ViewKind.stem_reader_ne _).1
    | handlers => rfl
    | extensions => exact absurd hstem (by decide)
  | extensions =>
    cases h' with
    | view => exact absurd hstem.symm (ViewKind.stem_reader_ne _).2
    | handlers => exact absurd hstem (by decide)
    | extensions => rfl

/-- The files of a run that gathers handler views are the gathered ones and some of those of a run
that does not. -/
theorem apiece (h : run.HasFile naming true kind stem content) :
    kind = .reader ∧ stem = "GeneratedJsonHandlers" ∨
      run.HasFile naming false kind stem content := by
  cases h with
  | view hc _ hview => exact .inr (.view hc (fun _ => rfl) hview)
  | handlers => exact .inl ⟨rfl, rfl⟩
  | extensions => exact .inr .extensions

/-- The files of a run that does not gather handler views are those of its objects and some of those
of a run that does. -/
theorem gathered (h : run.HasFile naming false kind stem content) :
    (∃ c ∈ run.generated, c.object?.isSome ∧ kind = .reader ∧
        stem = ViewKind.reader.stem c.bareName) ∨
      run.HasFile naming true kind stem content := by
  cases h with
  | @view c _ _ hc _ hview =>
    cases kind with
    | model => exact .inr (.view hc nofun hview)
    | writer => exact .inr (.view hc nofun hview)
    | reader =>
      obtain ⟨object, hobject, -⟩ := Option.map_eq_some_iff.mp hview
      exact .inl ⟨c, hc, hobject ▸ rfl, rfl, rfl⟩
  | handlers gathered => cases gathered
  | extensions => exact .inr .extensions

theorem ne_stem_reader (h : run.HasFile naming true .reader stem content) (name : String) :
    stem ≠ ViewKind.reader.stem name := by
  cases h with
  | view _ apiece => cases apiece rfl
  | handlers => exact (ViewKind.stem_reader_ne name).1.symm
  | extensions => exact (ViewKind.stem_reader_ne name).2.symm

theorem ne_gathered (h : run.HasFile naming false .reader stem content) :
    stem ≠ "GeneratedJsonHandlers" := by
  cases h with
  | view => exact (ViewKind.stem_reader_ne _).1
  | handlers gathered => cases gathered
  | extensions => decide

theorem object?_isSome (distinct : (run.generated.map (·.bareName)).Nodup)
    (h : run.HasFile naming false .reader stem content) (hc : c ∈ run.generated)
    (hstem : stem = ViewKind.reader.stem c.bareName) : c.object?.isSome := by
  rcases h.gathered with ⟨d, hd, hobject, -, hname⟩ | h
  · have hname := ViewKind.reader.stem_injective (hstem.symm.trans hname)
    obtain rfl := List.inj_on_of_nodup_map distinct hc hd hname
    exact hobject
  · exact absurd hstem (h.ne_stem_reader _)

end HasFile

theorem content_eq_of_spot {files : FileTree} {first second : OutputFile}
    (hfirst : first ∈ run.files naming options) (hsecond : second ∈ run.files naming options)
    (apart : options.Apart files) (distinct : (run.generated.map (·.bareName)).Nodup)
    (flat : ∀ c ∈ run.generated, '/' ∉ c.bareName.toList)
    (h : files.spot first.path = files.spot second.path) : first.content = second.content := by
  obtain ⟨kind, stem, hfirst, hpath⟩ := mem_files.mp hfirst
  obtain ⟨kind', stem', hsecond, hpath'⟩ := mem_files.mp hsecond
  rw [hpath, hpath'] at h
  obtain ⟨rfl, rfl⟩ :=
    OutputOptions.spot_leaf_inj apart (hfirst.not_mem flat) (hsecond.not_mem flat) h
  exact hfirst.unique distinct hsecond

theorem isIn_of_mem {before after : FileTree} {file : OutputFile}
    (written : OutputFile.writeAll before (run.files naming options) = (after, none))
    (apart : options.Apart before) (distinct : (run.generated.map (·.bareName)).Nodup)
    (flat : ∀ c ∈ run.generated, '/' ∉ c.bareName.toList)
    (hmem : file ∈ run.files naming options) :
    file.IsIn after ∧ after.file? (before.spot file.path) = some (some file.text) :=
  OutputFile.isIn_of_writeAll written hmem fun _ hother =>
    content_eq_of_spot hother hmem apart distinct flat

section

variable {output : OutputOptions} {before after : FileTree}
variable (written : OutputFile.writeAll before
  (run.files naming { output with oneHandlerFile := one }) = (after, none))

include written

theorem HasFile.isIn (apart : output.Apart before)
    (distinct : (run.generated.map (·.bareName)).Nodup)
    (flat : ∀ c ∈ run.generated, '/' ∉ c.bareName.toList)
    (h : run.HasFile naming one kind stem content) :
    OutputFile.IsIn ⟨output.leaf kind stem, content⟩ after ∧
      after.file? (before.spot (output.leaf kind stem)) =
        some (some (OutputFile.text ⟨output.leaf kind stem, content⟩)) :=
  isIn_of_mem written apart distinct flat (mem_files.mpr ⟨kind, stem, h, rfl⟩)

theorem file?_of_forall {place : List String}
    (h : ∀ kind stem content, run.HasFile naming one kind stem content →
      before.spot (output.leaf kind stem) ≠ place) : after.file? place = before.file? place := by
  refine OutputFile.file?_of_elsewhere written fun file hfile => ?_
  obtain ⟨kind, stem, hhas, hpath⟩ := mem_files.mp hfile
  rw [hpath]
  exact h kind stem _ hhas

theorem file?_leaf (apart : output.Apart before)
    (flat : ∀ c ∈ run.generated, '/' ∉ c.bareName.toList) (hstem : '/' ∉ stem.toList)
    (h : ∀ stem' content, run.HasFile naming one kind stem' content → stem' ≠ stem) :
    after.file? (before.spot (output.leaf kind stem)) =
      before.file? (before.spot (output.leaf kind stem)) := by
  refine file?_of_forall written fun kind' stem' content hfile hspot => ?_
  obtain ⟨rfl, heq⟩ := OutputOptions.spot_leaf_inj apart (hfile.not_mem flat) hstem hspot
  exact h stem' content hfile heq

end

/-- Handler views are gathered in one tree and have files of their own in another, and the trees
have the same files but for these. -/
structure SameViews (run : Run) (naming : Naming) (output : OutputOptions)
    (before whole split : FileTree) : Prop where
  /-- The array of the handler views of all objects, in work order. -/
  gathered : OutputFile.IsIn
    ⟨output.leaf .reader "GeneratedJsonHandlers", .arr run.handlerViews⟩ whole
  /-- Each of these views is in the file of its object. -/
  apiece : List.Forall₂
    (fun c view => OutputFile.IsIn ⟨output.path .reader c.bareName, view⟩ split)
    (run.generated.filter (·.object?.isSome)) run.handlerViews
  /-- Enumerations have no handler files. -/
  enumerations : ∀ c ∈ run.generated, c.object? = none →
    split.file? (before.spot (output.path .reader c.bareName)) =
      before.file? (before.spot (output.path .reader c.bareName))
  /-- No class has a handler file when the views are gathered. -/
  noneApiece : ∀ c ∈ run.generated,
    whole.file? (before.spot (output.path .reader c.bareName)) =
      before.file? (before.spot (output.path .reader c.bareName))
  /-- There is no file for all handler views when each has its own. -/
  noneGathered : split.file? (before.spot (output.leaf .reader "GeneratedJsonHandlers")) =
    before.file? (before.spot (output.leaf .reader "GeneratedJsonHandlers"))
  /-- The model view of every class and the writer view of every object are in both trees. -/
  views : ∀ c ∈ run.generated, ∀ kind view, kind ≠ .reader → run.view? naming c kind = some view →
    OutputFile.IsIn ⟨output.path kind c.bareName, view⟩ whole ∧
      OutputFile.IsIn ⟨output.path kind c.bareName, view⟩ split
  extensions : OutputFile.IsIn ⟨output.leaf .reader "extensions", run.registry.toJson⟩ whole ∧
    OutputFile.IsIn ⟨output.leaf .reader "extensions", run.registry.toJson⟩ split
  /-- Both trees have the same files but for the handler files. -/
  elsewhere : ∀ place, place ≠ before.spot (output.leaf .reader "GeneratedJsonHandlers") →
    (∀ c ∈ run.generated, c.object?.isSome →
      place ≠ before.spot (output.path .reader c.bareName)) →
    whole.file? place = split.file? place

theorem forall₂_handlerViews {R : ClassDescriptor → Json → Prop}
    (h : ∀ c ∈ run.generated, ∀ view, run.view? naming c .reader = some view → R c view) :
    List.Forall₂ R (run.generated.filter (·.object?.isSome)) run.handlerViews := by
  unfold handlerViews
  generalize run.generated = classes at h ⊢
  induction classes with
  | nil => exact .nil
  | cons c classes ih =>
    cases hobject : c.object? with
    | none =>
      rw [List.filter_cons_of_neg (by simp [hobject]), List.filterMap_cons_none (by simp [hobject])]
      exact ih fun d hd => h d (List.mem_cons_of_mem c hd)
    | some object =>
      rw [List.filter_cons_of_pos (by simp [hobject]),
        List.filterMap_cons_some (by rw [hobject, Option.map_some])]
      refine .cons (h c List.mem_cons_self _ ?_) (ih fun d hd => h d (List.mem_cons_of_mem c hd))
      rw [view?, hobject]
      rfl

section

variable {output : OutputOptions} {before whole split : FileTree}

theorem sameViews_of_writeAll
    (hwhole : OutputFile.writeAll before
      (run.files naming { output with oneHandlerFile := true }) = (whole, none))
    (hsplit : OutputFile.writeAll before
      (run.files naming { output with oneHandlerFile := false }) = (split, none))
    (apart : output.Apart before) (distinct : (run.generated.map (·.bareName)).Nodup)
    (flat : ∀ c ∈ run.generated, '/' ∉ c.bareName.toList) :
    run.SameViews naming output before whole split where
  gathered := ((HasFile.handlers rfl).isIn hwhole apart distinct flat).1
  apiece := forall₂_handlerViews fun c hc view hview => by
    rw [← output.leaf_stem]
    exact ((HasFile.view hc (fun _ => rfl) hview).isIn hsplit apart distinct flat).1
  enumerations c hc hobject := by
    rw [← output.leaf_stem]
    refine file?_leaf hsplit apart flat (ViewKind.reader.not_mem_stem (flat c hc)) ?_
    intro stem content h hstem
    have hsome := h.object?_isSome distinct hc hstem
    rw [hobject] at hsome
    cases hsome
  noneApiece c hc := by
    rw [← output.leaf_stem]
    exact file?_leaf hwhole apart flat (ViewKind.reader.not_mem_stem (flat c hc))
      fun _ _ h => h.ne_stem_reader _
  noneGathered := file?_leaf hsplit apart flat (by decide) fun _ _ h => h.ne_gathered
  views c hc kind view hkind hview := by
    rw [← output.leaf_stem]
    have apiece (one : Bool) : kind = .reader → one = false := fun h => absurd h hkind
    exact ⟨((HasFile.view hc (apiece true) hview).isIn hwhole apart distinct flat).1,
      ((HasFile.view hc (apiece false) hview).isIn hsplit apart distinct flat).1⟩
  extensions :=
    ⟨(HasFile.extensions.isIn hwhole apart distinct flat).1,
      (HasFile.extensions.isIn hsplit apart distinct flat).1⟩
  elsewhere place hhandlers hobjects := by
    by_cases hplace : ∃ kind stem content, run.HasFile naming true kind stem content ∧
        before.spot (output.leaf kind stem) = place
    · obtain ⟨kind, stem, content, h, rfl⟩ := hplace
      rcases h.apiece with ⟨rfl, rfl⟩ | h'
      · exact absurd rfl hhandlers
      · rw [(h.isIn hwhole apart distinct flat).2, (h'.isIn hsplit apart distinct flat).2]
    · have hwhole := file?_of_forall hwhole fun kind stem content h hspot =>
        hplace ⟨kind, stem, content, h, hspot⟩
      have hsplit := file?_of_forall hsplit fun kind stem content h hspot => by
        rcases h.gathered with ⟨c, hc, hobject, rfl, rfl⟩ | h
        · rw [output.leaf_stem] at hspot
          exact hobjects c hc hobject hspot.symm
        · exact hplace ⟨kind, stem, content, h, hspot⟩
      exact hwhole.trans hsplit.symm

end

end Run

/-- What a run that succeeds has written. -/
theorem RunOptions.generate_writeAll {options : RunOptions} {files : FileTree}
    {downloads : List (String × String)} {depth : Nat}
    {output : OutputOptions} {stats : Statistics} {after : Draft}
    (h : options.generate depth output (options.start files downloads) = some (.ok stats, after)) :
    ∃ run resolved, options.resolveAll depth (options.start files downloads) =
      some (.ok run, resolved) ∧
      OutputFile.writeAll files (run.files options.naming output) =
        (after.catalog.files, none) ∧ stats = run.statistics := by
  obtain ⟨run, resolved, written, hresolve, hrender, hfiles, hstats⟩ := RunOptions.generate_inv h
  have hstart : resolved.catalog.files = files :=
    (RunOptions.resolveAll_endsAt hresolve).steps.sameTexts.files
  rw [hstart] at hrender
  obtain ⟨other, hother, hrender'⟩ := run.render_viewRenderer options.naming output files
  rw [hrender'] at hrender
  obtain ⟨hfault, rfl⟩ := Prod.mk.inj hrender
  refine ⟨run, resolved, hresolve, Prod.ext (hother.symm.trans hfiles.symm) ?_, hstats⟩
  split at hfault
  · assumption
  · cases hfault

theorem RunOptions.writeAll_of_generate {options : RunOptions} {files : FileTree}
    {downloads : List (String × String)} {depth : Nat}
    {output : OutputOptions} {stats : Statistics} {run : Run} {resolved after : Draft}
    (hresolve : options.resolveAll depth (options.start files downloads) = some (.ok run, resolved))
    (h : options.generate depth output (options.start files downloads) = some (.ok stats, after)) :
    OutputFile.writeAll files (run.files options.naming output) = (after.catalog.files, none) ∧
      stats = run.statistics := by
  obtain ⟨other, _, hother, hwritten⟩ := generate_writeAll h
  obtain ⟨heq, rfl⟩ := Prod.mk.inj (Option.some.inj (hresolve.symm.trans hother))
  obtain rfl := Except.ok.inj heq
  exact hwritten

/-- Runs that differ only in whether they gather handler views, and both succeed, count the same.
They write the same views when the directories are at different places, and the bare names of the
classes are different and have no slashes, as only the settings can give a name with one. -/
theorem RunOptions.generate_sameViews {options : RunOptions} {files : FileTree}
    {downloads : List (String × String)} {depth : Nat}
    {output : OutputOptions} {stats stats' : Statistics} {whole split : Draft}
    (hwhole : options.generate depth { output with oneHandlerFile := true }
      (options.start files downloads) = some (.ok stats, whole))
    (hsplit : options.generate depth { output with oneHandlerFile := false }
      (options.start files downloads) = some (.ok stats', split)) :
    stats = stats' ∧ ∃ run resolved,
      options.resolveAll depth (options.start files downloads) = some (.ok run, resolved) ∧
      (∀ c ∈ run.generated, '/' ∈ c.bareName.toList → c.IsNamedBy options.settings) ∧
      (output.Apart files → (run.generated.map (·.bareName)).Nodup →
        (∀ c ∈ run.generated, '/' ∉ c.bareName.toList) →
        run.SameViews options.naming output files whole.catalog.files split.catalog.files) := by
  obtain ⟨run, resolved, hresolve, hwritten, rfl⟩ := generate_writeAll hwhole
  obtain ⟨hwritten', rfl⟩ := writeAll_of_generate hresolve hsplit
  exact ⟨rfl, run, resolved, hresolve,
    fun c hc => isNamedBy_of_mem hresolve (run.mem_table_of_mem_generated hc),
    Run.sameViews_of_writeAll hwritten hwritten'⟩

/-- Two schemas that refer to each other have the same views in both kinds of runs. -/
theorem RunOptions.generate_sameViews_mutual :
    ∃ options files output stats whole split,
      RunOptions.generate options 8 { output with oneHandlerFile := true } (options.start files) =
        some (.ok stats, whole) ∧
      RunOptions.generate options 8 { output with oneHandlerFile := false } (options.start files) =
        some (.ok stats, split) ∧
      ∃ run resolved, options.resolveAll 8 (options.start files) = some (.ok run, resolved) ∧
        output.Apart files ∧ run.generated.map (·.bareName) = ["A", "B"] ∧
        run.SameViews options.naming output files whole.catalog.files split.catalog.files := by
  let options := RunOptions.onSchemas "a"
  let files := FileTree.ofSchemas [
    ("a", .withProperty "b" (.referringTo "b")),
    ("b", .withProperty "a" (.referringTo "a"))]
  let output : OutputOptions := ⟨"/m", "/r", "/w", false⟩
  have hwhole : options.outcome? files 8 { output with oneHandlerFile := true } =
      some ([("/s/a", "A"), ("/s/b", "B")], ⟨2, 0, 0, 0, 0⟩, none) := by
    decide +kernel
  have hsplit : options.outcome? files 8 { output with oneHandlerFile := false } =
      some ([("/s/a", "A"), ("/s/b", "B")], ⟨2, 0, 0, 0, 0⟩, none) := by
    decide +kernel
  obtain ⟨whole, run, resolved, hwhole, hresolve, hnames⟩ := generate_of_outcome? hwhole
  obtain ⟨split, -, -, hsplit, -, -⟩ := generate_of_outcome? hsplit
  obtain ⟨-, other, _, hother, -, sameViews⟩ := generate_sameViews hwhole hsplit
  obtain ⟨heq, rfl⟩ := Prod.mk.inj (Option.some.inj (hresolve.symm.trans hother))
  obtain rfl := Except.ok.inj heq
  have hbare : run.generated.map (·.bareName) = ["A", "B"] := by
    simpa [Function.comp_def] using congrArg (List.map Prod.snd) hnames
  have flat : ∀ name ∈ run.generated.map (·.bareName), '/' ∉ name.toList := by
    rw [hbare]
    decide
  have apart : output.Apart files := by decide
  refine ⟨options, files, output, _, whole, split, hwhole, hsplit, run, _, hresolve, apart, hbare,
    sameViews apart ?_ fun c hc => flat _ (List.mem_map_of_mem hc)⟩
  rw [hbare]
  decide

namespace Json

def firstKey? : Json → Option String
  | .obj ((key, _) :: _) => some key
  | _ => none

theorem pretty_of_firstKey? {value : Json} {key : String} (h : value.firstKey? = some key) :
    ∃ more, value.pretty = "\x7b\n  " ++ quote key ++ more := by
  unfold firstKey? at h
  split at h
  · rename_i first item rest
    obtain rfl := Option.some.inj h
    have hlines (parts : List String) : ∃ more,
        ",\n".intercalate (("  " ++ (quote first ++ ": " ++ prettyAt 1 item)) :: parts) =
          "  " ++ quote first ++ more := by
      cases parts with
      | nil => exact ⟨": " ++ prettyAt 1 item, by simp [String.append_assoc]⟩
      | cons second parts =>
        exact ⟨": " ++ prettyAt 1 item ++ ",\n" ++ ",\n".intercalate (second :: parts), by
          simp [String.append_assoc]⟩
    obtain ⟨more, hmore⟩ := hlines ((prettyFields 1 rest).map fun part => "  " ++ part)
    refine ⟨more ++ "\n" ++ "\x7d", ?_⟩
    have hpretty : (Json.obj ((first, item) :: rest)).pretty =
        "\x7b" ++ "\n" ++ ",\n".intercalate (("  " ++ (quote first ++ ": " ++ prettyAt 1 item)) ::
          (prettyFields 1 rest).map fun part => "  " ++ part) ++ "\n" ++ "" ++ "\x7d" := rfl
    rw [hpretty, hmore]
    simp [← String.toList_inj]
  · cases h

end Json

def RunOptions.slashed : RunOptions :=
  ⟨"a", ["/s"], [], ⟨[("A", ⟨some "../r/BJsonHandler", false⟩)], []⟩, .ofNamespace "N"⟩

def FileTree.slashed : FileTree :=
  .ofSchemas [
    ("a", .obj [("title", .str "A"), ("type", .str "object"),
      ("properties", .obj [("b", .referringTo "b")])]),
    ("b", .titledObject "B")]

/-- What the last file begins with that a run writes at the place of a path, with one handler file
and with many. -/
def RunOptions.lastKeys? (options : RunOptions) (files : FileTree) (depth : Nat)
    (output : OutputOptions) (path : String) : Option (List (Option String)) :=
  (options.resolveAll depth (options.start files)).bind fun result =>
    result.1.toOption.map fun run => [true, false].map fun one =>
      (OutputFile.filesAt files (files.spot path)
        (run.files options.naming { output with oneHandlerFile := one })).getLast?.bind
          (·.content.firstKey?)

theorem OutputFile.readText?_of_firstKey? {before after : FileTree} {files : List OutputFile}
    {file : OutputFile} {key : String} (h : writeAll before files = (after, none))
    (hmem : file ∈ files)
    (hkey : (filesAt before (before.spot file.path) files).getLast?.bind (·.content.firstKey?) =
      some key) :
    ∃ more, after.readText? file.path = some ("\x7b\n  " ++ Json.quote key ++ more) := by
  obtain ⟨last, hlast, hkey⟩ := Option.bind_eq_some_iff.mp hkey
  obtain ⟨more, hmore⟩ := Json.pretty_of_firstKey? hkey
  refine ⟨more ++ "\n", ?_⟩
  rw [readText?_of_last h hmem hlast, text, hmore, String.append_assoc]

theorem RunOptions.generate_of_fault {options : RunOptions} {files : FileTree} {depth : Nat}
    {output : OutputOptions} {names : List (String × String)} {stats : Statistics} {fault : Fault}
    (h : options.outcome? files depth output = some (names, stats, some fault)) :
    ∃ after, options.generate depth output (options.start files) = some (.error fault, after) := by
  obtain ⟨⟨result, resolved⟩, hresolve, hresult⟩ := Option.bind_eq_some_iff.mp h
  cases result with
  | error => cases hresult
  | ok run =>
    have hfault := (Prod.mk.inj (Prod.mk.inj (Option.some.inj hresult)).2).2
    unfold generate
    change ∃ after, (options.resolveAll depth (options.start files)).bind _ = _
    rw [hresolve, Option.bind_some]
    dsimp only at hfault ⊢
    rw [Drafting.get_bind, hfault]
    exact ⟨_, rfl⟩

def FileTree.blocked (name : String) : FileTree :=
  let files := FileTree.ofSchemas [("a", .titledObject "A")]
  { files with nodes := (["r"], .directory) :: (["r", name], .directory) :: files.nodes }

/-- Each kind of run can fail where the other succeeds. -/
theorem RunOptions.generate_blocked (one : Bool) :
    ∃ files stats fault after after',
      (onSchemas "a").generate 8 ⟨"/m", "/r", "/w", one⟩ ((onSchemas "a").start files) =
        some (.ok stats, after) ∧
      (onSchemas "a").generate 8 ⟨"/m", "/r", "/w", !one⟩ ((onSchemas "a").start files) =
        some (.error fault, after') := by
  cases one with
  | true =>
    have htrue : (onSchemas "a").outcome? (.blocked "AJsonHandler.json") 8
        ⟨"/m", "/r", "/w", true⟩ = some ([("/s/a", "A")], ⟨1, 0, 0, 0, 0⟩, none) := by
      decide +kernel
    have hfalse : (onSchemas "a").outcome? (.blocked "AJsonHandler.json") 8
        ⟨"/m", "/r", "/w", false⟩ = some ([("/s/a", "A")], ⟨1, 0, 0, 0, 0⟩,
          some (.unwritable "/r/AJsonHandler.json")) := by
      decide +kernel
    obtain ⟨after, -, -, hafter, -, -⟩ := generate_of_outcome? htrue
    obtain ⟨after', hafter'⟩ := generate_of_fault hfalse
    exact ⟨_, _, _, after, after', hafter, hafter'⟩
  | false =>
    have hfalse : (onSchemas "a").outcome? (.blocked "GeneratedJsonHandlers.json") 8
        ⟨"/m", "/r", "/w", false⟩ = some ([("/s/a", "A")], ⟨1, 0, 0, 0, 0⟩, none) := by
      decide +kernel
    have htrue : (onSchemas "a").outcome? (.blocked "GeneratedJsonHandlers.json") 8
        ⟨"/m", "/r", "/w", true⟩ = some ([("/s/a", "A")], ⟨1, 0, 0, 0, 0⟩,
          some (.unwritable "/r/GeneratedJsonHandlers.json")) := by
      decide +kernel
    obtain ⟨after, -, -, hafter, -, -⟩ := generate_of_outcome? hfalse
    obtain ⟨after', hafter'⟩ := generate_of_fault htrue
    exact ⟨_, _, _, after, after', hafter, hafter'⟩

/-- The model file of a class that is named with a path takes the place of the handler file of
another class, and is lost only when that file is written, too. And each kind of run can fail where
the other succeeds. -/
theorem RunOptions.handlerFiles_mixed :
    (∃ stats whole split run resolved,
      slashed.generate 8 ⟨"/m", "/r", "/w", true⟩ (slashed.start .slashed) =
        some (.ok stats, whole) ∧
      slashed.generate 8 ⟨"/m", "/r", "/w", false⟩ (slashed.start .slashed) =
        some (.ok stats, split) ∧
      slashed.resolveAll 8 (slashed.start .slashed) = some (.ok run, resolved) ∧
      OutputOptions.Apart ⟨"/m", "/r", "/w", true⟩ .slashed ∧
      run.generated.map (·.bareName) = ["../r/BJsonHandler", "B"] ∧
      ∃ c ∈ run.generated,
        whole.catalog.files.readText?
            (OutputOptions.path ⟨"/m", "/r", "/w", true⟩ .model c.bareName) ≠
          split.catalog.files.readText?
            (OutputOptions.path ⟨"/m", "/r", "/w", true⟩ .model c.bareName)) ∧
    ∀ one, ∃ files stats fault after after',
      (onSchemas "a").generate 8 ⟨"/m", "/r", "/w", one⟩ ((onSchemas "a").start files) =
        some (.ok stats, after) ∧
      (onSchemas "a").generate 8 ⟨"/m", "/r", "/w", !one⟩ ((onSchemas "a").start files) =
        some (.error fault, after') := by
  refine ⟨?_, generate_blocked⟩
  have hwhole : slashed.outcome? .slashed 8 ⟨"/m", "/r", "/w", true⟩ =
      some ([("/s/a", "../r/BJsonHandler"), ("/s/b", "B")], ⟨2, 0, 0, 0, 0⟩, none) := by
    decide +kernel
  have hsplit : slashed.outcome? .slashed 8 ⟨"/m", "/r", "/w", false⟩ =
      some ([("/s/a", "../r/BJsonHandler"), ("/s/b", "B")], ⟨2, 0, 0, 0, 0⟩, none) := by
    decide +kernel
  have hkeys : slashed.lastKeys? .slashed 8 ⟨"/m", "/r", "/w", true⟩
      (OutputOptions.path ⟨"/m", "/r", "/w", true⟩ .model "../r/BJsonHandler") =
        some [some "name", some "handler"] := by
    decide +kernel
  obtain ⟨whole, run, resolved, hwhole, hresolve, hnames⟩ := generate_of_outcome? hwhole
  obtain ⟨split, -, -, hsplit, -, -⟩ := generate_of_outcome? hsplit
  obtain ⟨hwritten, -⟩ := writeAll_of_generate hresolve hwhole
  obtain ⟨hwritten', -⟩ := writeAll_of_generate hresolve hsplit
  have hbare : run.generated.map (·.bareName) = ["../r/BJsonHandler", "B"] := by
    simpa [Function.comp_def] using congrArg (List.map Prod.snd) hnames
  obtain ⟨c, rest, hgenerated, hc, -⟩ := List.map_eq_cons_iff.mp hbare
  have hmem : c ∈ run.generated := hgenerated ▸ List.mem_cons_self
  rw [lastKeys?, hresolve, ← hc] at hkeys
  obtain ⟨hname, hhandler⟩ := List.cons.inj (Option.some.inj hkeys)
  have hmodel (one : Bool) :
      ⟨OutputOptions.path ⟨"/m", "/r", "/w", true⟩ .model c.bareName, View.model run.table c⟩ ∈
        run.files slashed.naming ⟨"/m", "/r", "/w", one⟩ :=
    Run.mem_files.mpr ⟨.model, _, .view hmem nofun rfl, (OutputOptions.leaf_stem _ _ _).symm⟩
  obtain ⟨more, htext⟩ := OutputFile.readText?_of_firstKey? hwritten (hmodel true) hname
  obtain ⟨more', htext'⟩ :=
    OutputFile.readText?_of_firstKey? hwritten' (hmodel false) (List.cons.inj hhandler).1
  refine ⟨_, whole, split, run, _, hwhole, hsplit, hresolve, by decide, hbare, c, hmem, ?_⟩
  rw [htext, htext']
  intro heq
  have hheads := congrArg (fun text : String => text.toList.take 6) (Option.some.inj heq)
  simp [Json.quote, Json.escape] at hheads

end SchemaClasses
