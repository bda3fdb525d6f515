import SchemaClasses.Output
import SchemaClasses.Proofs.Generation.DepthFirst
import SchemaClasses.Proofs.Runs

/-!
# Rendering

A run hands the classes of its work order to a renderer, one at a time, and counts them. What it
does with any renderer is to call it once for each class to generate code for, in work order, and
then to let it finish. The files of a run are those that one such renderer writes.
-/

namespace SchemaClasses

/-- What a run hands its classes to. -/
structure Renderer (m : Type → Type) where
  renderClass : ClassDescriptor → m Unit
  finish : m Unit

namespace Statistics

def addObject (stats : Statistics) : Statistics :=
  { stats with classesGenerated := stats.classesGenerated + 1 }

def addEnum (stats : Statistics) : Statistics :=
  { stats with enumsGenerated := stats.enumsGenerated + 1 }

def addSkipped (stats : Statistics) : Statistics :=
  { stats with classesSkipped := stats.classesSkipped + 1 }

/-- The counts after one more class. -/
def add (stats : Statistics) (c : ClassDescriptor) : Statistics :=
  if !c.isGenerated then stats.addSkipped
  else if c.object?.isSome then stats.addObject
  else stats.addEnum

theorem foldl_add (stats : Statistics) (classes : List ClassDescriptor) :
    classes.foldl add stats =
      { stats with
        classesGenerated := stats.classesGenerated +
          (classes.filter (·.isGenerated)).countP (·.object?.isSome)
        enumsGenerated := stats.enumsGenerated +
          (classes.filter (·.isGenerated)).countP (·.object?.isNone)
        classesSkipped := stats.classesSkipped + classes.countP (!·.isGenerated) } := by
  induction classes generalizing stats with
  | nil => rfl
  | cons c classes ih =>
    rw [List.foldl_cons, ih, add]
    cases hgenerated : c.isGenerated with
    | false => simp [addSkipped, hgenerated, Nat.add_assoc, Nat.add_comm 1]
    | true =>
      cases hobject : c.object? with
      | some object => simp [addObject, hgenerated, hobject, Nat.add_assoc, Nat.add_comm 1]
      | none => simp [addEnum, hgenerated, hobject, Nat.add_assoc, Nat.add_comm 1]

end Statistics

namespace Run

section

variable {m : Type → Type} [Monad m]

/-- Renders classes in order and counts them. -/
def renderFrom (run : Run) (renderer : Renderer m) (stats : Statistics) :
    List ClassId → m Statistics
  | [] => return stats
  | id :: ids =>
    match run.table.get? id with
    | none => run.renderFrom renderer stats ids
    | some c =>
      if c.isExternal then run.renderFrom renderer stats.addSkipped ids
      else
        match c.kind with
        | .object _ => do
          renderer.renderClass c
          run.renderFrom renderer stats.addObject ids
        | .enumeration _ => do
          renderer.renderClass c
          run.renderFrom renderer stats.addEnum ids
        | .value _ => run.renderFrom renderer stats.addSkipped ids
        | .unsupported => run.renderFrom renderer stats.addSkipped ids

/-- Renders the classes of the work order. -/
def render (run : Run) (renderer : Renderer m) : m Statistics := do
  let stats ← run.renderFrom renderer ⟨0, 0, run.registry.size, 0, run.collisions⟩ run.workOrder
  renderer.finish
  return stats

theorem renderFrom_cons (run : Run) (renderer : Renderer m) (stats : Statistics) {id : ClassId}
    {c : ClassDescriptor} (hid : run.table.get? id = some c) (ids : List ClassId) :
    run.renderFrom renderer stats (id :: ids) =
      if c.isGenerated then do
        renderer.renderClass c
        run.renderFrom renderer (stats.add c) ids
      else run.renderFrom renderer (stats.add c) ids := by
  rw [renderFrom]
  simp only [hid]
  cases hexternal : c.isExternal with
  | true => simp [Statistics.add, ClassDescriptor.isGenerated, hexternal]
  | false =>
    cases hkind : c.kind <;>
      simp [Statistics.add, ClassDescriptor.isGenerated, ClassDescriptor.object?, hexternal, hkind]

variable [LawfulMonad m]

/-- The renderer gets the classes to generate code for, in order. -/
theorem renderFrom_eq (run : Run) (renderer : Renderer m) (stats : Statistics)
    (ids : List ClassId) :
    run.renderFrom renderer stats ids = do
      forM ((ids.filterMap run.table.get?).filter (·.isGenerated)) renderer.renderClass
      return (ids.filterMap run.table.get?).foldl .add stats := by
  induction ids generalizing stats with
  | nil => simp [renderFrom]
  | cons id ids ih =>
    cases hid : run.table.get? id with
    | none =>
      rw [renderFrom, List.filterMap_cons_none hid]
      simp only [hid, ih]
    | some c =>
      rw [renderFrom_cons run renderer stats hid, List.filterMap_cons_some hid, ih]
      cases hgenerated : c.isGenerated <;> simp [hgenerated]

end

end Run

namespace ClassTable

theorem exists_of_mem_visit {table : ClassTable} {limit : Nat} {visited : List String}
    {stack : List ClassId} {id : ClassId} (h : id ∈ table.visit limit visited stack) :
    ∃ c, table.get? id = some c := by
  induction limit generalizing visited stack with
  | zero => simp [visit] at h
  | succ limit ih =>
    cases stack with
    | nil => simp at h
    | cons first stack =>
      rw [visit] at h
      split at h
      · exact ih h
      · rename_i c hfirst
        split at h
        · exact ih h
        · rcases List.mem_cons.mp h with rfl | h
          · exact ⟨c, hfirst⟩
          · exact ih h

end ClassTable

namespace Run

theorem length_filterMap_workOrder (run : Run) :
    (run.workOrder.filterMap run.table.get?).length = run.workOrder.length := by
  rw [List.length_filterMap_eq_countP, List.countP_eq_length]
  intro id hid
  obtain ⟨c, hc⟩ := ClassTable.exists_of_mem_visit hid
  rw [hc]
  rfl

/-- The counts of a run are those of its work order. -/
theorem foldl_add_eq_statistics (run : Run) :
    (run.workOrder.filterMap run.table.get?).foldl .add
      ⟨0, 0, run.registry.size, 0, run.collisions⟩ = run.statistics := by
  have hskipped : (run.workOrder.filterMap run.table.get?).length =
      run.generated.length +
        (run.workOrder.filterMap run.table.get?).countP (!·.isGenerated) := by
    rw [List.length_eq_countP_add_countP (·.isGenerated), List.countP_eq_length_filter]
    simp [generated]
  have henums : run.generated.length =
      run.generated.countP (·.object?.isSome) + run.generated.countP (·.object?.isNone) := by
    rw [List.length_eq_countP_add_countP (·.object?.isSome)]
    simp only [Bool.not_eq_true, Option.isSome_eq_false_iff, Bool.decide_eq_true]
  rw [run.length_filterMap_workOrder] at hskipped
  rw [Statistics.foldl_add, statistics]
  simp only [Statistics.mk.injEq, Nat.zero_add, true_and, and_true]
  exact ⟨rfl, Nat.eq_sub_of_add_eq' henums.symm, Nat.eq_sub_of_add_eq' hskipped.symm⟩

variable {m : Type → Type} [Monad m] [LawfulMonad m]

/-- A run calls the renderer once for each class to generate code for, in work order. -/
theorem render_eq (run : Run) (renderer : Renderer m) :
    run.render renderer = do
      forM run.generated renderer.renderClass
      renderer.finish
      return run.statistics := by
  rw [render, renderFrom_eq, foldl_add_eq_statistics]
  simp [generated]

theorem generated_nodup (run : Run) (distinct : (run.table.map (·.source)).Nodup) :
    run.generated.Nodup := by
  refine (List.Nodup.filterMap (fun n id c hn hid => ?_) ?_).filter _
  · exact ClassTable.eq_of_source distinct hn hid rfl
  · rw [workOrder, ClassTable.workOrder_eq_depthFirst distinct]
    exact ClassTable.depthFirst_nodup _ _

theorem statistics_sum (run : Run) :
    run.statistics.classesGenerated + run.statistics.enumsGenerated +
      run.statistics.classesSkipped = run.workOrder.length := by
  have hobjects : run.generated.countP (·.object?.isSome) ≤ run.generated.length :=
    List.countP_le_length
  have hgenerated : run.generated.length ≤ run.workOrder.length := by
    rw [← run.length_filterMap_workOrder]
    exact List.length_filter_le _ _
  simp only [statistics]
  omega

end Run

/-- What a renderer of files has so far. -/
structure Written where
  files : FileTree
  /-- The handler views that go to one file in the end. -/
  handlers : List Json

abbrev Writing := ExceptT Fault (StateM Written)

namespace Writing

def put (file : OutputFile) : Writing Unit := fun written =>
  match file.write written.files with
  | .ok files => (.ok (), { written with files := files })
  | .error fault => (.error fault, written)

def gather (handler : Json) : Writing Unit := fun written =>
  (.ok (), { written with handlers := written.handlers ++ [handler] })

def putGathered (path : String) : Writing Unit := fun written =>
  put ⟨path, .arr written.handlers⟩ written

/-- From here on, an action writes files in order and gathers handler views, unless one of the files
cannot be written. -/
structure Writes (action : Writing Unit) (written : Written) (files : List OutputFile)
    (handlers : List Json) : Prop where
  ends :
    match OutputFile.writeAll written.files files with
    | (after, none) => action written = (.ok (), ⟨after, written.handlers ++ handlers⟩)
    | (after, some fault) => ∃ gathered, action written = (.error fault, ⟨after, gathered⟩)

theorem writes_pure (written : Written) : Writes (pure ()) written [] [] := by
  refine ⟨?_⟩
  rw [OutputFile.writeAll, List.append_nil]
  rfl

theorem writes_put (file : OutputFile) (written : Written) :
    Writes (put file) written [file] [] := by
  refine ⟨?_⟩
  rw [OutputFile.writeAll, List.append_nil]
  unfold put
  cases file.write written.files with
  | ok files => rfl
  | error fault => exact ⟨written.handlers, rfl⟩

theorem writes_putGathered (path : String) (written : Written) :
    Writes (putGathered path) written [⟨path, .arr written.handlers⟩] [] :=
  ⟨(writes_put ⟨path, .arr written.handlers⟩ written).ends⟩

theorem writes_gather (handler : Json) (written : Written) :
    Writes (gather handler) written [] [handler] :=
  ⟨rfl⟩

end Writing

theorem OutputFile.writeAll_append (files : FileTree) (first second : List OutputFile) :
    writeAll files (first ++ second) =
      match writeAll files first with
      | (files, some fault) => (files, some fault)
      | (files, none) => writeAll files second := by
  induction first generalizing files with
  | nil => rfl
  | cons file first ih =>
    rw [List.cons_append, writeAll, writeAll]
    cases file.write files with
    | ok files => exact ih files
    | error fault => rfl

namespace Writing

theorem bind_ok {α β : Type} {first : Writing α} {written next : Written} {value : α}
    (h : first written = (.ok value, next)) (second : α → Writing β) :
    (first >>= second) written = second value next := by
  simp only [Bind.bind, ExceptT.bind, ExceptT.mk, StateT.bind, h]
  rfl

theorem bind_error {α β : Type} {first : Writing α} {written next : Written} {fault : Fault}
    (h : first written = (.error fault, next)) (second : α → Writing β) :
    (first >>= second) written = (.error fault, next) := by
  simp only [Bind.bind, ExceptT.bind, ExceptT.mk, StateT.bind, h]
  rfl

theorem Writes.bind {first second : Writing Unit} {written : Written}
    {files files' : List OutputFile} {handlers handlers' : List Json}
    (hfirst : Writes first written files handlers)
    (hsecond : ∀ after, Writes second ⟨after, written.handlers ++ handlers⟩ files' handlers') :
    Writes (do first; second) written (files ++ files') (handlers ++ handlers') := by
  have hends := hfirst.ends
  refine ⟨?_⟩
  rw [OutputFile.writeAll_append]
  split at hends
  · rename_i after hafter
    rw [bind_ok hends, hafter, ← List.append_assoc]
    exact (hsecond after).ends
  · rename_i after fault hafter
    obtain ⟨gathered, hends⟩ := hends
    rw [hafter]
    exact ⟨gathered, bind_error hends _⟩

theorem Writes.put_bind {second : Writing Unit} {written : Written} {files : List OutputFile}
    {handlers : List Json} (file : OutputFile)
    (hsecond : ∀ after, Writes second ⟨after, written.handlers⟩ files handlers) :
    Writes (do put file; second) written (file :: files) handlers :=
  (writes_put file written).bind fun after => by
    rw [List.append_nil]
    exact hsecond after

theorem Writes.gather_bind {second : Writing Unit} {written : Written} {files : List OutputFile}
    {handlers : List Json} (handler : Json)
    (hsecond : ∀ after, Writes second ⟨after, written.handlers ++ [handler]⟩ files handlers) :
    Writes (do gather handler; second) written files (handler :: handlers) :=
  (writes_gather handler written).bind hsecond

theorem writes_forM {α : Type} {action : α → Writing Unit} {files : α → List OutputFile}
    {handlers : α → List Json}
    (h : ∀ a written, Writes (action a) written (files a) (handlers a)) (items : List α)
    (written : Written) :
    Writes (forM items action) written (items.flatMap files) (items.flatMap handlers) := by
  induction items generalizing written with
  | nil => exact writes_pure written
  | cons a items ih =>
    rw [List.forM_cons, List.flatMap_cons, List.flatMap_cons]
    exact (h a written).bind fun after => ih _

end Writing

namespace Run

open Writing

variable {run : Run} {naming : Naming} {options : OutputOptions}

/-- The renderer that writes the views of each class. -/
def viewRenderer (run : Run) (naming : Naming) (options : OutputOptions) : Renderer Writing where
  renderClass c := do
    let name := Naming.bare c.typeName
    put ⟨Location.join options.modelDirectory (name ++ ".json"), View.model run.table c⟩
    match c.object? with
    | none => return ()
    | some object => do
      let reader := View.reader run.registry c object
      if options.oneHandlerFile then gather reader
      else put ⟨Location.join options.readerDirectory (name ++ "JsonHandler.json"), reader⟩
      put ⟨Location.join options.writerDirectory (name ++ "JsonWriter.json"),
        View.writer naming run.registry c object⟩
  finish := do
    if options.oneHandlerFile then
      putGathered (Location.join options.readerDirectory "GeneratedJsonHandlers.json")
    put ⟨Location.join options.readerDirectory "extensions.json", run.registry.toJson⟩

/-- The handler views of a class that are not written at once. -/
def gathered (run : Run) (options : OutputOptions) (c : ClassDescriptor) : List Json :=
  if options.oneHandlerFile then (c.object?.map (View.reader run.registry c)).toList else []

theorem renderClass_writes (c : ClassDescriptor) (written : Written) :
    Writes ((run.viewRenderer naming options).renderClass c) written
      (run.classFiles naming options c) (run.gathered options c) := by
  cases hobject : c.object? with
  | none =>
    simp only [viewRenderer, classFiles, gathered, hobject, Option.map_none, Option.toList_none,
      ite_self]
    exact Writes.put_bind _ fun _ => writes_pure _
  | some object =>
    cases hone : options.oneHandlerFile with
    | true =>
      simp only [viewRenderer, classFiles, gathered, hobject, hone, if_true, Option.map_some,
        Option.toList_some]
      exact Writes.put_bind _ fun _ => .gather_bind _ fun _ => writes_put _ _
    | false =>
      simp only [viewRenderer, classFiles, gathered, hobject, hone, Bool.false_eq_true, if_false]
      exact Writes.put_bind _ fun _ => .put_bind _ fun _ => writes_put _ _

/-- The files that come after those of the classes. -/
def lastFiles (run : Run) (options : OutputOptions) (handlers : List Json) : List OutputFile :=
  (if options.oneHandlerFile then
    [⟨Location.join options.readerDirectory "GeneratedJsonHandlers.json", .arr handlers⟩]
  else []) ++
    [⟨Location.join options.readerDirectory "extensions.json", run.registry.toJson⟩]

theorem finish_writes (run : Run) (naming : Naming) (options : OutputOptions) (files : FileTree)
    (handlers : List Json) :
    Writes (run.viewRenderer naming options).finish ⟨files, handlers⟩
      (run.lastFiles options handlers) [] := by
  unfold lastFiles
  cases hone : options.oneHandlerFile with
  | true =>
    simp only [viewRenderer, hone, if_true]
    exact (writes_putGathered _ _).bind fun _ => writes_put _ _
  | false =>
    simp only [viewRenderer, hone, Bool.false_eq_true, if_false]
    exact writes_put _ _

theorem flatMap_gathered (h : options.oneHandlerFile = true) :
    run.generated.flatMap (run.gathered options) = run.handlerViews := by
  rw [handlerViews, List.filterMap_eq_flatMap_toList]
  refine List.flatMap_congr fun c _ => ?_
  rw [gathered, if_pos h]

theorem files_eq (run : Run) (naming : Naming) (options : OutputOptions) :
    run.files naming options = run.generated.flatMap (run.classFiles naming options) ++
      run.lastFiles options (run.generated.flatMap (run.gathered options)) := by
  rw [files, List.append_assoc, lastFiles]
  cases hone : options.oneHandlerFile with
  | true => rw [flatMap_gathered hone]
  | false => rfl

/-- The renderer writes the files of the run. -/
theorem render_viewRenderer (run : Run) (naming : Naming) (options : OutputOptions)
    (files : FileTree) :
    ∃ written, written.files = (OutputFile.writeAll files (run.files naming options)).1 ∧
      run.render (run.viewRenderer naming options) ⟨files, []⟩ =
        (match (OutputFile.writeAll files (run.files naming options)).2 with
          | none => .ok run.statistics
          | some fault => .error fault, written) := by
  have hclasses : Writes (forM run.generated (run.viewRenderer naming options).renderClass)
      ⟨files, []⟩ (run.generated.flatMap (run.classFiles naming options))
      (run.generated.flatMap (run.gathered options)) :=
    writes_forM renderClass_writes _ _
  have hall : Writes (do
        forM run.generated (run.viewRenderer naming options).renderClass
        (run.viewRenderer naming options).finish) ⟨files, []⟩ (run.files naming options)
      (run.generated.flatMap (run.gathered options) ++ []) := by
    rw [files_eq]
    exact hclasses.bind fun after => finish_writes run naming options after _
  have hrender : run.render (run.viewRenderer naming options) = do
      (do
        forM run.generated (run.viewRenderer naming options).renderClass
        (run.viewRenderer naming options).finish)
      return run.statistics := by
    rw [render_eq, bind_assoc]
  have hends := hall.ends
  rw [hrender]
  dsimp only at hends
  split at hends
  · rename_i after hafter
    rw [hafter]
    exact ⟨_, rfl, bind_ok hends _⟩
  · rename_i after fault hafter
    obtain ⟨gathered, hends⟩ := hends
    rw [hafter]
    exact ⟨_, rfl, bind_error hends _⟩

end Run

/-- A run resolves the schemas and renders the classes with the renderer that writes their views. -/
theorem RunOptions.generate_eq_render (options : RunOptions) (depth : Nat)
    (output : OutputOptions) :
    options.generate depth output = do
      match ← options.resolveAll depth with
      | .error fault => return .error fault
      | .ok run =>
        let draft ← get
        let (result, written) := run.render (run.viewRenderer options.naming output)
          ⟨draft.catalog.files, []⟩
        set { draft with catalog := { draft.catalog with files := written.files } }
        return result := by
  unfold generate
  refine bind_congr fun resolved => ?_
  cases resolved with
  | error fault => rfl
  | ok run =>
    refine bind_congr fun draft => ?_
    obtain ⟨written, hfiles, hrender⟩ :=
      run.render_viewRenderer options.naming output draft.catalog.files
    simp only [hrender, hfiles]
    refine bind_congr fun _ => ?_
    cases (OutputFile.writeAll draft.catalog.files (run.files options.naming output)).2 <;> rfl

open Drafting in
theorem RunOptions.generate_inv {options : RunOptions} {depth : Nat} {output : OutputOptions}
    {draft after : Draft} {stats : Statistics}
    (h : options.generate depth output draft = some (.ok stats, after)) :
    ∃ run resolved written, options.resolveAll depth draft = some (.ok run, resolved) ∧
      run.render (run.viewRenderer options.naming output) ⟨resolved.catalog.files, []⟩ =
        (.ok stats, written) ∧
      after.catalog.files = written.files ∧ stats = run.statistics := by
  rw [generate_eq_render] at h
  obtain ⟨result, resolved, hresolve, h⟩ := bind_inv h
  cases result with
  | error fault =>
    obtain ⟨heq, -⟩ := pure_inv h
    cases heq
  | ok run =>
    dsimp only at h
    rw [get_bind] at h
    obtain ⟨written, -, hrender⟩ :=
      run.render_viewRenderer options.naming output resolved.catalog.files
    rw [hrender] at h
    dsimp only at h
    obtain ⟨_, ended, hset, h⟩ := bind_inv h
    obtain ⟨heq, rfl⟩ := pure_inv h
    obtain rfl := set_inv hset
    cases hfault : (OutputFile.writeAll resolved.catalog.files
        (run.files options.naming output)).2 with
    | none =>
      rw [hfault] at heq hrender
      obtain rfl := Except.ok.inj heq
      exact ⟨run, resolved, written, hresolve, hrender, rfl, rfl⟩
    | some fault =>
      rw [hfault] at heq
      cases heq

/-- The work order of a table is the depth-first order of the classes that its seeds lead to. A run
that succeeds hands those of them that have code to its renderer in that order, and counts all. -/
theorem workOrder_rendered {table : ClassTable} (distinct : (table.map (·.source)).Nodup)
    (seeds : List ClassId) {options : RunOptions} {files : FileTree}
    {downloads : List (String × String)} {depth : Nat}
    {output : OutputOptions} {stats : Statistics} {after : Draft}
    (h : options.generate depth output (options.start files downloads) = some (.ok stats, after)) :
    (table.workOrder seeds = table.depthFirst [] seeds ∧ (table.workOrder seeds).Nodup ∧
      ∀ id, id ∈ table.workOrder seeds ↔ (∃ c, table.get? id = some c) ∧
        ∃ seed ∈ seeds, Relation.ReflTransGen table.Refers seed id) ∧
    ∃ run resolved written,
      options.resolveAll depth (options.start files downloads) = some (.ok run, resolved) ∧
      (run.table.map (·.source)).Nodup ∧
      run.render (run.viewRenderer options.naming output) ⟨resolved.catalog.files, []⟩ =
        (.ok stats, written) ∧
      after.catalog.files = written.files ∧
      (∀ (m : Type → Type) [Monad m] [LawfulMonad m] (renderer : Renderer m),
        run.render renderer = do
          forM run.generated renderer.renderClass
          renderer.finish
          return stats) ∧
      run.generated.Nodup ∧
      stats.classesGenerated + stats.enumsGenerated + stats.classesSkipped =
        run.workOrder.length := by
  have horder := table.workOrder_eq_depthFirst distinct seeds
  refine ⟨⟨horder, ?_, fun id => ?_⟩, ?_⟩
  · rw [horder]
    exact table.depthFirst_nodup [] seeds
  · rw [horder]
    exact ClassTable.mem_depthFirst_iff
  · obtain ⟨run, resolved, written, hresolve, hrender, hfiles, rfl⟩ := RunOptions.generate_inv h
    have hdistinct := (RunOptions.resolveAll_endsAt hresolve).sources_nodup
    exact ⟨run, resolved, written, hresolve, hdistinct, hrender, hfiles,
      fun m _ _ renderer => run.render_eq renderer, run.generated_nodup hdistinct,
      run.statistics_sum⟩

/-- A run on one of two schemas that refer to each other renders both. -/
theorem workOrder_rendered_mutual :
    ∃ options files output stats after,
      RunOptions.generate options 8 output (options.start files) = some (.ok stats, after) ∧
      ∃ run resolved written,
        options.resolveAll 8 (options.start files) = some (.ok run, resolved) ∧
        run.render (run.viewRenderer options.naming output) ⟨resolved.catalog.files, []⟩ =
          (.ok stats, written) ∧
        run.workOrder.length = 2 ∧
        ∀ id, id ∈ run.workOrder ↔ (∃ c, run.table.get? id = some c) ∧
          ∃ seed ∈ run.root :: run.extensionClasses,
            Relation.ReflTransGen run.table.Refers seed id := by
  let options := RunOptions.onSchemas "a"
  let files := FileTree.ofSchemas [
    ("a", .withProperty "b" (.referringTo "b")),
    ("b", .withProperty "a" (.referringTo "a"))]
  let output : OutputOptions := ⟨"/s", "/s", "/s", false⟩
  have hgenerate : (options.generate 8 output (options.start files)).map (·.1) =
      some (.ok ⟨2, 0, 0, 0, 0⟩) := by
    decide +kernel
  obtain ⟨⟨_, after⟩, hgenerate, rfl⟩ := Option.map_eq_some_iff.mp hgenerate
  obtain ⟨run, resolved, written, hresolve, hrender, -⟩ := RunOptions.generate_inv hgenerate
  have hdistinct := (RunOptions.resolveAll_endsAt hresolve).sources_nodup
  obtain ⟨⟨-, -, hreached⟩, other, _, _, hother, -, -, -, -, -, hlength⟩ :=
    workOrder_rendered hdistinct (run.root :: run.extensionClasses) hgenerate
  obtain ⟨heq, -⟩ := Prod.mk.inj (Option.some.inj (hresolve.symm.trans hother))
  obtain rfl := Except.ok.inj heq
  exact ⟨options, files, output, _, after, hgenerate, run, resolved, written, hresolve, hrender,
    hlength.symm, hreached⟩

end SchemaClasses
