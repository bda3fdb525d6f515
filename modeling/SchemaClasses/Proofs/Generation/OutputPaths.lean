import SchemaClasses.Proofs.Catalog.Titles
import SchemaClasses.Proofs.Drafting.Sources
import SchemaClasses.Proofs.Drafting.TypeNames
import SchemaClasses.Proofs.Generation.Rendering

/-!
# Paths of generated files

The files of a class are named after its bare name, so the files of two classes are different when
their bare names are. Nothing makes bare names different: the settings may set any name, plain names
lose what cannot stand in a name, and only files are compared by their titles. These are the only
reasons for which two classes of a run without collisions share a bare name.
-/

namespace SchemaClasses

open Drafting

namespace Location

theorem isAbsolute_append_of_not_mem {name ending : String} (hname : '/' ∉ name.toList)
    (hending : isAbsolute ending = false) : isAbsolute (name ++ ending) = false := by
  unfold isAbsolute at hending ⊢
  rw [String.toList_append]
  cases hcs : name.toList with
  | nil => simpa using hending
  | cons c rest =>
    rw [hcs] at hname
    have hc : c ≠ '/' := fun heq => hname (heq ▸ List.mem_cons_self)
    simpa using hc

theorem join_inj {directory first second : String} (hfirst : isAbsolute first = false)
    (hsecond : isAbsolute second = false) :
    join directory first = join directory second ↔ first = second := by
  refine ⟨fun h => ?_, congrArg _⟩
  unfold join at h
  rw [hfirst, hsecond] at h
  simp only [Bool.false_eq_true, if_false] at h
  split at h
  · exact (String.append_right_inj _).mp h
  · exact (String.append_right_inj _).mp h

end Location

namespace ClassDescriptor

def bareName (c : ClassDescriptor) : String := Naming.bare c.typeName

def plainName (c : ClassDescriptor) : String := Naming.plain c.title c.source

/-- The settings give the class its name. -/
def IsNamedBy (c : ClassDescriptor) (settings : Settings) : Prop :=
  settings.Sets c.title c.extensionName c.typeName

end ClassDescriptor

/-- The files that may be written for a class. -/
inductive ViewKind where
  | model
  | reader
  | writer

def ViewKind.ending : ViewKind → String
  | model => ".json"
  | reader => "JsonHandler.json"
  | writer => "JsonWriter.json"

namespace OutputOptions

def directory (options : OutputOptions) : ViewKind → String
  | .model => options.modelDirectory
  | .reader => options.readerDirectory
  | .writer => options.writerDirectory

def path (options : OutputOptions) (kind : ViewKind) (name : String) : String :=
  Location.join (options.directory kind) (name ++ kind.ending)

/-- The kinds of files that are written for a class. -/
def kinds (options : OutputOptions) (c : ClassDescriptor) : List ViewKind :=
  if c.object?.isNone then [.model]
  else if options.oneHandlerFile then [.model, .writer]
  else [.model, .reader, .writer]

theorem path_inj {options : OutputOptions} {first second : String} (hfirst : '/' ∉ first.toList)
    (hsecond : '/' ∉ second.toList) (kind : ViewKind) :
    options.path kind first = options.path kind second ↔ first = second := by
  have hending : Location.isAbsolute kind.ending = false := by cases kind <;> rfl
  unfold path
  rw [Location.join_inj (Location.isAbsolute_append_of_not_mem hfirst hending)
    (Location.isAbsolute_append_of_not_mem hsecond hending)]
  exact String.append_left_inj _

end OutputOptions

namespace Run

variable {run : Run}

theorem paths_classFiles (run : Run) (naming : Naming) (options : OutputOptions)
    (c : ClassDescriptor) : (run.classFiles naming options c).map (·.path) =
      (options.kinds c).map (options.path · c.bareName) := by
  unfold classFiles OutputOptions.kinds
  cases c.object? with
  | none => rfl
  | some object => cases options.oneHandlerFile <;> rfl

theorem mem_table_of_mem_generated {c : ClassDescriptor} (h : c ∈ run.generated) :
    c ∈ run.table := by
  obtain ⟨id, -, hid⟩ := List.mem_filterMap.mp (List.mem_filter.mp h).1
  exact List.mem_of_getElem? hid

theorem length_generated (run : Run) :
    run.statistics.classesGenerated + run.statistics.enumsGenerated = run.generated.length := by
  have hle := List.countP_le_length (p := fun c : ClassDescriptor => c.object?.isSome)
    (l := run.generated)
  unfold statistics
  dsimp only
  omega

end Run

/-- The document with a key is a whole file. -/
def Catalog.HasFile (catalog : Catalog) (key : String) : Prop :=
  ∃ document, catalog.document? key = some document ∧ document.IsFile

theorem Catalog.HasFile.isFile {catalog : Catalog} {document : Document} {key : String}
    (h : catalog.HasFile key) (known : catalog.Knows document) (hkey : document.key = key) :
    document.IsFile := by
  obtain ⟨other, hother, hfile⟩ := h
  rw [Knows, hkey, hother] at known
  exact Option.some.inj known ▸ hfile

variable {options : RunOptions} {files : FileTree} {downloads : List (String × String)}
variable {depth : Nat} {output : OutputOptions}
variable {stats : Statistics} {run : Run} {after : Draft}

theorem Run.EndsAt.accounted
    (h : run.EndsAt options files downloads after) : after.catalog.Accounted :=
  (h.steps.lasts Catalog.accounted_lasting not_false
    (fun _ hplace => absurd hplace List.not_mem_nil)
    ⟨Catalog.new_sourced _ _ _ _, Catalog.new_accounted _ _ _ _⟩).2

/-- A run without collisions has no two classes for whole files with the same title. -/
theorem RunOptions.eq_of_title
    (h : options.resolveAll depth (options.start files downloads) = some (.ok run, after))
    (free : run.collisions = 0) {c d : ClassDescriptor} (hc : c ∈ run.table) (hd : d ∈ run.table)
    {title : String} (hctitle : c.title = some title) (hdtitle : d.title = some title)
    (hcfile : after.catalog.HasFile c.source) (hdfile : after.catalog.HasFile d.source) :
    c = d := by
  have ends := RunOptions.resolveAll_endsAt h
  have hcollisions := (RunOptions.resolveAll_known h).2.2
  have hempty := List.length_eq_zero_iff.mp (hcollisions.symm.trans free)
  obtain ⟨document, known, hkey, htitle⟩ := ends.document_inv hc
  obtain ⟨other, known', hkey', htitle'⟩ := ends.document_inv hd
  obtain rfl := ends.accounted.titled.unique hempty known (hcfile.isFile known hkey)
    (htitle.trans hctitle) known' (hdfile.isFile known' hkey') (htitle'.trans hdtitle)
  exact List.inj_on_of_nodup_map ends.sources_nodup hc hd (hkey.symm.trans hkey')

theorem RunOptions.plainName_eq
    (h : options.resolveAll depth (options.start files downloads) = some (.ok run, after))
    {c d : ClassDescriptor} (hc : c ∈ run.table) (hd : d ∈ run.table)
    (hname : c.bareName = d.bareName) :
    c.IsNamedBy options.settings ∨ d.IsNamedBy options.settings ∨ c.plainName = d.plainName := by
  rcases typeName_cases h hc with hset | hcplain
  · exact .inl hset
  rcases typeName_cases h hd with hset | hdplain
  · exact .inr (.inl hset)
  rw [ClassDescriptor.bareName, hcplain, Naming.bare_plain, ClassDescriptor.bareName, hdplain,
    Naming.bare_plain] at hname
  exact .inr (.inr hname)

/-- Only a name that the settings give has a slash. -/
theorem RunOptions.isNamedBy_of_mem
    (h : options.resolveAll depth (options.start files downloads) = some (.ok run, after))
    {c : ClassDescriptor} (hc : c ∈ run.table) (hslash : '/' ∈ c.bareName.toList) :
    c.IsNamedBy options.settings := by
  rcases typeName_cases h hc with hset | hplain
  · exact hset
  · rw [ClassDescriptor.bareName, hplain, Naming.bare_plain] at hslash
    exact absurd hslash (Naming.not_mem_plain c.title c.source).2

/-- There are as many model files as classes exactly when no two classes share a bare name. -/
theorem Run.length_modelPaths (distinct : run.generated.Nodup)
    (flat : ∀ c ∈ run.generated, '/' ∉ c.bareName.toList) :
    (run.generated.map (output.path .model ·.bareName)).dedup.length = run.generated.length ↔
      ∀ c ∈ run.generated, ∀ d ∈ run.generated, c.bareName = d.bareName → c = d := by
  have hinj : (run.generated.map (output.path .model ·.bareName)).Nodup ↔
      ∀ c ∈ run.generated, ∀ d ∈ run.generated, c.bareName = d.bareName → c = d := by
    rw [List.nodup_map_iff_inj_on distinct]
    refine forall₂_congr fun c hc => forall₂_congr fun d hd => ?_
    rw [OutputOptions.path_inj (flat c hc) (flat d hd)]
  rw [← hinj, ← List.dedup_eq_self]
  refine ⟨fun hlength => ?_, fun heq => ?_⟩
  · exact (List.dedup_sublist _).eq_of_length (by rw [hlength, List.length_map])
  · rw [heq, List.length_map]

/-- What is handed to the renderer of a run, by source and bare name, with the statistics of the run
and the fault that it ends with when its files are written. -/
def RunOptions.outcome? (options : RunOptions) (files : FileTree) (depth : Nat)
    (output : OutputOptions) : Option (List (String × String) × Statistics × Option Fault) :=
  (options.resolveAll depth (options.start files)).bind fun result =>
    result.1.toOption.map fun run =>
      (run.generated.map fun c => (c.source, c.bareName), run.statistics,
        (OutputFile.writeAll result.2.catalog.files (run.files options.naming output)).2)

theorem RunOptions.generate_of_writeAll {draft resolved : Draft}
    (hresolve : options.resolveAll depth draft = some (.ok run, resolved))
    (hwrite : (OutputFile.writeAll resolved.catalog.files (run.files options.naming output)).2 =
      none) :
    ∃ after, options.generate depth output draft = some (.ok run.statistics, after) := by
  unfold generate
  change ∃ after, (options.resolveAll depth draft).bind _ = _
  rw [hresolve, Option.bind_some]
  dsimp only
  rw [get_bind, hwrite]
  exact ⟨_, rfl⟩

theorem RunOptions.generate_of_outcome? {names : List (String × String)}
    (h : options.outcome? files depth output = some (names, stats, none)) :
    ∃ after run resolved,
      options.generate depth output (options.start files) = some (.ok stats, after) ∧
      options.resolveAll depth (options.start files) = some (.ok run, resolved) ∧
      run.generated.map (fun c => (c.source, c.bareName)) = names := by
  obtain ⟨⟨result, resolved⟩, hresolve, hresult⟩ := Option.bind_eq_some_iff.mp h
  cases result with
  | error => cases hresult
  | ok run =>
    obtain ⟨hnames, hrest⟩ := Prod.mk.inj (Option.some.inj hresult)
    obtain ⟨rfl, hwrite⟩ := Prod.mk.inj hrest
    obtain ⟨after, hgenerate⟩ := generate_of_writeAll hresolve hwrite
    exact ⟨after, run, resolved, hgenerate, hresolve, hnames⟩

/-- In a run that succeeds and has no collisions, two classes share a bare name only if the settings
name one of them, or if they share the plain name that their titles or locations give, where no two
whole files have one title. The files of classes with different bare names have different paths, so
there are as many model files as classes if and only if no two of them share a bare name. -/
theorem RunOptions.paths_apart
    (h : options.generate depth output (options.start files downloads) = some (.ok stats, after)) :
    ∃ run resolved, options.resolveAll depth (options.start files downloads) =
      some (.ok run, resolved) ∧
      after.catalog.files =
        (OutputFile.writeAll resolved.catalog.files (run.files options.naming output)).1 ∧
      (stats.collisions = 0 → ∀ c ∈ run.generated, ∀ d ∈ run.generated, c ≠ d →
        c.bareName = d.bareName →
        c.IsNamedBy options.settings ∨ d.IsNamedBy options.settings ∨
          (c.plainName = d.plainName ∧ ∀ title, c.title = some title → d.title = some title →
            ¬(resolved.catalog.HasFile c.source ∧ resolved.catalog.HasFile d.source))) ∧
      (∀ c ∈ run.generated, (run.classFiles options.naming output c).map (·.path) =
        (output.kinds c).map (output.path · c.bareName)) ∧
      (∀ c ∈ run.generated, '/' ∈ c.bareName.toList → c.IsNamedBy options.settings) ∧
      (∀ c ∈ run.generated, ∀ d ∈ run.generated, '/' ∉ c.bareName.toList →
        '/' ∉ d.bareName.toList → ∀ kind,
        output.path kind c.bareName = output.path kind d.bareName ↔ c.bareName = d.bareName) ∧
      ((∀ c ∈ run.generated, '/' ∉ c.bareName.toList) →
        ((run.generated.map (output.path .model ·.bareName)).dedup.length =
            stats.classesGenerated + stats.enumsGenerated ↔
          ∀ c ∈ run.generated, ∀ d ∈ run.generated, c.bareName = d.bareName → c = d)) := by
  obtain ⟨run, resolved, written, hresolve, hrender, hfiles, rfl⟩ := RunOptions.generate_inv h
  have distinct := run.generated_nodup (RunOptions.resolveAll_endsAt hresolve).sources_nodup
  refine ⟨run, resolved, hresolve, ?_, ?_, fun c _ => run.paths_classFiles _ _ c, ?_, ?_, ?_⟩
  · obtain ⟨other, hother, hrender'⟩ :=
      run.render_viewRenderer options.naming output resolved.catalog.files
    rw [hrender'] at hrender
    rw [hfiles, ← hother, (Prod.mk.inj hrender).2]
  · intro free c hc d hd hne hname
    have hc := run.mem_table_of_mem_generated hc
    have hd := run.mem_table_of_mem_generated hd
    refine (plainName_eq hresolve hc hd hname).imp id (Or.imp id fun hplain => ⟨hplain, ?_⟩)
    rintro title hctitle hdtitle ⟨hcfile, hdfile⟩
    exact hne (eq_of_title hresolve free hc hd hctitle hdtitle hcfile hdfile)
  · exact fun c hc => isNamedBy_of_mem hresolve (run.mem_table_of_mem_generated hc)
  · exact fun c _ d _ hc hd kind => OutputOptions.path_inj hc hd kind
  · intro flat
    rw [run.length_generated]
    exact Run.length_modelPaths distinct flat

/-- The two classes of a run on schemas that refer to each other have a model file each. -/
theorem RunOptions.paths_apart_mutual :
    ∃ options files output stats after,
      RunOptions.generate options 8 output (options.start files) = some (.ok stats, after) ∧
      ∃ run resolved, options.resolveAll 8 (options.start files) = some (.ok run, resolved) ∧
        stats.collisions = 0 ∧ stats.classesGenerated + stats.enumsGenerated = 2 ∧
        (run.generated.map (output.path .model ·.bareName)).dedup.length = 2 := by
  let options := RunOptions.onSchemas "a"
  let files := FileTree.ofSchemas [
    ("a", .withProperty "b" (.referringTo "b")),
    ("b", .withProperty "a" (.referringTo "a"))]
  let output : OutputOptions := ⟨"/s", "/s", "/s", false⟩
  have houtcome : options.outcome? files 8 output =
      some ([("/s/a", "A"), ("/s/b", "B")], ⟨2, 0, 0, 0, 0⟩, none) := by
    decide +kernel
  obtain ⟨after, run, resolved, hgenerate, hresolve, hnames⟩ := generate_of_outcome? houtcome
  obtain ⟨other, _, hother, -, -, -, -, -, hcount⟩ := paths_apart hgenerate
  obtain ⟨heq, rfl⟩ := Prod.mk.inj (Option.some.inj (hresolve.symm.trans hother))
  obtain rfl := Except.ok.inj heq
  have hbare : run.generated.map (·.bareName) = ["A", "B"] := by
    simpa [Function.comp_def] using congrArg (List.map Prod.snd) hnames
  have flat : ∀ name ∈ run.generated.map (·.bareName), '/' ∉ name.toList := by
    rw [hbare]
    decide
  have distinct : (run.generated.map (·.bareName)).Nodup := by
    rw [hbare]
    decide
  refine ⟨options, files, output, _, after, hgenerate, run, resolved, hresolve, rfl, rfl, ?_⟩
  exact (hcount fun c hc => flat _ (List.mem_map_of_mem hc)).mpr fun c hc d hd =>
    List.inj_on_of_nodup_map distinct hc hd

/-- A schema without a title that refers to three titled ones and to a part of itself. -/
def FileTree.alike : FileTree :=
  .ofSchemas [
    ("a-b", .obj [("type", .str "object"), ("x", .titledObject "AB"),
      ("properties", .obj [("b", .referringTo "b"), ("d", .referringTo "d"),
        ("e", .referringTo "e"), ("x", .referringTo "#/x")])]),
    ("b", .titledObject "AB"), ("d", .titledObject "A B"), ("e", .titledObject "E")]

def RunOptions.alike : RunOptions :=
  ⟨"a-b", ["/s"], [], ⟨[("E", ⟨some "AB", false⟩)], []⟩, .ofNamespace "N"⟩

/-- Five classes of a run without collisions have one bare name: that of a file without a title, the
title of a file, another title without its blank, a name that is set, and the title of a part of a
file. There is one model file for all of them. -/
theorem RunOptions.paths_alike :
    ∃ stats after run resolved,
      alike.generate 8 ⟨"/s", "/s", "/s", false⟩ (alike.start .alike) = some (.ok stats, after) ∧
      alike.resolveAll 8 (alike.start .alike) = some (.ok run, resolved) ∧
      stats.collisions = 0 ∧ stats.classesGenerated + stats.enumsGenerated = 5 ∧
      run.generated.map (fun c => (c.source, c.bareName)) =
        [("/s/a-b", "AB"), ("/s/b", "AB"), ("/s/d", "AB"), ("/s/e", "AB"), ("/s/a-b#/x", "AB")] ∧
      (∃ c ∈ run.generated, ∃ d ∈ run.generated, c ≠ d ∧ c.bareName = d.bareName) ∧
      (run.generated.map (OutputOptions.path ⟨"/s", "/s", "/s", false⟩ .model ·.bareName)).dedup =
        ["/s/AB.json"] := by
  have houtcome : alike.outcome? .alike 8 ⟨"/s", "/s", "/s", false⟩ =
      some ([("/s/a-b", "AB"), ("/s/b", "AB"), ("/s/d", "AB"), ("/s/e", "AB"),
        ("/s/a-b#/x", "AB")], ⟨5, 0, 0, 0, 0⟩, none) := by
    decide +kernel
  obtain ⟨after, run, resolved, hgenerate, hresolve, hnames⟩ := generate_of_outcome? houtcome
  refine ⟨_, after, run, resolved, hgenerate, hresolve, rfl, rfl, hnames, ?_, ?_⟩
  · obtain ⟨c, rest, hgenerated, hc, hrest⟩ := List.map_eq_cons_iff.mp hnames
    obtain ⟨d, more, rfl, hd, -⟩ := List.map_eq_cons_iff.mp hrest
    obtain ⟨hcsource, hcname⟩ := Prod.mk.inj hc
    obtain ⟨hdsource, hdname⟩ := Prod.mk.inj hd
    rw [hgenerated]
    refine ⟨c, by simp, d, by simp, ?_, hcname.trans hdname.symm⟩
    rintro rfl
    exact absurd (hcsource.symm.trans hdsource) (by decide)
  · have hpaths := congrArg (List.map fun pair : String × String =>
      OutputOptions.path ⟨"/s", "/s", "/s", false⟩ .model pair.2) hnames
    rw [List.map_map] at hpaths
    refine (congrArg List.dedup hpaths).trans ?_
    decide

end SchemaClasses
