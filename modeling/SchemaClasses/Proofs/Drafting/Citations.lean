import SchemaClasses.Proofs.Drafting.Sources
import SchemaClasses.Proofs.Drafting.Tasks
import SchemaClasses.Proofs.Runs

/-!
# References and the files they are written in

Each task that is started looks at a value in the file that references are relative to at that time.
So every reference that is loaded on the way, whatever task loads it, is loaded relative to the file
that it is written in. Only the reference of a call is loaded as it is called.
-/

namespace SchemaClasses.Drafting

open Catalog (sourced_lasting)

namespace Task

/-- What a task looks at is in the file that references are relative to; a task that follows links
enters the contexts itself. -/
def InPlace : Task × Draft → Prop
  | (.unalias _ document, draft) => draft.catalog.Sourced ∧ draft.catalog.Knows document
  | (.type owner _ fragment _, draft) => draft.catalog.Sourced ∧
      draft.catalog.IsRooted owner.document.key ∧ draft.catalog.Reads fragment
  | (.base document entry, draft) => draft.catalog.Sourced ∧ draft.catalog.Knows document ∧
      draft.catalog.Reads document.body ∧
      ∃ entries, document.body.get? "allOf" = some entries ∧ entry.Occurs entries
  | (.members owner declared, draft) => draft.catalog.Sourced ∧
      draft.catalog.IsRooted owner.document.key ∧
      ∀ entry ∈ declared, draft.catalog.Reads entry.2
  | (.body owner, draft) => draft.catalog.Sourced ∧ draft.catalog.Knows owner.document ∧
      draft.catalog.Reads owner.document.body

variable {task next : Task × Draft}

theorem Starts.inPlace (h : Starts task next) (inPlace : InPlace task) : InPlace next := by
  cases h with
  | link _ hlink htarget =>
    obtain ⟨sourced, known⟩ := inPlace
    exact ⟨target_lasts sourced_lasting sourced known hlink htarget, target_knows htarget⟩
  | items hshape =>
    obtain ⟨sourced, rooted, reads⟩ := inPlace
    exact ⟨sourced, rooted,
      reads.further (PropertyShape.array_inv hshape) (by decide) .self⟩
  | values hshape =>
    obtain ⟨sourced, rooted, reads⟩ := inPlace
    exact ⟨sourced, rooted,
      reads.further (PropertyShape.dictionary_inv hshape) (by decide) .self⟩
  | inner hshape =>
    obtain ⟨sourced, rooted, reads⟩ := inPlace
    exact ⟨sourced, rooted, reads.onlyBase? (PropertyShape.composite_inv hshape)⟩
  | inlineObject _ hdocument =>
    obtain ⟨sourced, rooted, reads⟩ := inPlace
    exact ⟨inlineDocument_lasts sourced_lasting sourced reads rooted hdocument,
      insert_knows (inlineDocument_inv hdocument)⟩
  | reference _ hleads =>
    obtain ⟨sourced, rooted, reads⟩ := inPlace
    exact ⟨load_lasts sourced_lasting sourced hleads.loads, load_knows hleads.loads⟩
  | followed _ hleads =>
    obtain ⟨sourced, rooted, reads⟩ := inPlace
    have hloaded := load_lasts sourced_lasting sourced hleads.loads
    have hrooted := rooted.mono (load_grows hleads.loads).catalog
    exact ⟨hloaded.enter _, hrooted, hloaded.reads_enter (load_knows hleads.loads)⟩
  | baseReference _ hload =>
    obtain ⟨sourced, -⟩ := inPlace
    exact ⟨load_lasts sourced_lasting sourced hload, load_knows hload⟩
  | @baseWritten _ entry _ _ _ _ hlink hinsert =>
    obtain ⟨sourced, known, -, entries, hget, hentry⟩ := inPlace
    obtain rfl := Link.entry_inv hlink
    have hfirst := firstEntry_lasts sourced_lasting sourced known hget hentry hinsert
    exact ⟨hfirst, insert_knows hinsert⟩
  | member =>
    obtain ⟨sourced, rooted, reads⟩ := inPlace
    exact ⟨sourced, rooted, reads _ List.mem_cons_self⟩
  | implied =>
    obtain ⟨sourced, rooted, reads⟩ := inPlace
    exact ⟨sourced, rooted, fun entry h => reads entry (List.mem_cons_of_mem _ h)⟩
  | rest _ htype =>
    obtain ⟨sourced, rooted, reads⟩ := inPlace
    have hfragment := reads _ List.mem_cons_self
    refine ⟨htype.lasts sourced_lasting rooted sourced hfragment,
      rooted.mono htype.grows.catalog, ?_⟩
    exact fun entry h => (reads entry (List.mem_cons_of_mem _ h)).mono htype.grows.catalog
  | onlyBase _ hentries =>
    obtain ⟨sourced, known, reads⟩ := inPlace
    exact ⟨sourced, known, reads, Json.array?_inv hentries List.mem_cons_self⟩
  | @firstBase _ _ _ _ draft _ hentries =>
    obtain ⟨sourced, known, reads⟩ := inPlace
    exact ⟨sourced.tell _, known, reads.mono (draft.catalog.warn_grows _),
      Json.array?_inv hentries List.mem_cons_self⟩
  | @properties owner _ _ _ _ hbase =>
    obtain ⟨sourced, known, reads⟩ := inPlace
    obtain ⟨schema, comes⟩ := sourced owner.document known
    have hderived := hbase.lasts sourced_lasting sourced known
    refine ⟨hderived, comes.rooted.mono hbase.grows.catalog, fun entry hentry => ?_⟩
    exact (reads_properties reads entry hentry).mono hbase.grows.catalog
  | @value owner =>
    obtain ⟨sourced, known, reads⟩ := inPlace
    obtain ⟨schema, comes⟩ := sourced owner.document known
    exact ⟨sourced, comes.rooted, reads⟩

theorem inPlace_of_starts (h : Relation.ReflTransGen Starts task next) (inPlace : InPlace task) :
    InPlace next := by
  induction h with
  | refl => exact inPlace
  | tail _ hstart ih => exact hstart.inPlace ih

theorem Starts.sameTexts (h : Starts task next) :
    task.2.catalog.SameTexts next.2.catalog := by
  cases h with
  | link _ _ htarget => exact (target_learns htarget).grows.catalog.sameTexts
  | items | values | inner | member | implied | onlyBase | firstBase | value => exact ⟨rfl, rfl⟩
  | inlineObject _ hdocument =>
    exact (insert_grows (inlineDocument_inv hdocument)).catalog.sameTexts
  | reference _ hleads => exact (load_grows hleads.loads).catalog.sameTexts
  | followed _ hleads =>
    have grows := (load_grows hleads.loads).catalog
    exact ⟨grows.files, grows.downloads⟩
  | baseReference _ hload => exact (load_grows hload).catalog.sameTexts
  | baseWritten _ hinsert => exact (insert_grows hinsert).catalog.sameTexts
  | rest _ htype => exact htype.grows.catalog.sameTexts
  | properties _ hbase => exact hbase.grows.catalog.sameTexts

theorem sameTexts_of_starts (h : Relation.ReflTransGen Starts task next) :
    task.2.catalog.SameTexts next.2.catalog := by
  induction h with
  | refl => exact .refl _
  | tail _ hstart ih => exact ih.trans hstart.sameTexts

/-- A reference is loaded relative to a file that has it. -/
theorem Loads.reads {reference : String} {value : Json} {draft : Draft}
    (h : Loads task reference value draft) (inPlace : InPlace task) :
    draft.catalog.Reads value ∧ value.string? "$ref" = some reference := by
  cases h with
  | link _ hshape =>
    obtain ⟨sourced, known⟩ := inPlace
    exact ⟨sourced.reads_enter known, SchemaShape.reference_inv hshape⟩
  | wrapper _ hshape href =>
    obtain ⟨sourced, known⟩ := inPlace
    exact ⟨(sourced.reads_enter known).onlyBase? (SchemaShape.wrapper_inv hshape), href⟩
  | type hshape =>
    obtain ⟨-, -, reads⟩ := inPlace
    exact ⟨reads, PropertyShape.reference_inv hshape⟩
  | base hlink =>
    obtain ⟨-, -, reads, entries, hget, hentry⟩ := inPlace
    exact ⟨reads.further hget (by decide) hentry, Link.reference_inv hlink⟩

theorem Begins.inPlace {draft : Draft} (h : Begins draft task) (sourced : draft.catalog.Sourced)
    (documented : draft.Documented) : InPlace task := by
  cases h with
  | intern known => exact ⟨sourced, known⟩
  | drafted _ hplace =>
    have known := documented _ (List.mem_of_getElem? hplace)
    exact ⟨sourced.enter _, known, sourced.reads_enter known⟩

end Task

section

variable {files : FileTree} {searchPaths extensionPaths : List String}
variable {downloads : List (String × String)} {settings : Settings} {naming : Naming}
variable {draft : Draft}

/-- Whatever is seen from a draft on is loaded relative to the file that it is written in. -/
theorem SeenFrom.cites {reference : String} {during : Draft}
    (h : SeenFrom draft (.loading reference during)) (sourced : draft.catalog.Sourced)
    (documented : draft.Documented) : during.catalog.Cites reference := by
  obtain ⟨between, first, hsteps, hbegins, last, hstarts, hshows⟩ := h
  have hbetween := Steps.sourced hsteps not_false documented sourced
  have inPlace := hbegins.inPlace hbetween (Steps.documented hsteps not_false documented)
  cases hshows with
  | loads hloads =>
    obtain ⟨⟨key, schema, htop, hloaded, hstems⟩, href⟩ :=
      hloads.reads (Task.inPlace_of_starts hstarts inPlace)
    obtain ⟨part, hpart, hpartref, -⟩ := hstems.string? href (by decide)
    exact ⟨key, schema, part, htop, hloaded, hpart, hpartref⟩

/-- Whatever is resolved over a tree of files and whatever URLs give, a reference is loaded from the
catalog as it is at that moment. A watched run ends like the run itself, and each reference that is
loaded on the way, apart from that of a call, is loaded relative to a loaded file in which it is
written. Every document that is known has a loaded file as its source and a part of it as its
schema, but for the title, and every place has such a document. -/
theorem loaded_in_place
    (h : Steps .known (.new (.new files searchPaths extensionPaths downloads) settings naming)
      draft) :
    (∀ used (during : Draft), load used during = some ((during.catalog.load used).1,
      { during with catalog := (during.catalog.load used).2 })) ∧
    (∀ depth reference,
      (resolve depth reference draft : Watched _).outcome? = resolve depth reference draft ∧
      ∀ used during,
        .loading used during ∈ (resolve depth reference draft : Watched _).moments →
        used = reference ∧ during = draft ∨ during.catalog.Cites used) ∧
    (∀ depth document names, draft.catalog.Knows document →
      (resolveExtension depth document names draft : Watched _).outcome? =
        resolveExtension depth document names draft ∧
      ∀ used during,
        .loading used during ∈ (resolveExtension depth document names draft : Watched _).moments →
        during.catalog.Cites used) ∧
    (∀ document, draft.catalog.Knows document → ∃ schema,
      draft.catalog.HasLoaded document.source schema ∧
        schema.Stems (files.HashInPath ∨ downloads ≠ []) document.body) ∧
    ∀ place ∈ draft.places, draft.catalog.Knows place.document := by
  have hfirst :
      (Draft.new (.new files searchPaths extensionPaths downloads) settings naming).Documented :=
    fun _ hplace => absurd hplace List.not_mem_nil
  have documented := Steps.documented h not_false hfirst
  have sourced : draft.catalog.Sourced :=
    Steps.sourced h not_false hfirst
      (Catalog.new_sourced files searchPaths extensionPaths downloads)
  refine ⟨fun _ _ => rfl, fun depth reference => ?_, fun depth document names known => ?_,
    fun document known => ?_, documented⟩
  · have hsees := resolve_sees depth reference draft
    refine ⟨hsees.ends, fun used during hmoment => ?_⟩
    refine (hsees.moments _ hmoment).imp (fun hcalled => ?_) fun hseen =>
      hseen.cites sourced documented
    exact Moment.loading.inj hcalled
  · have hsees := resolveExtension_sees depth names known
    exact ⟨hsees.ends, fun used during hmoment =>
      (hsees.moments _ hmoment).cites sourced documented⟩
  · obtain ⟨schema, comes⟩ := sourced document known
    have hstems := comes.stems
    rw [(Steps.sameTexts h).hashInKey_iff] at hstems
    exact ⟨schema, comes.loaded, hstems⟩

def reference? : Moment → Option (String × Option String)
  | .loading reference draft => some (reference, draft.catalog.contextTop?)
  | .following _ => none

theorem reference?_inv {moment : Moment} {used : String} {top : Option String}
    (h : reference? moment = some (used, top)) :
    ∃ during, moment = .loading used during ∧ during.catalog.contextTop? = top := by
  cases moment with
  | loading reference draft =>
    obtain ⟨rfl, rfl⟩ := Prod.mk.inj (Option.some.inj h)
    exact ⟨draft, rfl, rfl⟩
  | following => cases h

/-- The references of an array and of its items are loaded relative to the files that have them. -/
theorem loaded_in_place_items :
    let files := FileTree.ofSchemas [("c", .withProperty "a" (.referringTo "d")),
      ("d", .obj [("type", .str "array"), ("items", .referringTo "e")]), ("e", .number)]
    let start := Draft.new (.new files ["/s"] []) .empty (.ofNamespace "N")
    ∃ during later,
      .loading "d" during ∈ (resolve 8 "c" start : Watched _).moments ∧
      during.catalog.contextTop? = some "/s/c" ∧ during.catalog.Cites "d" ∧
      .loading "e" later ∈ (resolve 8 "c" start : Watched _).moments ∧
      later.catalog.contextTop? = some "/s/d" ∧ later.catalog.Cites "e" := by
  intro files start
  have hrun : ((resolve 8 "c" start : Watched _).moments.filterMap reference?) =
      [("c", none), ("d", some "/s/c"), ("e", some "/s/d")] := by
    decide +kernel
  have hloaded {used : String} {top : Option String}
      (hmem : (used, top) ∈ [("c", none), ("d", some "/s/c"), ("e", some "/s/d")]) :
      ∃ during, .loading used during ∈ (resolve 8 "c" start : Watched _).moments ∧
        during.catalog.contextTop? = top ∧ (used ≠ "c" → during.catalog.Cites used) := by
    rw [← hrun] at hmem
    obtain ⟨moment, hmoment, heq⟩ := List.mem_filterMap.mp hmem
    obtain ⟨during, rfl, rfl⟩ := reference?_inv heq
    refine ⟨during, hmoment, rfl, fun hother => ?_⟩
    have hcites := ((loaded_in_place .refl).2.1 8 "c").2 used during hmoment
    exact hcites.resolve_left fun h => hother h.1
  obtain ⟨during, hduring, htop, hcites⟩ := hloaded (List.mem_cons_of_mem _ List.mem_cons_self)
  obtain ⟨later, hlater, hinner, hinnerCites⟩ :=
    hloaded (List.mem_cons_of_mem _ (List.mem_cons_of_mem _ List.mem_cons_self))
  exact ⟨during, later, hduring, htop, hcites (by decide), hlater, hinner,
    hinnerCites (by decide)⟩

end

/-- Files of which one has the path that is the key of an object declared in another. -/
def hashInPath : FileTree :=
  ⟨[], [(["s"], .directory), (["s", "c#inline"], .directory),
    (["s", "c"], .file (some (Json.obj [("type", .str "object"),
      ("properties", .obj [("p", .withProperty "a" .number), ("r", .referringTo "d")])]).compact)),
    (["s", "d"], .file (some (Json.obj [("type", .str "object"),
      ("allOf", .arr [.referringTo "p#/title"]), ("properties", .obj [("b", .number)])]).compact)),
    (["s", "c#inline", "p"], .file (some (Json.obj []).compact))]⟩

def withHashInPath : RunOptions := ⟨"c", ["/s", "/s/c#inline"], [], .empty, .ofNamespace "N"⟩

/-- A title that was given to a declared object may become a document, when there is a file with the
key of that object as its path. -/
theorem title_of_hashInPath :
    ∃ run after place schema,
      withHashInPath.resolveAll 8 (withHashInPath.start hashInPath) = some (.ok run, after) ∧
      place ∈ after.places ∧ after.catalog.readBody? place.document.source = some schema ∧
      ¬∃ part, part.Occurs schema ∧
        (place.document.body = part ∨ ∃ title, place.document.body = part.titled title) := by
  have hrun : ((withHashInPath.resolveAll 8 (withHashInPath.start hashInPath)).bind fun result =>
      result.1.toOption.bind fun _ => result.2.places[3]?.bind fun place =>
        place.document.body.asString?.bind fun text =>
          (result.2.catalog.readBody? place.document.source).map fun schema =>
            (text, schema.texts.contains text)) = some ("C P Value", false) := by
    decide +kernel
  obtain ⟨⟨result, after⟩, hrun, h⟩ := Option.bind_eq_some_iff.mp hrun
  obtain ⟨run, hok, h⟩ := Option.bind_eq_some_iff.mp h
  obtain ⟨place, hplace, h⟩ := Option.bind_eq_some_iff.mp h
  obtain ⟨text, htext, h⟩ := Option.bind_eq_some_iff.mp h
  obtain ⟨schema, hschema, h⟩ := Option.map_eq_some_iff.mp h
  obtain ⟨-, hnone⟩ := Prod.mk.inj h
  have hbody : place.document.body = .str text := by
    cases hbody : place.document.body with
    | str value =>
      rw [hbody] at htext
      rw [Option.some.inj htext]
    | null | bool | num | arr | obj => simp [hbody, Json.asString?] at htext
  cases result with
  | error => cases hok
  | ok run =>
    refine ⟨run, after, place, schema, hrun, List.mem_of_getElem? hplace, hschema, ?_⟩
    rintro ⟨part, hpart, hvalue⟩
    have heq : part = .str text := by
      rcases hvalue with hvalue | ⟨title, hvalue⟩
      · exact hvalue.symm.trans hbody
      · rw [hbody] at hvalue
        cases part with
        | str value => exact hvalue.symm
        | null | bool | num | arr | obj => cases hvalue
    have hmem := hpart.texts_subset (by rw [heq]; exact List.mem_singleton_self text)
    simp [hmem] at hnone

end SchemaClasses.Drafting
