import SchemaClasses.Proofs.Drafting.Extensions
import SchemaClasses.Proofs.Generation.UseSites
import SchemaClasses.View

/-!
# Extensions of a run

The extensions of a run have their turns one after another, before the root is resolved. The names
that the settings give an extension are for the class that is drafted for its schema in its turn. If
the schema has a class by then, because an extension before it has led there, that class keeps its
names; and nothing that is resolved later changes the names of either.

In its turn an extension is attached to its hosts by their titles, and what is attached stays so.
The views of a class list what is attached to the title of the class.
-/

namespace SchemaClasses

open Drafting

variable {options : RunOptions} {files : FileTree} {downloads : List (String × String)}
variable {depth : Nat} {run : Run} {after : Draft}

/-! ### Turns -/

/-- What a run does when it is the turn of an extension, and what it keeps of that to its end. -/
structure Run.TurnOf (run : Run) (depth : Nat) (e : ExtensionSettings) (grafted : Grafted)
    (middle : Draft) (result : Grafted) (next after : Draft) : Prop where
  orderly : middle.Orderly []
  pending : middle.pending = []
  grafts : Grafts depth e grafted middle result next
  steps : Steps .known middle next
  later : Steps .known next after
  classes : result.classes <+: run.extensionClasses
  registry : ∀ title a, a ∈ result.registry.forHost title → a ∈ run.registry.forHost title

/-- Every extension of a run has its turn, when those before it have been grafted. -/
theorem RunOptions.exists_turn {before later : List ExtensionSettings} {e : ExtensionSettings}
    (h : options.resolveAll depth (options.start files downloads) = some (.ok run, after))
    (hextensions : options.settings.extensions = before ++ e :: later) :
    ∃ grafted middle result next,
      before.foldlM (graftOne depth) ⟨[], .empty⟩ (options.start files downloads) =
        some (grafted, middle) ∧
      run.TurnOf depth e grafted middle result next after := by
  obtain ⟨final, between, hgraft, hclasses, hregistry, hrest, -⟩ :=
    RunOptions.resolveAll_inv .known h
  rw [graft, hextensions, List.foldlM_append] at hgraft
  obtain ⟨grafted, middle, hbefore, hgraft⟩ := bind_inv hgraft
  rw [List.foldlM_cons] at hgraft
  obtain ⟨result, next, hone, hlater⟩ := bind_inv hgraft
  obtain ⟨_, -, hpast⟩ : ∃ ids, grafted.classes = [] ++ ids ∧
      Completes .known (options.start files downloads) ids middle :=
    graftAll_completes rfl Policy.known_allowsAll hbefore
  obtain ⟨_, -, hturn⟩ : ∃ ids, result.classes = grafted.classes ++ ids ∧
      Completes .known middle ids next :=
    graftOne_completes hpast.pending (fun _ _ _ => trivial) hone
  obtain ⟨_, hadded, hlast⟩ : ∃ ids, final.classes = result.classes ++ ids ∧
      Completes .known next ids between :=
    graftAll_completes hturn.pending Policy.known_allowsAll hlater
  refine ⟨grafted, middle, result, next, hbefore, ?_⟩
  exact {
    orderly := hpast.steps.orderly (options.start_orderly files)
    pending := hpast.pending
    grafts := graftOne_grafts hone
    steps := hturn.steps
    later := hlast.steps.trans hrest.steps
    classes := by
      rw [hclasses, hadded]
      exact List.prefix_append ..
    registry := by
      intro title a ha
      rw [hregistry]
      exact graftAll_keeps hlater ha }

theorem Run.EndsAt.filled_inv {policy : Policy} {middle : Draft} {id : ClassId} {place : Place}
    {drafted : DraftClass} (h : run.EndsAt options files downloads after)
    (steps : Steps policy middle after)
    (orderly : middle.Orderly []) (hplace : middle.places[id]? = some place)
    (hdrafted : place.drafted = some drafted) :
    run.table.get? id = some (after.linking.classOf id drafted) ∧
      drafted.source = place.document.key := by
  have hfilled := steps.filled orderly hplace hdrafted
  obtain ⟨c, hc⟩ := h.get?_of_lt (List.getElem?_eq_some_iff.mp hfilled).1
  obtain ⟨place', drafted', hplace', hdrafted', hclass, rfl⟩ := h.place_inv hc
  obtain rfl := Option.some.inj (hfilled.symm.trans hplace')
  obtain rfl := Option.some.inj (hdrafted.symm.trans hdrafted')
  exact ⟨hc, hclass.source⟩

namespace Run.TurnOf

variable {e : ExtensionSettings} {grafted result : Grafted} {middle next loaded resolved : Draft}
  {document : Document}

/-- An extension that has a class gives it out, and is attached to its hosts under the name that
the class has in the end. -/
theorem attached (turn : run.TurnOf depth e grafted middle result next after)
    (h : run.EndsAt options files downloads after)
    (hload : onCatalog (·.loadExtension e.schema (some e.extensionName)) middle =
      some (some document, loaded)) {id : ClassId}
    (hresolve : resolveExtension depth document ⟨e.className, e.extensionName⟩ loaded =
      some (some id, resolved)) :
    Steps .known resolved after ∧
      ∃ c, run.extensionClasses[grafted.classes.length]? = some id ∧ run.table.get? id = some c ∧
        e.attachTo.foldlM (attachTo · ⟨e.extensionName, c.qualifiedName⟩) grafted.registry
          resolved = some (result.registry, next) := by
  have hresolved : Completes .known middle _ resolved :=
    loadedExtension_completes turn.pending (fun _ _ _ => trivial) hload hresolve
  have orderly := hresolved.steps.orderly turn.orderly
  obtain ⟨key, holds⟩ := hresolved.holds id List.mem_cons_self
  obtain ⟨place, drafted, hplace, -, hdrafted, hclass⟩ :=
    (orderly.complete hresolved.pending).drafted_of_holds holds
  have hname : resolved.typeName? id = some drafted.typeName := by
    rw [Draft.typeName?, hclass, Option.map_some]
  obtain ⟨hclasses, hattach⟩ := turn.grafts.attached_inv hload hresolve hname
  have hlater : Steps .known resolved after := (attachAll_looks hattach).steps.trans turn.later
  have hc := (h.filled_inv hlater orderly hplace hdrafted).1
  refine ⟨hlater, after.linking.classOf id drafted, ?_, hc, ?_⟩
  · obtain ⟨others, hothers⟩ := turn.classes
    simp [← hothers, hclasses]
  · have hnaming : after.naming = resolved.naming := hlater.within.naming
    rw [← hnaming] at hattach
    exact hattach

theorem loaded_idOf? (hload : onCatalog (·.loadExtension e.schema (some e.extensionName)) middle =
      some (some document, loaded)) (key : String) : loaded.idOf? key = middle.idOf? key := by
  obtain ⟨-, rfl⟩ := onCatalog_inv hload
  rfl

/-- A schema that has no class yet gets one under the names of the extension. -/
theorem new (turn : run.TurnOf depth e grafted middle result next after)
    (h : run.EndsAt options files downloads after)
    (hload : onCatalog (·.loadExtension e.schema (some e.extensionName)) middle =
      some (some document, loaded))
    (hlink : document.link? = none) (hid : middle.idOf? document.key = none) :
    ∃ id c, run.extensionClasses[grafted.classes.length]? = some id ∧
      run.table.get? id = some c ∧ c.source = document.key ∧
      c.extensionName = some e.extensionName ∧
      ∀ name, e.className = some name → c.typeName = name := by
  have hloaded : Completes .known middle [] loaded := loadExtension_completes turn.pending hload
  obtain ⟨found, resolved, hresolve⟩ := turn.grafts.resolves hload
  obtain ⟨drafted, rfl, hplace, hnames⟩ :=
    resolveExtension_new (hloaded.steps.orderly turn.orderly) hloaded.pending hlink
      ((loaded_idOf? hload _).trans hid) hresolve
  have hresolved : Completes .known middle _ resolved :=
    loadedExtension_completes turn.pending (fun _ _ _ => trivial) hload hresolve
  obtain ⟨hlater, c, hgiven, hc, -⟩ := turn.attached h hload hresolve
  obtain ⟨hdrafted, hsource⟩ :=
    h.filled_inv hlater (hresolved.steps.orderly turn.orderly) hplace rfl
  obtain rfl := Option.some.inj (hc.symm.trans hdrafted)
  exact ⟨_, _, hgiven, hc, hsource, hnames⟩

/-- A schema that has a class keeps it, with the names that it has when the turn comes. -/
theorem known (turn : run.TurnOf depth e grafted middle result next after)
    (h : run.EndsAt options files downloads after)
    (hload : onCatalog (·.loadExtension e.schema (some e.extensionName)) middle =
      some (some document, loaded))
    (hlink : document.link? = none) {id : ClassId} (hid : middle.idOf? document.key = some id) :
    ∃ c drafted, run.extensionClasses[grafted.classes.length]? = some id ∧
      run.table.get? id = some c ∧ c.source = document.key ∧
      middle.classAt? id = some drafted ∧ c.typeName = drafted.typeName ∧
      c.extensionName = drafted.extensionName := by
  obtain ⟨found, resolved, hresolve⟩ := turn.grafts.resolves hload
  obtain rfl := resolveExtension_known hlink ((loaded_idOf? hload _).trans hid) hresolve
  obtain ⟨-, c, hgiven, hc, -⟩ := turn.attached h hload hresolve
  obtain ⟨place, drafted, hplace, hkey, hfilled, hclass⟩ :=
    (turn.orderly.complete turn.pending).drafted_of_holds (Draft.holds_of_idOf? hid)
  obtain ⟨hdrafted, hsource⟩ :=
    h.filled_inv (turn.steps.trans turn.later) turn.orderly hplace hfilled
  obtain rfl := Option.some.inj (hc.symm.trans hdrafted)
  exact ⟨_, drafted, hgiven, hc, hsource.trans hkey, hclass, rfl, rfl⟩

end Run.TurnOf

/-! ### Names -/

/-- An extension whose schema is no alias is never left out. Its class takes the configured names if
the schema has no class yet when its turn comes, and otherwise keeps the names that it has. -/
theorem RunOptions.extension_names {before later : List ExtensionSettings} {e : ExtensionSettings}
    (h : options.resolveAll depth (options.start files downloads) = some (.ok run, after))
    (hextensions : options.settings.extensions = before ++ e :: later) :
    ∃ grafted middle,
      before.foldlM (graftOne depth) ⟨[], .empty⟩ (options.start files downloads) =
        some (grafted, middle) ∧
      ∀ document,
        (middle.catalog.loadExtension e.schema (some e.extensionName)).1 = some document →
        document.link? = none →
        ∃ id c, run.extensionClasses[grafted.classes.length]? = some id ∧
          run.table.get? id = some c ∧ c.source = document.key ∧
          (middle.idOf? document.key = none →
            c.extensionName = some e.extensionName ∧
              ∀ name, e.className = some name → c.typeName = name) ∧
          ∀ known, middle.idOf? document.key = some known →
            id = known ∧ ∃ drafted, middle.classAt? known = some drafted ∧
              c.typeName = drafted.typeName ∧ c.extensionName = drafted.extensionName := by
  have ends := RunOptions.resolveAll_endsAt h
  obtain ⟨grafted, middle, result, next, hbefore, turn⟩ := RunOptions.exists_turn h hextensions
  refine ⟨grafted, middle, hbefore, fun document hfound hlink => ?_⟩
  obtain ⟨loaded, hload⟩ : ∃ loaded,
      onCatalog (·.loadExtension e.schema (some e.extensionName)) middle =
        some (some document, loaded) := by
    rw [← hfound]
    exact ⟨_, rfl⟩
  cases hid : middle.idOf? document.key with
  | none =>
    obtain ⟨id, c, hgiven, hc, hsource, hnames⟩ := turn.new ends hload hlink hid
    exact ⟨id, c, hgiven, hc, hsource, fun _ => hnames, fun _ hsome => nomatch hsome⟩
  | some id =>
    obtain ⟨c, drafted, hgiven, hc, hsource, hclass, hnames⟩ := turn.known ends hload hlink hid
    refine ⟨id, c, hgiven, hc, hsource, fun hnone => (Option.some_ne_none id hnone).elim, ?_⟩
    intro known hknown
    obtain rfl := Option.some.inj hknown
    exact ⟨rfl, drafted, hclass, hnames⟩

def RunOptions.namingFirst : RunOptions :=
  .withExtensions "c" [⟨"d", "D", some "Other", []⟩, ⟨"e", "E", none, []⟩]

/-- A class name stays when an extension refers to the schema later on, and the root too. -/
theorem RunOptions.extension_names_referred :
    ∃ run after id c,
      namingFirst.resolveAll 8 (namingFirst.start .renamedTarget) = some (.ok run, after) ∧
      run.extensionClasses[0]? = some id ∧ run.table.get? id = some c ∧
      c.source = "/s/d" ∧ c.typeName = "Other" ∧ c.extensionName = some "D" := by
  have hnames : ((namingFirst.resolveAll 8 (namingFirst.start .renamedTarget)).bind
      fun result => result.1.toOption.map Run.useNames) =
        some [(none, none), (some "Other", some "Other"), (some "Other", some "Other")] := by
    decide +kernel
  have hdocument : ((namingFirst.start .renamedTarget).catalog.loadExtension "d" (some "D")).1.map
      (fun document => (document.key, document.link?.isNone)) = some ("/s/d", true) := by
    decide +kernel
  obtain ⟨run, after, hrun, -⟩ := run_of_map hnames
  have hextensions : namingFirst.settings.extensions =
      [] ++ ⟨"d", "D", some "Other", []⟩ :: [⟨"e", "E", none, []⟩] := rfl
  obtain ⟨grafted, middle, hbefore, hturn⟩ := RunOptions.extension_names hrun hextensions
  obtain ⟨rfl, rfl⟩ := pure_inv hbefore
  obtain ⟨document, hfound, heq⟩ := Option.map_eq_some_iff.mp hdocument
  obtain ⟨hkey, hlink⟩ := Prod.mk.inj heq
  obtain ⟨id, c, hgiven, hc, hsource, hnew, -⟩ :=
    hturn document hfound (Option.isNone_iff_eq_none.mp hlink)
  obtain ⟨hextension, hname⟩ := hnew rfl
  exact ⟨run, after, id, c, hrun, hgiven, hc, hsource.trans hkey, hname _ rfl, hextension⟩

def Run.extensionNames (run : Run) : List (Option (String × String × Option String)) :=
  run.extensionClasses.map fun id =>
    (run.table.get? id).map fun c => (c.source, c.typeName, c.extensionName)

def RunOptions.namingAlias : RunOptions :=
  .withExtensions "d" [⟨"w", "W", some "Other", []⟩]

def FileTree.aliased : FileTree :=
  .ofSchemas [("w", .referringTo "d"), ("d", .withProperty "b" .number)]

/-- The names of an extension are lost on a schema that an extension before it refers to, and on a
schema that is only a reference. -/
theorem RunOptions.extensionNames_lost :
    (∃ run after, renaming.resolveAll 8 (renaming.start .renamedTarget) = some (.ok run, after) ∧
      run.extensionNames = [some ("/s/e", "E", some "E"), some ("/s/d", "D", none)]) ∧
    ∃ run after, namingAlias.resolveAll 8 (namingAlias.start .aliased) = some (.ok run, after) ∧
      run.extensionNames = [some ("/s/d", "D", none)] := by
  have hrenaming : ((renaming.resolveAll 8 (renaming.start .renamedTarget)).bind
      fun result => result.1.toOption.map Run.extensionNames) =
        some [some ("/s/e", "E", some "E"), some ("/s/d", "D", none)] := by
    decide +kernel
  have halias : ((namingAlias.resolveAll 8 (namingAlias.start .aliased)).bind
      fun result => result.1.toOption.map Run.extensionNames) =
        some [some ("/s/d", "D", none)] := by
    decide +kernel
  exact ⟨run_of_map hrenaming, run_of_map halias⟩

/-! ### Attachments -/

theorem Attachment.toJson_injective : Function.Injective Attachment.toJson := by
  rintro ⟨name, className⟩ ⟨name', className'⟩ h
  simpa [toJson] using h

/-- A view lists an attachment among its extensions. -/
def View.Lists (view : Json) (a : Attachment) : Prop :=
  ∃ listed, view.get? "extensions" = some (.arr listed) ∧ a.toJson ∈ listed

namespace View

variable {registry : Registry} {c : ClassDescriptor} {object : ObjectClass} {a : Attachment}

theorem lists_iff {view : Json} (h : view.get? "extensions" = some (attachments registry c)) :
    Lists view a ↔ ∃ title, c.title = some title ∧ a ∈ registry.forHost title := by
  unfold Lists
  rw [h, attachments]
  cases c.title with
  | none => simp
  | some title => simp [Attachment.toJson_injective.eq_iff]

theorem lists_reader :
    Lists (reader registry c object) a ↔
      ∃ title, c.title = some title ∧ a ∈ registry.forHost title :=
  lists_iff rfl

theorem lists_writer (naming : Naming) :
    Lists (writer naming registry c object) a ↔
      ∃ title, c.title = some title ∧ a ∈ registry.forHost title :=
  lists_iff rfl

end View

/-- A host that is no alias has a class of its own title. -/
theorem Run.EndsAt.title_of_intern {bound : Nat} {host : Document} {id : ClassId}
    {k : ClassDescriptor} {between : Draft} (h : run.EndsAt options files downloads after)
    (known : after.catalog.Knows host)
    (hlink : host.link? = none) (hintern : intern bound host after = some (some id, between))
    (hk : run.table.get? id = some k) : k.title = host.title? := by
  obtain ⟨place, drafted, hplace, -, hdrafted, rfl⟩ := h.place_inv hk
  have hid : after.idOf? host.key = some id := by
    obtain ⟨_, hid, heq, -⟩ | ⟨-, heq, -⟩ := (intern_interns hintern).own_inv hlink
    · exact hid.trans heq.symm
    · obtain rfl := Option.some.inj heq
      simp at hplace
  obtain ⟨other, hother, rfl⟩ := h.place_of_holds known (Draft.holds_of_idOf? hid)
  obtain rfl := Option.some.inj (hplace.symm.trans hother)
  exact hdrafted.title

/-- An extension is attached to a host that is found by the title of the host. All classes with that
title list it in their views; the class of the host itself has that title, unless the host is an
alias. -/
theorem RunOptions.attachment_listed {before later : List ExtensionSettings}
    {e : ExtensionSettings} {past rest : List String} {host : String}
    (h : options.resolveAll depth (options.start files downloads) = some (.ok run, after))
    (hextensions : options.settings.extensions = before ++ e :: later)
    (hhosts : e.attachTo = past ++ host :: rest) :
    ∃ grafted middle,
      before.foldlM (graftOne depth) ⟨[], .empty⟩ (options.start files downloads) =
        some (grafted, middle) ∧
      ∀ document loaded id resolved,
        onCatalog (·.loadExtension e.schema (some e.extensionName)) middle =
          some (some document, loaded) →
        resolveExtension depth document ⟨e.className, e.extensionName⟩ loaded =
          some (some id, resolved) →
        ∃ c registry during, run.extensionClasses[grafted.classes.length]? = some id ∧
          run.table.get? id = some c ∧
          past.foldlM (attachTo · ⟨e.extensionName, c.qualifiedName⟩) grafted.registry resolved =
            some (registry, during) ∧
          ∀ found title, (during.catalog.load (host ++ ".schema.json")).1 = some found →
            found.title? = some title →
            ⟨e.extensionName, c.qualifiedName⟩ ∈ run.registry.forHost title ∧
            (∀ k ∈ run.table, k.title = some title → ∀ object, k.object? = some object →
              View.Lists (View.reader run.registry k object)
                  ⟨e.extensionName, c.qualifiedName⟩ ∧
                View.Lists (View.writer options.naming run.registry k object)
                  ⟨e.extensionName, c.qualifiedName⟩) ∧
            ∀ bound hostId between k, intern bound found after = some (some hostId, between) →
              run.table.get? hostId = some k → found.link? = none → k.title = some title := by
  have ends := RunOptions.resolveAll_endsAt h
  obtain ⟨grafted, middle, result, next, hbefore, turn⟩ := RunOptions.exists_turn h hextensions
  refine ⟨grafted, middle, hbefore, fun document loaded id resolved hload hresolve => ?_⟩
  obtain ⟨-, c, hgiven, hc, hattach⟩ := turn.attached ends hload hresolve
  rw [hhosts] at hattach
  obtain ⟨registry, during, attached, told, hpast, hone, hlater⟩ := attachAll_append_inv hattach
  refine ⟨c, registry, during, hgiven, hc, hpast, fun found title hfound htitle => ?_⟩
  have hlisted : ⟨e.extensionName, c.qualifiedName⟩ ∈ run.registry.forHost title :=
    turn.registry title _ (attachAll_keeps hlater ((attachTo_attaches hone).listed hfound htitle))
  refine ⟨hlisted, fun k _ hk object _ => ?_, fun bound hostId between k hintern hk hlink => ?_⟩
  · exact ⟨View.lists_reader.mpr ⟨title, hk, hlisted⟩,
      (View.lists_writer _).mpr ⟨title, hk, hlisted⟩⟩
  · have hsteps : Steps .known told after := (attachAll_looks hlater).steps.trans turn.later
    have known : after.catalog.Knows found :=
      hsteps.within.knows ((attachTo_attaches hone).knows hfound)
    exact (ends.title_of_intern known hlink hintern hk).trans htitle

/-- The titles of a host and of its class at the end of a run, with the hosts of the registry. -/
def RunOptions.host? (options : RunOptions) (files : FileTree) (depth : Nat) (host : String) :
    Option (Option String × Option String × List (String × List Attachment)) := do
  let result ← options.resolveAll depth (options.start files)
  let run ← result.1.toOption
  let document ← (result.2.catalog.load (host ++ ".schema.json")).1
  let interned ← intern depth document result.2
  let id ← interned.1
  let k ← run.table.get? id
  let _ ← k.object?
  return (document.title?, k.title, run.registry.hosts)

theorem Drafting.eq_some_of_fst {α : Type} {action : Drafting (Option α)} {draft : Draft}
    {result : Option α × Draft} {a : α} (h : action draft = some result)
    (ha : result.1 = some a) : action draft = some (some a, result.2) :=
  h.trans (congrArg some (Prod.ext ha rfl))

theorem RunOptions.host_inv {host : String} {title own : Option String}
    {hosts : List (String × List Attachment)}
    (h : options.host? files depth host = some (title, own, hosts)) :
    ∃ run after document id between k object,
      options.resolveAll depth (options.start files) = some (.ok run, after) ∧
      (after.catalog.load (host ++ ".schema.json")).1 = some document ∧ document.title? = title ∧
      intern depth document after = some (some id, between) ∧ run.table.get? id = some k ∧
      k.object? = some object ∧ k.title = own ∧ run.registry = ⟨hosts⟩ := by
  obtain ⟨⟨result, after⟩, hrun, h⟩ := Option.bind_eq_some_iff.mp h
  cases result with
  | error => cases h
  | ok run =>
    obtain ⟨_, hok, h⟩ := Option.bind_eq_some_iff.mp h
    obtain rfl := Option.some.inj hok
    obtain ⟨document, hdocument, h⟩ := Option.bind_eq_some_iff.mp h
    obtain ⟨interned, hintern, h⟩ := Option.bind_eq_some_iff.mp h
    obtain ⟨id, hid, h⟩ := Option.bind_eq_some_iff.mp h
    obtain ⟨k, hk, h⟩ := Option.bind_eq_some_iff.mp h
    obtain ⟨object, hobject, h⟩ := Option.bind_eq_some_iff.mp h
    obtain ⟨htitle, heq⟩ := Prod.mk.inj (Option.some.inj h)
    obtain ⟨hown, rfl⟩ := Prod.mk.inj heq
    exact ⟨run, after, document, id, _, k, object, hrun, hdocument, htitle,
      eq_some_of_fst hintern hid, hk, hobject, hown, rfl⟩

def RunOptions.attachingRoot : RunOptions :=
  .withExtensions "d.schema.json" [⟨"x", "X", none, ["d"]⟩]

def FileTree.titledHost : FileTree :=
  .ofSchemas [("d.schema.json", .titledObject "D"), ("x", .titledObject "X")]

/-- The root lists an extension that is attached to it. -/
theorem RunOptions.attachment_listed_root :
    ∃ run after k object,
      attachingRoot.resolveAll 8 (attachingRoot.start .titledHost) = some (.ok run, after) ∧
      k ∈ run.table ∧ k.title = some "D" ∧ k.object? = some object ∧ ∃ c ∈ run.table,
        View.Lists (View.reader run.registry k object) ⟨"X", c.qualifiedName⟩ ∧
        View.Lists (View.writer (.ofNamespace "N") run.registry k object)
          ⟨"X", c.qualifiedName⟩ := by
  have hhost : attachingRoot.host? .titledHost 8 "d" =
      some (some "D", some "D", [("D", [⟨"X", "N::X"⟩])]) := by
    decide +kernel
  have hturn : ((onCatalog (·.loadExtension "x" (some "X"))
      (attachingRoot.start .titledHost) : Option _).bind fun loaded =>
        loaded.1.bind fun document =>
        (resolveExtension 8 document ⟨none, "X"⟩ loaded.2 : Option _).bind fun resolved =>
          resolved.1.map fun _ =>
            (resolved.2.catalog.load "d.schema.json").1.map (·.title?)) =
              some (some (some "D")) := by
    decide +kernel
  obtain ⟨run, after, _, id, _, k, object, hrun, -, -, -, hk, hobject, hown, -⟩ := host_inv hhost
  have hextensions : attachingRoot.settings.extensions =
      [] ++ ⟨"x", "X", none, ["d"]⟩ :: [] := rfl
  have hhosts : ["d"] = [] ++ "d" :: [] := rfl
  obtain ⟨grafted, middle, hbefore, hlisted⟩ :=
    RunOptions.attachment_listed hrun hextensions hhosts
  obtain ⟨rfl, rfl⟩ := pure_inv hbefore
  obtain ⟨loaded, hload, hturn⟩ := Option.bind_eq_some_iff.mp hturn
  obtain ⟨document, hdocument, hturn⟩ := Option.bind_eq_some_iff.mp hturn
  obtain ⟨resolved, hresolve, hturn⟩ := Option.bind_eq_some_iff.mp hturn
  obtain ⟨extension, hid, hturn⟩ := Option.map_eq_some_iff.mp hturn
  obtain ⟨found, hfound, htitle⟩ := Option.map_eq_some_iff.mp hturn
  obtain ⟨c, registry, during, -, hc, hpast, hattached⟩ :=
    hlisted document loaded.2 extension resolved.2 (eq_some_of_fst hload hdocument)
      (eq_some_of_fst hresolve hid)
  obtain ⟨rfl, rfl⟩ := pure_inv hpast
  obtain ⟨-, hviews, -⟩ := hattached found "D" hfound htitle
  have hmem : k ∈ run.table := List.mem_of_getElem? hk
  exact ⟨run, after, k, object, hrun, hmem, hown, hobject, c, List.mem_of_getElem? hc,
    hviews k hmem hown object hobject⟩

def RunOptions.attachingAlias : RunOptions := .withExtensions "c" [⟨"x", "X", none, ["w"]⟩]

def FileTree.aliasedHost : FileTree :=
  .ofSchemas [("c", .withProperty "p" (.referringTo "d")), ("d", .titledObject "D"),
    ("w.schema.json", .obj [("title", .str "W"), ("$ref", .str "d")]), ("x", .titledObject "X")]

/-- An extension that is attached to an alias is not listed for the class that the alias has. -/
theorem RunOptions.attachment_lost :
    ∃ run after document id between k object,
      attachingAlias.resolveAll 8 (attachingAlias.start .aliasedHost) = some (.ok run, after) ∧
      (after.catalog.load "w.schema.json").1 = some document ∧ document.title? = some "W" ∧
      intern 8 document after = some (some id, between) ∧ run.table.get? id = some k ∧
      k.object? = some object ∧ k.title = some "D" ∧
      ⟨"X", "N::X"⟩ ∈ run.registry.forHost "W" ∧ run.registry.forHost "D" = [] ∧
      ¬View.Lists (View.reader run.registry k object) ⟨"X", "N::X"⟩ := by
  have hhost : attachingAlias.host? .aliasedHost 8 "w" =
      some (some "W", some "D", [("W", [⟨"X", "N::X"⟩])]) := by
    decide +kernel
  obtain ⟨run, after, document, id, between, k, object, hrun, hdocument, htitle, hintern, hk,
    hobject, hown, hregistry⟩ := host_inv hhost
  have hnone : run.registry.forHost "D" = [] := by rw [hregistry]; decide
  refine ⟨run, after, document, id, between, k, object, hrun, hdocument, htitle, hintern, hk,
    hobject, hown, by rw [hregistry]; decide, hnone, fun hlists => ?_⟩
  obtain ⟨title, hsome, hmem⟩ := View.lists_reader.mp hlists
  obtain rfl := Option.some.inj (hown.symm.trans hsome)
  rw [hnone] at hmem
  cases hmem

end SchemaClasses
