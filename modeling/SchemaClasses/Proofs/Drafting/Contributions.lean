import SchemaClasses.Proofs.Drafting.Complete
import SchemaClasses.Proofs.Drafting.Extensions
import SchemaClasses.Proofs.Registry

/-!
# What extensions contribute

When its turn comes an extension contributes its class, if its schema is found and has one, and an
attachment for each of its hosts that is found and has a title. Grafting gives out the classes and
records the attachments of all extensions in the order of their turns. An extension that is missing
contributes nothing, and a host that is missing or has no title is passed over; both change nothing
but the catalog for the turns that follow.
-/

namespace SchemaClasses.Drafting

/-- What an extension contributes in its turn. -/
structure Contribution where
  id? : Option ClassId
  /-- Attachments with the titles of their hosts, in the order of the hosts. -/
  attached : List (String × Attachment)

def Contribution.nothing : Contribution := ⟨none, []⟩

/-- Hosts are looked for one after another, and those that are found and have a title give it. -/
inductive HostTitles (a : Attachment) : List String → Draft → List String → Draft → Prop
  | nil {draft} : HostTitles a [] draft [] draft
  | missing {host hosts draft loaded titles after} :
      load (host ++ ".schema.json") draft = some (none, loaded) →
      HostTitles a hosts
        { loaded with
          catalog := loaded.catalog.warn
            (.hostMissing a.extensionName (host ++ ".schema.json")) } titles after →
      HostTitles a (host :: hosts) draft titles after
  | untitled {host hosts draft document loaded titles after} :
      load (host ++ ".schema.json") draft = some (some document, loaded) →
      document.title? = none →
      HostTitles a hosts
        { loaded with
          catalog := loaded.catalog.warn
            (.hostUntitled a.extensionName (host ++ ".schema.json")) } titles after →
      HostTitles a (host :: hosts) draft titles after
  | titled {host hosts draft document title loaded titles after} :
      load (host ++ ".schema.json") draft = some (some document, loaded) →
      document.title? = some title →
      HostTitles a hosts
        { loaded with
          catalog := loaded.catalog.tell
            [.notice (.attached a.extensionName a.className title)] } titles after →
      HostTitles a (host :: hosts) draft (title :: titles) after

/-- The turn of an extension. -/
inductive Contributes (depth : Nat) (e : ExtensionSettings) (draft : Draft) :
    Contribution → Draft → Prop
  | missing {loaded} :
      onCatalog (·.loadExtension e.schema (some e.extensionName)) draft = some (none, loaded) →
      Contributes depth e draft .nothing
        { loaded with catalog := loaded.catalog.warn (.extensionMissing e.extensionName e.schema) }
  | unresolved {document loaded resolved} :
      onCatalog (·.loadExtension e.schema (some e.extensionName)) draft =
        some (some document, loaded) →
      resolveExtension depth document ⟨e.className, e.extensionName⟩ loaded =
        some (none, resolved) →
      Contributes depth e draft .nothing
        { resolved with
          catalog := resolved.catalog.warn (.extensionUnresolved e.extensionName e.schema) }
  | resolved {document loaded id resolved typeName titles after} :
      onCatalog (·.loadExtension e.schema (some e.extensionName)) draft =
        some (some document, loaded) →
      resolveExtension depth document ⟨e.className, e.extensionName⟩ loaded =
        some (some id, resolved) → resolved.typeName? id = some typeName →
      HostTitles ⟨e.extensionName, resolved.naming.qualified typeName⟩ e.attachTo resolved titles
        after →
      Contributes depth e draft
        ⟨some id, titles.map (·, ⟨e.extensionName, resolved.naming.qualified typeName⟩)⟩ after

/-- The turns of extensions one after another. -/
inductive Contribute (depth : Nat) :
    List ExtensionSettings → Draft → List Contribution → Draft → Prop
  | nil {draft} : Contribute depth [] draft [] draft
  | cons {e extensions draft contribution between contributions after} :
      Contributes depth e draft contribution between →
      Contribute depth extensions between contributions after →
      Contribute depth (e :: extensions) draft (contribution :: contributions) after

variable {draft after : Draft} {depth : Nat}

/-- Hosts are attached to by the titles they give. -/
theorem attachAll_hostTitles {hosts : List String} {registry attached : Registry} {a : Attachment}
    (h : hosts.foldlM (attachTo · a) registry draft = some (attached, after)) :
    ∃ titles, HostTitles a hosts draft titles after ∧
      attached = registry.attachAll (titles.map (·, a)) := by
  induction hosts generalizing registry draft with
  | nil =>
    obtain ⟨rfl, rfl⟩ := pure_inv h
    exact ⟨[], .nil, rfl⟩
  | cons host hosts ih =>
    rw [List.foldlM_cons] at h
    obtain ⟨between, middle, hfirst, h⟩ := bind_inv h
    obtain ⟨titles, htitles, rfl⟩ := ih h
    cases attachTo_attaches hfirst with
    | missing hload => exact ⟨titles, .missing hload htitles, rfl⟩
    | untitled hload hnone => exact ⟨titles, .untitled hload hnone htitles, rfl⟩
    | titled hload htitle => exact ⟨_, .titled hload htitle htitles, rfl⟩

/-- An extension adds to what has been grafted before it what it contributes. -/
theorem graftOne_contributes {grafted result : Grafted} {e : ExtensionSettings}
    (orderly : draft.Orderly []) (hpending : draft.pending = [])
    (h : graftOne depth grafted e draft = some (result, after)) :
    ∃ contribution, Contributes depth e draft contribution after ∧
      result.classes = grafted.classes ++ contribution.id?.toList ∧
      result.registry = grafted.registry.attachAll contribution.attached ∧
      ∀ id ∈ contribution.id?, ∃ name, after.typeName? id = some name ∧
        ∀ entry ∈ contribution.attached,
          entry.2 = ⟨e.extensionName, after.naming.qualified name⟩ := by
  cases graftOne_grafts h with
  | missing hload =>
    exact ⟨.nothing, .missing hload, (List.append_nil _).symm, rfl, fun id hid => nomatch hid⟩
  | unresolved hload hresolve =>
    exact ⟨.nothing, .unresolved hload hresolve, (List.append_nil _).symm, rfl,
      fun id hid => nomatch hid⟩
  | unnamed hload hresolve hnone =>
    have hresolved : Completes .known draft _ _ :=
      loadedExtension_completes hpending (fun _ _ _ => trivial) hload hresolve
    obtain ⟨key, holds⟩ := hresolved.holds _ List.mem_cons_self
    have hsome := ((hresolved.steps.orderly orderly).complete hresolved.pending).typeName?_isSome
      holds.lt
    rw [hnone] at hsome
    cases hsome
  | @attached _ _ id resolved typeName _ _ hload hresolve hname hattach =>
    obtain ⟨titles, htitles, hregistry⟩ := attachAll_hostTitles hattach
    refine ⟨_, .resolved hload hresolve hname htitles, rfl, hregistry, fun other hid => ?_⟩
    obtain rfl := Option.mem_some.mp hid
    obtain ⟨catalog, -, rfl⟩ : Looks False resolved after := attachAll_looks hattach
    refine ⟨typeName, hname, fun entry hentry => ?_⟩
    obtain ⟨_, -, rfl⟩ := List.mem_map.mp hentry
    rfl

theorem Steps.typeName? {policy : Policy} (steps : Steps policy draft after)
    (orderly : draft.Orderly []) {id : ClassId} {name : String}
    (h : draft.typeName? id = some name) : after.typeName? id = some name := by
  obtain ⟨drafted, hclass, hname⟩ := Option.map_eq_some_iff.mp h
  obtain ⟨place, hplace, hdrafted⟩ := Option.bind_eq_some_iff.mp hclass
  have hfilled := steps.filled orderly hplace hdrafted
  rw [Draft.typeName?, Draft.classAt?, hfilled, Option.bind_some, hdrafted, Option.map_some, hname]

theorem graftAll_contribute {extensions : List ExtensionSettings} {grafted result : Grafted}
    (orderly : draft.Orderly []) (hpending : draft.pending = [])
    (h : extensions.foldlM (graftOne depth) grafted draft = some (result, after)) :
    ∃ contributions, Contribute depth extensions draft contributions after ∧
      result.classes = grafted.classes ++ contributions.filterMap (·.id?) ∧
      result.registry = grafted.registry.attachAll (contributions.flatMap (·.attached)) ∧
      List.Forall₂ (fun e contribution => ∀ id ∈ contribution.id?, ∃ name,
        after.typeName? id = some name ∧ ∀ entry ∈ contribution.attached,
          entry.2 = ⟨e.extensionName, after.naming.qualified name⟩) extensions contributions := by
  induction extensions generalizing grafted draft with
  | nil =>
    obtain ⟨rfl, rfl⟩ := pure_inv h
    exact ⟨[], .nil, (List.append_nil _).symm, rfl, .nil⟩
  | cons e extensions ih =>
    rw [List.foldlM_cons] at h
    obtain ⟨middle, between, hfirst, h⟩ := bind_inv h
    obtain ⟨contribution, hcontributes, hclasses, hregistry, hnames⟩ :=
      graftOne_contributes orderly hpending hfirst
    obtain ⟨_, -, hturn⟩ : ∃ ids, middle.classes = grafted.classes ++ ids ∧
        Completes .known draft ids between :=
      graftOne_completes hpending (fun _ _ _ => trivial) hfirst
    have hbetween := hturn.steps.orderly orderly
    obtain ⟨_, -, hrest⟩ : ∃ ids, result.classes = middle.classes ++ ids ∧
        Completes .known between ids after :=
      graftAll_completes hturn.pending Policy.known_allowsAll h
    obtain ⟨contributions, hcontribute, hclasses', hregistry', hnames'⟩ :=
      ih hbetween hturn.pending h
    refine ⟨contribution :: contributions, .cons hcontributes hcontribute, ?_, ?_, ?_⟩
    · rw [hclasses', hclasses, List.append_assoc]
      cases hid : contribution.id? <;> simp [hid]
    · rw [hregistry', hregistry, List.flatMap_cons, Registry.attachAll_append]
    · refine .cons (fun id hid => ?_) hnames'
      obtain ⟨name, hname, hentries⟩ := hnames id hid
      rw [hrest.steps.within.naming]
      exact ⟨name, hrest.steps.typeName? hbetween hname, hentries⟩

/-- Whatever has been called on a new draft, grafting gives out the classes that the extensions
contribute, in order. It records what they attach: every title once and for each title every
attachment once, in the order in which they first come; and its size counts them. -/
theorem graft_contributions {catalog : Catalog} {settings : Settings} {naming : Naming}
    {ids : List ClassId} {extensions : List ExtensionSettings} {grafted : Grafted}
    (called : Called (.new catalog settings naming) ids draft)
    (h : graft depth extensions draft = some (grafted, after)) :
    ∃ contributions, Contribute depth extensions draft contributions after ∧
      List.Forall₂ (fun e contribution => ∀ id ∈ contribution.id?, ∃ name,
        after.typeName? id = some name ∧ ∀ entry ∈ contribution.attached,
          entry.2 = ⟨e.extensionName, after.naming.qualified name⟩) extensions contributions ∧
      grafted.classes = contributions.filterMap (·.id?) ∧
      let given := contributions.flatMap (·.attached)
      Ordered.Firsts (given.map (·.1)) (grafted.registry.hosts.map (·.1)) ∧
      (∀ title, Ordered.Firsts ((given.filter (·.1 = title)).map (·.2))
        (grafted.registry.forHost title)) ∧
      grafted.registry.size = given.dedup.length ∧
      (grafted.registry.isEmpty = true ↔ grafted.registry.size = 0) := by
  have completes := called.completes (Draft.new_orderly catalog settings naming) rfl
  obtain ⟨contributions, hcontribute, hclasses, hregistry, hnames⟩ :=
    graftAll_contribute (completes.steps.orderly (Draft.new_orderly catalog settings naming))
      completes.pending h
  have records : grafted.registry.Records (contributions.flatMap (·.attached)) := by
    rw [hregistry]
    exact Registry.Records.empty.attachAll _
  exact ⟨contributions, hcontribute, hnames, hclasses, records.titles, records.forHost,
    records.size, records.isEmpty⟩

/-- Three extensions: one with two hosts of one title, a host without a title and one that is
missing; one that is missing; and one with a host of that title. -/
def attachingThree : List ExtensionSettings :=
  [⟨"x", "X", none, ["a", "b", "u", "none"]⟩, ⟨"none", "M", none, ["a"]⟩, ⟨"y", "Y", none, ["b"]⟩]

/-- Two hosts of one title share their attachments, and what is missing has no part in them. -/
theorem graft_contributions_shared :
    let files := FileTree.ofSchemas
      [("a.schema.json", .titledObject "T"), ("b.schema.json", .titledObject "T"),
        ("u.schema.json", .number), ("x", .titledObject "X"), ("y", .titledObject "Y")]
    let draft := Draft.new (.new files ["/s"] ["/s"]) .empty (.ofNamespace "N")
    ∃ grafted after contributions, graft 8 attachingThree draft = some (grafted, after) ∧
      Contribute 8 attachingThree draft contributions after ∧
      contributions.filterMap (·.id?) = [0, 1] ∧
      (contributions.flatMap (·.attached)).dedup.length = 2 ∧
      grafted.registry.forHost "T" = [⟨"X", "N::X"⟩, ⟨"Y", "N::Y"⟩] := by
  intro files draft
  have hrun : (graft 8 attachingThree draft).map
      (fun result => (result.1.classes, result.1.registry)) =
        some ([0, 1], ⟨[("T", [⟨"X", "N::X"⟩, ⟨"Y", "N::Y"⟩])]⟩) := by
    decide +kernel
  obtain ⟨⟨grafted, after⟩, hgraft, heq⟩ := Option.map_eq_some_iff.mp hrun
  obtain ⟨hids, hregistry⟩ := Prod.mk.inj heq
  obtain ⟨contributions, hcontribute, -, hclasses, -, -, hsize, -⟩ :=
    graft_contributions .none hgraft
  rw [hregistry] at hsize
  refine ⟨grafted, after, contributions, hgraft, hcontribute, hclasses.symm.trans hids,
    hsize.symm.trans rfl, ?_⟩
  rw [hregistry]
  decide

end SchemaClasses.Drafting
