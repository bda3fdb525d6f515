import SchemaClasses.Proofs.Catalog.Sources
import SchemaClasses.Proofs.Drafting.Calls
import SchemaClasses.Proofs.Drafting.Documented

/-!
# Where references are resolved

Whatever fragment is looked at while a class is drafted, references are relative to the file that it
stems from: fragments of the class are looked at in the context of its document, and fragments of
another document in the context of that. New documents are made from such fragments with the context
as their source, so all documents stem from their sources in the end.
-/

namespace SchemaClasses

namespace Catalog

/-- References are relative to the file that a value stems from. -/
def Reads (catalog : Catalog) (value : Json) : Prop :=
  ∃ key schema, catalog.contextTop? = some key ∧ catalog.HasLoaded key schema ∧
    schema.Stems catalog.HashInKey value

/-- A reference is written in the loaded file that references are relative to. -/
def Cites (catalog : Catalog) (reference : String) : Prop :=
  ∃ (key : String) (schema part : Json), catalog.contextTop? = some key ∧
    catalog.HasLoaded key schema ∧ part.Occurs schema ∧ part.string? "$ref" = some reference

variable {catalog after : Catalog} {value part inner : Json} {key : String}

theorem Reads.mono (h : catalog.Reads value) (grows : catalog.Grows after) : after.Reads value := by
  obtain ⟨source, schema, htop, hloaded, hstems⟩ := h
  refine ⟨source, schema, ?_, hloaded.mono grows, ?_⟩
  · rwa [contextTop?, grows.context]
  · rwa [grows.sameTexts.hashInKey_iff]

theorem Reads.further (h : catalog.Reads value) (hget : value.get? key = some inner)
    (hkey : key ≠ "title") (hpart : part.Occurs inner) : catalog.Reads part := by
  obtain ⟨source, schema, htop, hloaded, hstems⟩ := h
  exact ⟨source, schema, htop, hloaded, .part (hpart.trans (hstems.get? hget hkey))⟩

theorem Reads.onlyBase? (h : catalog.Reads value) (hbase : onlyBase? value = some part) :
    catalog.Reads part := by
  obtain ⟨entries, hget, hpart⟩ := onlyBase?_inv hbase
  exact h.further hget (by decide) hpart

theorem ComesFrom.reads_enter {document : Document} {schema : Json}
    (h : catalog.ComesFrom document schema) : (catalog.enter document).Reads document.body :=
  ⟨document.source, schema, rfl, ⟨h.loaded.located, h.loaded.reads, h.loaded.knows⟩, h.stems⟩

theorem Sourced.reads_enter {document : Document} (h : catalog.Sourced)
    (known : catalog.Knows document) : (catalog.enter document).Reads document.body := by
  obtain ⟨schema, comes⟩ := h document known
  exact comes.reads_enter

end Catalog

namespace Drafting

variable {kept : Catalog → Prop} {draft after : Draft}

theorem load_lasts (lasting : Catalog.Lasting kept) {reference : String} {found : Option Document}
    (hkept : kept draft.catalog) (h : load reference draft = some (found, after)) :
    kept after.catalog := by
  obtain ⟨-, rfl⟩ := load_inv h
  exact lasting.load reference hkept

theorem firstEntry_lasts (lasting : Catalog.Lasting kept) {document known : Document}
    {body entries : Json} (hkept : kept draft.catalog) (hknown : draft.catalog.Knows document)
    (hentries : document.body.get? "allOf" = some entries) (hbody : body.Occurs entries)
    (h : insert (document.firstEntry body) draft = some (known, after)) :
    kept after.catalog := by
  obtain ⟨-, rfl⟩ := insert_inv h
  obtain ⟨schema, comes⟩ := lasting.sourced hkept document hknown
  have hpart := hbody.trans (comes.stems.get? hentries (by decide))
  refine lasting.insert hkept comes.loaded (.part hpart) ?_ ?_
  · exact comes.rooted.append _
  · simp [Document.firstEntry]

theorem target_lasts (lasting : Catalog.Lasting kept) {document : Document} {link : Link}
    {found : Option Document} (hkept : kept draft.catalog) (known : draft.catalog.Knows document)
    (hlink : document.link? = some link)
    (h : target document link draft = some (found, after)) : kept after.catalog := by
  cases link with
  | reference reference =>
    obtain ⟨inner, hload, rfl⟩ := inContext_inv h
    exact lasting.leave (load_lasts lasting (lasting.enter document hkept) hload)
  | entry body =>
    obtain ⟨next, between, hinsert, h⟩ := bind_inv h
    obtain ⟨-, rfl⟩ := pure_inv h
    obtain ⟨entries, hget, hpart⟩ := onlyBase?_inv (Document.link?_entry_inv hlink)
    exact firstEntry_lasts lasting hkept known hget hpart hinsert

theorem Unaliases.lasts {seen : List String} {document : Document} {found : Option Document}
    (h : Unaliases seen document draft found after) (lasting : Catalog.Lasting kept)
    (hkept : kept draft.catalog) (known : draft.catalog.Knows document) : kept after.catalog := by
  induction h with
  | circle => exact lasting.tell _ hkept
  | itself => exact hkept
  | lost _ hlink htarget => exact target_lasts lasting hkept known hlink htarget
  | next _ hlink htarget _ ih =>
    exact ih (target_lasts lasting hkept known hlink htarget) (target_knows htarget)

theorem Interns.lasts {document : Document} {id : Option ClassId}
    (h : Interns document draft id after) (lasting : Catalog.Lasting kept)
    (hkept : kept draft.catalog) (known : draft.catalog.Knows document) : kept after.catalog := by
  cases h with
  | lost hown => exact hown.lasts lasting hkept known
  | known hown hid => exact hown.lasts lasting hkept known
  | added hown new => exact hown.lasts lasting hkept known

/-- An object declared at a property is a part of the file that is being read. -/
theorem inlineDocument_lasts (lasting : Catalog.Lasting kept) {owner : Owner} {path : String}
    {fragment : Json} {document : Document} (hkept : kept draft.catalog)
    (reads : draft.catalog.Reads fragment)
    (rooted : draft.catalog.IsRooted owner.document.key)
    (h : inlineDocument owner path fragment draft = some (document, after)) :
    kept after.catalog := by
  obtain ⟨-, rfl⟩ := insert_inv (inlineDocument_inv h)
  obtain ⟨source, schema, htop, hloaded, hstems⟩ := reads
  have hsource : draft.catalog.HasLoaded
      (draft.catalog.contextTop?.getD owner.document.source) schema := by
    rw [htop]
    exact hloaded
  refine lasting.insert hkept hsource (hstems.retitled _) ?_ ?_
  · rw [String.append_assoc]
    exact rooted.append _
  · simp

theorem Types.lasts {owner : Owner} {path : String} {fragment : Json} {usage : Usage}
    {type : Option Descriptor} (h : Types owner path fragment usage draft type after)
    (lasting : Catalog.Lasting kept) (rooted : draft.catalog.IsRooted owner.document.key)
    (hkept : kept draft.catalog) (reads : draft.catalog.Reads fragment) : kept after.catalog := by
  induction h with
  | empty | anyItems | scalar | anyValues => exact hkept
  | enumeration _ htype =>
    obtain ⟨type, -, rfl⟩ | ⟨fault, -, rfl⟩ := enumerationType_inv htype
    · exact hkept
    · exact lasting.tell _ hkept
  | array hshape _ ih =>
    exact ih rooted hkept (reads.further (PropertyShape.array_inv hshape) (by decide) .self)
  | inlineObject _ hdocument hid =>
    have hinline := inlineDocument_lasts lasting hkept reads rooted hdocument
    exact hid.lasts lasting hinline (insert_knows (inlineDocument_inv hdocument))
  | dictionary hshape _ _ ih =>
    exact ih rooted hkept (reads.further (PropertyShape.dictionary_inv hshape) (by decide) .self)
  | missing _ hload => exact lasting.tell _ (load_lasts lasting hkept hload)
  | index _ hload | json _ hload => exact load_lasts lasting hkept hload
  | reference _ hleads _ hid =>
    exact hid.lasts lasting (load_lasts lasting hkept hleads.loads) (load_knows hleads.loads)
  | circular _ hleads => exact lasting.tell _ (load_lasts lasting hkept hleads.loads)
  | followed _ hleads _ _ _ ih =>
    have hloaded := load_lasts lasting hkept hleads.loads
    have hrooted := rooted.mono (load_grows hleads.loads).catalog
    exact lasting.leave (ih hrooted (lasting.enter _ hloaded)
      ((lasting.sourced hloaded).reads_enter (load_knows hleads.loads)))
  | composite hshape _ ih =>
    exact ih rooted hkept (reads.onlyBase? (PropertyShape.composite_inv hshape))
  | unsupported => exact lasting.tell _ hkept

theorem Names.lasts {document : Document} {entry entries : Json} {id : Option ClassId}
    (h : Names document entry draft id after) (lasting : Catalog.Lasting kept)
    (hkept : kept draft.catalog) (known : draft.catalog.Knows document)
    (hentries : document.body.get? "allOf" = some entries)
    (hentry : entry.Occurs entries) : kept after.catalog := by
  cases h with
  | missing _ hload => exact load_lasts lasting hkept hload
  | reference _ hload hid =>
    exact hid.lasts lasting (load_lasts lasting hkept hload) (load_knows hload)
  | written hlink hinsert hid =>
    obtain rfl := Link.entry_inv hlink
    have hfirst := firstEntry_lasts lasting hkept known hentries hentry hinsert
    exact hid.lasts lasting hfirst (insert_knows hinsert)

theorem Derives.lasts {owner : Owner} {id : Option ClassId} (h : Derives owner draft id after)
    (lasting : Catalog.Lasting kept) (hkept : kept draft.catalog)
    (known : draft.catalog.Knows owner.document) : kept after.catalog := by
  cases h with
  | root => exact hkept
  | only hentries hnames =>
    obtain ⟨entries, hget, hentry⟩ := Json.array?_inv hentries List.mem_cons_self
    exact hnames.lasts lasting hkept known hget hentry
  | first hentries hnames =>
    obtain ⟨entries, hget, hentry⟩ := Json.array?_inv hentries List.mem_cons_self
    exact hnames.lasts lasting (lasting.tell _ hkept) known hget hentry

theorem Members.lasts {owner : Owner} {declared : List (String × Json)}
    {members : List Property} (h : Members owner declared draft members after)
    (lasting : Catalog.Lasting kept) (rooted : draft.catalog.IsRooted owner.document.key)
    (hkept : kept draft.catalog) (reads : ∀ entry ∈ declared, draft.catalog.Reads entry.2) :
    kept after.catalog := by
  induction h with
  | nil => exact hkept
  | implied _ _ ih => exact ih rooted hkept fun entry h => reads entry (List.mem_cons_of_mem _ h)
  | stub _ htype _ ih | member _ htype _ ih =>
    have hfragment := reads _ List.mem_cons_self
    refine ih (rooted.mono htype.grows.catalog) (htype.lasts lasting rooted hkept hfragment)
      fun entry h => ?_
    exact (reads entry (List.mem_cons_of_mem _ h)).mono htype.grows.catalog

theorem reads_properties {document : Document} (reads : draft.catalog.Reads document.body) :
    ∀ entry ∈ document.properties, draft.catalog.Reads entry.2 := by
  rintro ⟨name, fragment⟩ hentry
  obtain ⟨object, hget, hpart⟩ := Document.properties_inv hentry
  exact reads.further hget (by decide) hpart

theorem Bodies.lasts {owner : Owner} {body : DraftBody} (h : Bodies owner draft body after)
    (lasting : Catalog.Lasting kept) (known : draft.catalog.Knows owner.document)
    (hkept : kept draft.catalog) (reads : draft.catalog.Reads owner.document.body) :
    kept after.catalog := by
  obtain ⟨schema, comes⟩ := lasting.sourced hkept owner.document known
  cases h with
  | object _ hbase hmembers =>
    have hderived := hbase.lasts lasting hkept known
    refine hmembers.lasts lasting (comes.rooted.mono hbase.grows.catalog) hderived
      fun entry hentry => ?_
    exact (reads_properties reads entry hentry).mono hbase.grows.catalog
  | constants _ hbody =>
    obtain ⟨-, rfl | ⟨warning, rfl⟩⟩ := enumerationBody_inv hbody
    · exact hkept
    · exact lasting.tell _ hkept
  | value _ htype | untyped _ htype => exact htype.lasts lasting comes.rooted hkept reads
  | unsupported => exact lasting.tell _ hkept

/-- What lasts in a catalog lasts through every step, when all documents are found. -/
theorem Step.lasts {policy : Policy} (h : Step policy draft after)
    (lasting : Catalog.Lasting kept) (strict : ¬policy.strangers) (documented : draft.Documented)
    (hkept : kept draft.catalog) : kept after.catalog := by
  cases h with
  | find hmoves => exact lasting.moves strict hkept hmoves
  | enter document => exact lasting.enter document hkept
  | leave => exact lasting.leave hkept
  | name | nowhere | resolved => exact hkept
  | intern known hid => exact hid.lasts lasting hkept (known.resolve_left strict)
  | drafted hpending hplace hclass =>
    have known := documented _ (List.mem_of_getElem? hplace)
    obtain ⟨hbody⟩ := hclass
    exact lasting.leave (hbody.lasts lasting known (lasting.enter _ hkept)
      ((lasting.sourced hkept).reads_enter known))

theorem Steps.lasts {policy : Policy} (h : Steps policy draft after)
    (lasting : Catalog.Lasting kept) (strict : ¬policy.strangers) (documented : draft.Documented)
    (hkept : kept draft.catalog) : kept after.catalog := by
  induction h with
  | refl => exact hkept
  | tail hsteps step ih =>
    exact step.lasts lasting strict (Steps.documented hsteps strict documented) ih

theorem Steps.sourced {policy : Policy} (h : Steps policy draft after) (strict : ¬policy.strangers)
    (documented : draft.Documented) (sourced : draft.catalog.Sourced) : after.catalog.Sourced :=
  h.lasts Catalog.sourced_lasting strict documented sourced

end Drafting

end SchemaClasses
