import SchemaClasses.Proofs.Catalog.Growth
import SchemaClasses.Proofs.Drafting.ClassDerivation

/-!
# Growth of a draft

Whatever is drafted of one class, the draft around it only grows: its catalog learns documents, and
new places are added at the end, empty and pending, each for a document that stands for itself under
a key that no other place has. The context and the schemas being followed are left as they were
found. This is stated once, as a relation that every derivation implies.
-/

namespace SchemaClasses

namespace Draft

def keys (draft : Draft) : List String := draft.places.map (·.document.key)

/-- The place of a class is that of a document with a given key. -/
def Holds (draft : Draft) (id : ClassId) (key : String) : Prop :=
  (draft.places[id]?).map (·.document.key) = some key

variable {draft : Draft}

theorem Holds.lt {id : ClassId} {key : String} (h : draft.Holds id key) :
    id < draft.places.length := by
  obtain ⟨place, hplace, -⟩ := Option.map_eq_some_iff.mp h
  exact (List.getElem?_eq_some_iff.mp hplace).choose

theorem has_of_lt {id : ClassId} (h : id < draft.places.length) : ∃ key, draft.Holds id key :=
  ⟨draft.places[id].document.key, by simp [Holds, h]⟩

theorem holds_of_getElem? {id : ClassId} {place : Place} (h : draft.places[id]? = some place) :
    draft.Holds id place.document.key := by
  rw [Holds, h, Option.map_some]

theorem holds_of_mem {place : Place} (h : place ∈ draft.places) :
    ∃ id, draft.Holds id place.document.key := by
  obtain ⟨id, hid⟩ := List.mem_iff_getElem?.mp h
  exact ⟨id, holds_of_getElem? hid⟩

theorem holds_of_idOf? {key : String} {id : ClassId} (h : draft.idOf? key = some id) :
    draft.Holds id key := by
  obtain ⟨hlt, hkey, -⟩ := List.findIdx?_eq_some_iff_getElem.mp h
  simpa [Holds, hlt] using hkey

theorem not_mem_keys {key : String} (h : draft.idOf? key = none) : key ∉ draft.keys := by
  intro hmem
  obtain ⟨place, hplace, rfl⟩ := List.mem_map.mp hmem
  have := List.findIdx?_eq_none_iff.mp h place hplace
  simp at this

/-- With distinct keys, the class of a key is the one place that holds it. -/
theorem idOf?_eq_some_iff (distinct : draft.keys.Nodup) {key : String} {id : ClassId} :
    draft.idOf? key = some id ↔ draft.Holds id key := by
  refine ⟨holds_of_idOf?, fun h => ?_⟩
  obtain ⟨place, hplace, rfl⟩ := Option.map_eq_some_iff.mp h
  obtain ⟨hlt, rfl⟩ := List.getElem?_eq_some_iff.mp hplace
  refine List.findIdx?_eq_some_iff_getElem.mpr ⟨hlt, by simp, ?_⟩
  intro earlier hearlier
  have hne := List.pairwise_iff_getElem.mp distinct earlier id (by simp [keys]; omega)
    (by simpa [keys]) hearlier
  simpa [keys] using hne

/-- A draft in which more has been found than in the other, while one class is drafted. -/
structure Grows (before after : Draft) : Prop where
  catalog : before.catalog.Grows after.catalog
  settings : after.settings = before.settings
  naming : after.naming = before.naming
  following : after.following = before.following
  resolved : after.resolved = before.resolved
  extensionNames : after.extensionNames = before.extensionNames
  places : ∃ added : List Document,
    after.places = before.places ++ added.map (⟨·, none⟩) ∧
    after.pending =
      (List.range' before.places.length added.length).reverse ++ before.pending ∧
    ∀ document ∈ added, document.link? = none
  keys : before.keys.Nodup → after.keys.Nodup

namespace Grows

theorem refl (draft : Draft) : Grows draft draft :=
  ⟨.refl _, rfl, rfl, rfl, rfl, rfl, ⟨[], by simp⟩, id⟩

theorem trans {before between after : Draft} (h : Grows before between)
    (k : Grows between after) : Grows before after := by
  refine ⟨h.catalog.trans k.catalog, k.settings.trans h.settings, k.naming.trans h.naming,
    k.following.trans h.following, k.resolved.trans h.resolved,
    k.extensionNames.trans h.extensionNames, ?_, k.keys ∘ h.keys⟩
  obtain ⟨first, hplaces, hpending, hown⟩ := h.places
  obtain ⟨second, kplaces, kpending, kown⟩ := k.places
  refine ⟨first ++ second, ?_, ?_, ?_⟩
  · rw [kplaces, hplaces, List.map_append, List.append_assoc]
  · have hlength : between.places.length = before.places.length + 1 * first.length := by
      simp [hplaces]
    rw [kpending, hpending, hlength, List.length_append, ← List.range'_append,
      List.reverse_append, List.append_assoc]
  · intro document hdocument
    rcases List.mem_append.mp hdocument with hdocument | hdocument
    · exact hown document hdocument
    · exact kown document hdocument

theorem of_catalog {catalog : Catalog} (h : draft.catalog.Grows catalog) :
    draft.Grows { draft with catalog := catalog } :=
  ⟨h, rfl, rfl, rfl, rfl, rfl, ⟨[], by simp⟩, id⟩

theorem warn (draft : Draft) (warning : Warning) :
    draft.Grows { draft with catalog := draft.catalog.warn warning } :=
  of_catalog (draft.catalog.warn_grows warning)

theorem leave {document : Document} {inner : Draft}
    (h : Grows { draft with catalog := draft.catalog.enter document } inner) :
    draft.Grows { inner with catalog := inner.catalog.leave } :=
  ⟨Catalog.leave_grows h.catalog, h.settings, h.naming, h.following, h.resolved,
    h.extensionNames, h.places, h.keys⟩

theorem stopFollowing {key : String} {inner : Draft}
    (h : Grows { draft with following := key :: draft.following } inner) :
    draft.Grows { inner with following := inner.following.tail } :=
  ⟨h.catalog, h.settings, h.naming, by rw [h.following]; rfl, h.resolved, h.extensionNames,
    h.places, h.keys⟩

theorem length_le {before after : Draft} (h : Grows before after) :
    before.places.length ≤ after.places.length := by
  obtain ⟨added, hplaces, -⟩ := h.places
  simp [hplaces]

theorem getElem? {before after : Draft} (h : Grows before after) {id : ClassId} {place : Place}
    (hplace : before.places[id]? = some place) : after.places[id]? = some place := by
  obtain ⟨added, hplaces, -⟩ := h.places
  rw [hplaces, List.getElem?_append_left (List.getElem?_eq_some_iff.mp hplace).choose]
  exact hplace

theorem holds {before after : Draft} (h : Grows before after) {id : ClassId} {key : String}
    (holds : before.Holds id key) : after.Holds id key := by
  obtain ⟨place, hplace, hkey⟩ := Option.map_eq_some_iff.mp holds
  rw [Holds, h.getElem? hplace]
  exact congrArg some hkey

end Grows

/-- A draft whose catalog has grown, and that is otherwise the same. -/
def Learns (before after : Draft) : Prop :=
  ∃ catalog, before.catalog.Grows catalog ∧ after = { before with catalog := catalog }

namespace Learns

theorem refl (draft : Draft) : Learns draft draft := ⟨draft.catalog, .refl _, rfl⟩

theorem trans {before between after : Draft} (h : Learns before between)
    (k : Learns between after) : Learns before after := by
  obtain ⟨first, hgrows, rfl⟩ := h
  obtain ⟨second, kgrows, rfl⟩ := k
  exact ⟨second, hgrows.trans kgrows, rfl⟩

theorem warn (draft : Draft) (warning : Warning) :
    draft.Learns { draft with catalog := draft.catalog.warn warning } :=
  ⟨_, draft.catalog.warn_grows warning, rfl⟩

theorem grows {before after : Draft} (h : Learns before after) : before.Grows after := by
  obtain ⟨catalog, hgrows, rfl⟩ := h
  exact .of_catalog hgrows

end Learns

/-- What one draft knows and holds, the other knows and holds as well, in the same namespaces. -/
structure Within (before after : Draft) : Prop where
  naming : after.naming = before.naming
  knows : ∀ {document}, before.catalog.Knows document → after.catalog.Knows document
  holds : ∀ {id key}, before.Holds id key → after.Holds id key

namespace Within

theorem refl (draft : Draft) : Within draft draft := ⟨rfl, id, id⟩

theorem trans {before between after : Draft} (h : Within before between)
    (k : Within between after) : Within before after :=
  ⟨k.naming.trans h.naming, k.knows ∘ h.knows, k.holds ∘ h.holds⟩

theorem leave (inner : Draft) (following : List String) :
    inner.Within { inner with following := following, catalog := inner.catalog.leave } :=
  ⟨rfl, id, id⟩

end Within

theorem Grows.within {before after : Draft} (h : Grows before after) : before.Within after :=
  ⟨h.naming, fun known => known.mono h.catalog, h.holds⟩

theorem append_grows {own : Document} (new : draft.idOf? own.key = none)
    (hlink : own.link? = none) : draft.Grows (draft.append own) := by
  refine ⟨.refl _, rfl, rfl, rfl, rfl, rfl, ⟨[own], rfl, rfl, by simpa using hlink⟩, ?_⟩
  intro distinct
  have hkeys : (draft.append own).keys = draft.keys ++ [own.key] := by simp [keys, append]
  rw [hkeys, List.nodup_append]
  refine ⟨distinct, by simp, ?_⟩
  rintro key hkey _ hown rfl
  exact not_mem_keys new (List.mem_singleton.mp hown ▸ hkey)

theorem append_holds (draft : Draft) (own : Document) :
    (draft.append own).Holds draft.places.length own.key := by
  simp [Holds, append]

theorem keys_fill (draft : Draft) (id : ClassId) (drafted : DraftClass) :
    (draft.fill id drafted).keys = draft.keys := by
  refine List.ext_getElem? fun other => ?_
  rw [keys, keys, List.getElem?_map, List.getElem?_map, fill, List.getElem?_modify]
  cases draft.places[other]? with
  | none => rfl
  | some place => by_cases heq : id = other <;> simp [heq]

theorem fill_within (draft : Draft) (id : ClassId) (drafted : DraftClass) :
    draft.Within (draft.fill id drafted) := by
  refine ⟨rfl, fun known => known, fun {other key} holds => ?_⟩
  have hat := congrArg (·[other]?) (draft.keys_fill id drafted)
  simp only [keys, List.getElem?_map] at hat
  rwa [Holds, hat]

end Draft

namespace Drafting

variable {draft after : Draft}

theorem load_learns {reference : String} {found : Option Document}
    (h : load reference draft = some (found, after)) : draft.Learns after := by
  obtain ⟨rfl, rfl⟩ := load_inv h
  exact ⟨_, (draft.catalog.load_finds reference).grows, rfl⟩

theorem load_grows {reference : String} {found : Option Document}
    (h : load reference draft = some (found, after)) : draft.Grows after :=
  (load_learns h).grows

theorem load_knows {reference : String} {document : Document}
    (h : load reference draft = some (some document, after)) : after.catalog.Knows document := by
  obtain ⟨hfound, rfl⟩ := load_inv h
  exact (draft.catalog.load_finds reference).knows document hfound.symm

theorem insert_learns {document known : Document}
    (h : insert document draft = some (known, after)) : draft.Learns after := by
  obtain ⟨rfl, rfl⟩ := insert_inv h
  exact ⟨_, (draft.catalog.insert_finds document).grows, rfl⟩

theorem insert_grows {document known : Document}
    (h : insert document draft = some (known, after)) : draft.Grows after :=
  (insert_learns h).grows

theorem insert_knows {document known : Document}
    (h : insert document draft = some (known, after)) : after.catalog.Knows known := by
  obtain ⟨rfl, rfl⟩ := insert_inv h
  exact (draft.catalog.insert_finds document).knows _ rfl

theorem target_learns {document : Document} {link : Link} {found : Option Document}
    (h : target document link draft = some (found, after)) : draft.Learns after := by
  cases link with
  | reference reference =>
    obtain ⟨inner, hload, rfl⟩ := inContext_inv h
    obtain ⟨catalog, hgrows, rfl⟩ := load_learns hload
    exact ⟨catalog.leave, Catalog.leave_grows hgrows, rfl⟩
  | entry body =>
    obtain ⟨known, between, hinsert, h⟩ := bind_inv h
    obtain ⟨rfl, rfl⟩ := pure_inv h
    exact insert_learns hinsert

theorem target_knows {document next : Document} {link : Link}
    (h : target document link draft = some (some next, after)) : after.catalog.Knows next := by
  cases link with
  | reference reference =>
    obtain ⟨inner, hload, rfl⟩ := inContext_inv h
    have known := load_knows hload
    exact known
  | entry body =>
    obtain ⟨known, between, hinsert, h⟩ := bind_inv h
    obtain ⟨heq, rfl⟩ := pure_inv h
    obtain rfl := Option.some.inj heq
    exact insert_knows hinsert

namespace Unaliases

variable {seen : List String} {document own : Document}

theorem learns {found : Option Document} (h : Unaliases seen document draft found after) :
    draft.Learns after := by
  induction h with
  | circle => exact .warn _ _
  | itself => exact .refl _
  | lost _ _ htarget => exact target_learns htarget
  | next _ _ htarget _ ih => exact (target_learns htarget).trans ih

theorem grows {found : Option Document} (h : Unaliases seen document draft found after) :
    draft.Grows after :=
  h.learns.grows

theorem link? (h : Unaliases seen document draft (some own) after) : own.link? = none := by
  generalize hfound : some own = found at h
  induction h with
  | circle => cases hfound
  | itself _ hlink =>
    obtain rfl := Option.some.inj hfound
    exact hlink
  | lost => cases hfound
  | next _ _ _ _ ih => exact ih hfound

theorem knows (h : Unaliases seen document draft (some own) after)
    (known : draft.catalog.Knows document) : after.catalog.Knows own := by
  generalize hfound : some own = found at h
  induction h with
  | circle => cases hfound
  | itself =>
    obtain rfl := Option.some.inj hfound
    exact known
  | lost => cases hfound
  | next _ _ htarget _ ih => exact ih (target_knows htarget) hfound

theorem eq_self (h : Unaliases seen document draft (some own) after)
    (hlink : document.link? = none) : own = document := by
  cases h with
  | itself => rfl
  | next _ hsome => simp [hlink] at hsome

end Unaliases

theorem Interns.holds {document : Document} {id : ClassId}
    (h : Interns document draft (some id) after) :
    ∃ own between, Unaliases [] document draft (some own) between ∧
      after.catalog = between.catalog ∧ after.Holds id own.key := by
  cases h with
  | known hown hid => exact ⟨_, _, hown, rfl, Draft.holds_of_idOf? hid⟩
  | added hown new => exact ⟨_, _, hown, rfl, Draft.append_holds _ _⟩

theorem Interns.grows {document : Document} {id : Option ClassId}
    (h : Interns document draft id after) : draft.Grows after := by
  cases h with
  | lost hown => exact hown.grows
  | known hown hid => exact hown.grows
  | added hown new => exact hown.grows.trans (Draft.append_grows new hown.link?)

theorem Interns.learns {document : Document} (h : Interns document draft none after) :
    draft.Learns after := by
  cases h with
  | lost hown => exact hown.learns

theorem inlineDocument_inv {owner : Owner} {path : String} {fragment : Json}
    {document : Document} (h : inlineDocument owner path fragment draft = some (document, after)) :
    insert {
      key := owner.document.key ++ "#inline/" ++ path
      source := draft.catalog.contextTop?.getD owner.document.source
      body := fragment.titled (Naming.inlineTitle owner.typeName path) } draft =
        some (document, after) := h

theorem Types.grows {owner : Owner} {path : String} {fragment : Json} {usage : Usage}
    {type : Option Descriptor} (h : Types owner path fragment usage draft type after) :
    draft.Grows after := by
  induction h with
  | empty => exact .refl _
  | enumeration _ htype =>
    obtain ⟨type, -, rfl⟩ | ⟨fault, -, rfl⟩ := enumerationType_inv htype
    · exact .refl _
    · exact .warn _ _
  | anyItems => exact .refl _
  | array _ _ ih => exact ih
  | scalar => exact .refl _
  | inlineObject _ hdocument hid =>
    exact (insert_grows (inlineDocument_inv hdocument)).trans hid.grows
  | anyValues => exact .refl _
  | dictionary _ _ _ ih => exact ih
  | missing _ hload => exact (load_grows hload).trans (.warn _ _)
  | index _ hload _ => exact load_grows hload
  | json _ hload _ => exact load_grows hload
  | reference _ hleads _ hid => exact (load_grows hleads.loads).trans hid.grows
  | circular _ hleads _ _ => exact (load_grows hleads.loads).trans (.warn _ _)
  | followed _ hleads _ _ _ ih =>
    exact (load_grows hleads.loads).trans (.stopFollowing (.leave ih))
  | composite _ _ ih => exact ih
  | unsupported => exact .warn _ _

theorem Names.grows {document : Document} {entry : Json} {id : Option ClassId}
    (h : Names document entry draft id after) : draft.Grows after := by
  cases h with
  | missing _ hload => exact load_grows hload
  | reference _ hload hid => exact (load_grows hload).trans hid.grows
  | written _ hinsert hid => exact (insert_grows hinsert).trans hid.grows

theorem Derives.grows {owner : Owner} {id : Option ClassId}
    (h : Derives owner draft id after) : draft.Grows after := by
  cases h with
  | root => exact .refl _
  | only _ hnames => exact hnames.grows
  | first _ hnames => exact (Draft.Grows.warn _ _).trans hnames.grows

theorem Members.grows {owner : Owner} {declared : List (String × Json)}
    {members : List Property} (h : Members owner declared draft members after) :
    draft.Grows after := by
  induction h with
  | nil => exact .refl _
  | implied _ _ ih => exact ih
  | stub _ htype _ ih => exact htype.grows.trans ih
  | member _ htype _ ih => exact htype.grows.trans ih

theorem Bodies.grows {owner : Owner} {body : DraftBody} (h : Bodies owner draft body after) :
    draft.Grows after := by
  cases h with
  | object _ hbase hmembers => exact hbase.grows.trans hmembers.grows
  | constants _ hbody =>
    obtain ⟨-, rfl | ⟨warning, rfl⟩⟩ := enumerationBody_inv hbody
    · exact .refl _
    · exact .warn _ _
  | value _ htype => exact htype.grows
  | untyped _ htype => exact htype.grows
  | unsupported => exact .warn _ _

theorem Classes.grows {document : Document} {drafted : DraftClass}
    (h : Classes document draft drafted after) : draft.Grows after := by
  cases h with
  | intro hbody => exact hbody.grows

end Drafting

end SchemaClasses
