import SchemaClasses.Proofs.ClassTable.Ancestors
import SchemaClasses.Proofs.Drafting.Complete

/-!
# The calls behind a table

Classes are drafted in one place only, and nothing else touches a class that is drafted. So every
class of a table is what drafting its document gave at some time, and every member of an object is
what finding the type of a declared fragment gave. Derivations forget which calls they come from;
here the calls themselves are kept.
-/

namespace SchemaClasses

namespace Drafting

variable {draft after : Draft} {depth : Nat}

/-- At some time, drafting a document gave a class. -/
def Built (document : Document) (drafted : DraftClass) : Prop :=
  ∃ depth start stop, classOf depth document start = some (drafted, stop)

end Drafting

namespace Draft

open Drafting

/-- Every class that is drafted was built from the document of its place. -/
def AllBuilt (draft : Draft) : Prop :=
  ∀ place ∈ draft.places, ∀ drafted, place.drafted = some drafted → Built place.document drafted

variable {draft after : Draft}

theorem new_allBuilt (catalog : Catalog) (settings : Settings) (naming : Naming) :
    (new catalog settings naming).AllBuilt := by
  simp [AllBuilt, new]

theorem AllBuilt.of_places (h : draft.AllBuilt) (hplaces : after.places = draft.places) :
    after.AllBuilt := by
  rwa [AllBuilt, hplaces]

theorem AllBuilt.grows (h : draft.AllBuilt) (grows : draft.Grows after) : after.AllBuilt := by
  obtain ⟨added, hplaces, -⟩ := grows.places
  intro place hplace drafted hdrafted
  rw [hplaces] at hplace
  rcases List.mem_append.mp hplace with hplace | hplace
  · exact h place hplace drafted hdrafted
  · obtain ⟨document, -, rfl⟩ := List.mem_map.mp hplace
    cases hdrafted

end Draft

namespace Drafting

variable {draft after : Draft} {depth : Nat}

theorem Looks.allBuilt {strangers : Prop} (h : Looks strangers draft after)
    (built : draft.AllBuilt) : after.AllBuilt := by
  obtain ⟨catalog, -, rfl⟩ := h
  exact built.of_places rfl

/-- What drafting a class gives is put at the place of its document. -/
theorem draftAt_allBuilt {id : ClassId} {u : Unit} (h : draftAt depth id draft = some (u, after))
    (built : draft.AllBuilt) : after.AllBuilt := by
  obtain ⟨-, rfl⟩ | ⟨place, drafted, inner, hplace, hclass, rfl⟩ := draftAt_inv h
  · exact built
  · have grows := (classOf_classes hclass).grows
    have hentered : Draft.AllBuilt
        { draft with catalog := draft.catalog.enter place.document } := built.of_places rfl
    have hinner : inner.AllBuilt := hentered.grows grows
    have hin : inner.places[id]? = some place := grows.getElem? hplace
    intro other hother found hfound
    obtain hother | rfl := Draft.mem_fill hin hother
    · exact hinner other hother found hfound
    · obtain rfl := Option.some.inj hfound
      exact ⟨depth, _, inner, hclass⟩

theorem drain_allBuilt {u : Unit} (h : drain depth draft = some (u, after))
    (built : draft.AllBuilt) : after.AllBuilt := by
  induction depth generalizing draft with
  | zero => cases h
  | succ depth ih =>
    obtain ⟨-, rfl⟩ | ⟨id, rest, between, -, hdrafted, h⟩ := drain_inv h
    · exact built
    · exact ih h (draftAt_allBuilt hdrafted (built.of_places rfl))

theorem resolve_allBuilt {reference : String} {found : Option ClassId}
    (h : resolve depth reference draft = some (found, after)) (built : draft.AllBuilt) :
    after.AllBuilt := by
  cases resolve_resolves h with
  | known => exact built
  | missing _ hload => exact built.grows (load_grows hload)
  | lost _ hload hid => exact (built.grows (load_grows hload)).grows hid.grows
  | drained _ hload hid hdrain =>
    have hdrained := drain_allBuilt hdrain ((built.grows (load_grows hload)).grows hid.grows)
    exact hdrained.of_places rfl

theorem resolveExtension_allBuilt {document : Document} {names : ExtensionNames}
    {found : Option ClassId}
    (h : resolveExtension depth document names draft = some (found, after))
    (built : draft.AllBuilt) : after.AllBuilt := by
  obtain ⟨interned, hid, hlast⟩ := resolveExtension_inv h
  have hnamed : Draft.AllBuilt
      { draft with
        extensionNames := Ordered.put draft.extensionNames document.key names } :=
    built.of_places rfl
  have hinterned : interned.AllBuilt := hnamed.grows hid.grows
  obtain ⟨-, rfl⟩ | ⟨id, -, hdrain⟩ := hlast
  · exact hinterned
  · exact drain_allBuilt hdrain hinterned

theorem loadExtension_allBuilt {reference : String} {hint : Option String}
    {found : Option Document}
    (h : onCatalog (·.loadExtension reference hint) draft = some (found, after))
    (built : draft.AllBuilt) : after.AllBuilt := by
  obtain ⟨-, rfl⟩ := onCatalog_inv h
  exact built.of_places rfl

theorem graftOne_allBuilt {grafted result : Grafted} {e : ExtensionSettings}
    (h : graftOne depth grafted e draft = some (result, after)) (built : draft.AllBuilt) :
    after.AllBuilt := by
  cases graftOne_grafts h with
  | missing hload => exact (loadExtension_allBuilt hload built).of_places rfl
  | unresolved hload hresolve =>
    exact (resolveExtension_allBuilt hresolve (loadExtension_allBuilt hload built)).of_places rfl
  | unnamed hload hresolve =>
    exact resolveExtension_allBuilt hresolve (loadExtension_allBuilt hload built)
  | attached hload hresolve _ hattach =>
    have hlooks : Looks True _ after := attachAll_looks hattach
    exact hlooks.allBuilt (resolveExtension_allBuilt hresolve (loadExtension_allBuilt hload built))

theorem graft_allBuilt {extensions : List ExtensionSettings} {grafted result : Grafted}
    (h : extensions.foldlM (graftOne depth) grafted draft = some (result, after))
    (built : draft.AllBuilt) : after.AllBuilt := by
  induction extensions generalizing grafted draft with
  | nil =>
    obtain ⟨-, rfl⟩ := pure_inv h
    exact built
  | cons e extensions ih =>
    rw [List.foldlM_cons] at h
    obtain ⟨between, middle, hfirst, h⟩ := bind_inv h
    exact ih h (graftOne_allBuilt hfirst built)

/-- Calls build the classes that they draft. -/
theorem Called.allBuilt {first : Draft} {ids : List ClassId} (h : Called first ids draft)
    (built : first.AllBuilt) : draft.AllBuilt := by
  induction h with
  | none => exact built
  | resolve _ hcall ih => exact resolve_allBuilt hcall ih
  | resolveExtension _ hcall ih => exact resolveExtension_allBuilt hcall ih
  | graft _ hcall ih => exact graft_allBuilt hcall ih
  | load _ hload ih => exact ih.grows (load_grows hload)
  | loadExtension _ hload ih => exact loadExtension_allBuilt hload ih
  | insert _ hinsert ih => exact ih.grows (insert_grows hinsert)
  | enter | leave => exact Draft.AllBuilt.of_places ‹_› rfl

/-! ### Members -/

/-- A member has the type that was found for a declared fragment. -/
def FoundFor (owner : Owner) (declared : List (String × Json)) (p : Property) : Prop :=
  ∃ fragment depth start stop, (p.name, fragment) ∈ declared ∧
    p.isRequired = owner.document.requires p.name ∧
    propertyType depth owner p.name fragment p.isRequired start = some (some p.type, stop)

theorem FoundFor.cons {owner : Owner} {declared : List (String × Json)} {p : Property}
    (h : FoundFor owner declared p) (entry : String × Json) :
    FoundFor owner (entry :: declared) p := by
  obtain ⟨fragment, depth, start, stop, hmem, hfound⟩ := h
  exact ⟨fragment, depth, start, stop, List.mem_cons_of_mem entry hmem, hfound⟩

theorem propertiesOf_found {owner : Owner} {declared : List (String × Json)}
    {members : List Property}
    (h : propertiesOf depth owner declared draft = some (members, after)) :
    ∀ p ∈ members, FoundFor owner declared p := by
  induction declared generalizing draft members with
  | nil =>
    obtain ⟨rfl, -⟩ := pure_inv h
    exact fun _ hp => nomatch hp
  | cons entry rest ih =>
    obtain ⟨name, fragment⟩ := entry
    rw [propertiesOf] at h
    split at h
    · exact fun p hp => (ih h p hp).cons _
    · obtain ⟨type, between, htype, h⟩ := bind_inv h
      cases type with
      | none => exact fun p hp => (ih h p hp).cons _
      | some type =>
        obtain ⟨others, last, hrest, h⟩ := bind_inv h
        obtain ⟨rfl, rfl⟩ := pure_inv h
        intro p hp
        rcases List.mem_cons.mp hp with rfl | hp
        · exact ⟨fragment, depth, draft, between, List.mem_cons_self, rfl, htype⟩
        · exact (ih hrest p hp).cons _

/-- Only the schema of an object turns into one. -/
theorem bodyOf_object {owner : Owner} {base : Option ClassId} {declared : List String}
    {members : List Property}
    (h : bodyOf depth owner draft = some (.object base declared members, after)) :
    objectBody depth owner draft = some (.object base declared members, after) := by
  have hconstants {listsItems : Bool}
      (h : enumerationBody owner listsItems draft = some (.object base declared members, after)) :
      False := by
    obtain ⟨⟨e, heq⟩ | heq, -⟩ := enumerationBody_inv h <;> cases heq
  have hvalue (h : valueBody depth owner draft = some (.object base declared members, after)) :
      False := by
    obtain ⟨type, -, heq⟩ := valueBody_inv h
    cases type <;> cases heq
  have hunsupported {warning : Warning}
      (h : unsupportedBody warning draft = some (.object base declared members, after)) :
      False := by
    cases (warn_pure_inv h).1
  unfold bodyOf at h
  cases hshape : SchemaShape.of owner.document.body <;> simp only [hshape] at h
  case object => exact h
  case anyOf | enumeration =>
    split at h
    · exact (hconstants h).elim
    · exact (hunsupported h).elim
  case scalar | array => exact (hvalue h).elim
  all_goals exact (hunsupported h).elim

/-- The members of an object that was built. -/
theorem Built.found {document : Document} {drafted : DraftClass} {base : Option ClassId}
    {declared : List String} {members : List Property} (h : Built document drafted)
    (hobject : drafted.body = .object base declared members) :
    ∀ p ∈ members, FoundFor ⟨document, drafted.typeName⟩ document.properties p := by
  obtain ⟨depth, start, stop, hclass⟩ := h
  unfold classOf at hclass
  rw [get_bind] at hclass
  obtain ⟨body, between, hbody, h⟩ := bind_inv hclass
  rw [get_bind] at h
  obtain ⟨rfl, rfl⟩ := pure_inv h
  obtain rfl : body = _ := hobject
  obtain ⟨_, based, -, h⟩ := bind_inv (bodyOf_object hbody)
  obtain ⟨others, last, hmembers, h⟩ := bind_inv h
  obtain ⟨heq, -⟩ := pure_inv h
  obtain ⟨-, -, rfl⟩ := DraftBody.object.inj heq
  exact propertiesOf_found hmembers

end Drafting

namespace Draft

variable {draft : Draft} {id : ClassId} {c : ClassDescriptor} {object : ObjectClass}

/-- A class of the table that is linked with nothing pending was built from the document of its
place. -/
theorem AllBuilt.class_inv (built : draft.AllBuilt) (orderly : draft.Orderly [])
    (hpending : draft.pending = []) (hc : draft.linking.table.get? id = some c) :
    ∃ place drafted, draft.places[id]? = some place ∧ place.document.key = c.source ∧
      Drafting.Built place.document drafted ∧ c = draft.linking.classOf id drafted := by
  obtain ⟨place, drafted, hplace, hdrafted, hclass, rfl⟩ := orderly.class_inv hpending hc
  have hmem := List.mem_of_getElem? hplace
  obtain ⟨filled, hfilled⟩ := (orderly.complete hpending).filled place hmem
  have heq : drafted = filled := by
    rw [linking, List.getElem?_map, hplace, Option.map_some, Place.finished, hfilled,
      Option.getD_some] at hdrafted
    exact (Option.some.inj hdrafted).symm
  exact ⟨place, drafted, hplace, hclass.source.symm, heq ▸ built place hmem filled hfilled, rfl⟩

theorem AllBuilt.found_properties (built : draft.AllBuilt) (orderly : draft.Orderly [])
    (hpending : draft.pending = []) (hc : draft.linking.table.get? id = some c)
    (hobject : c.object? = some object) :
    ∃ place, draft.places[id]? = some place ∧ place.document.key = c.source ∧
      ∀ p ∈ object.properties,
        Drafting.FoundFor ⟨place.document, c.typeName⟩ place.document.properties p := by
  obtain ⟨place, drafted, hplace, hkey, hbuilt, rfl⟩ := built.class_inv orderly hpending hc
  obtain ⟨base, declared, members, hbody, rfl⟩ := Linking.object?_classOf.mp hobject
  exact ⟨place, hplace, hkey, fun p hp => hbuilt.found hbody p (List.mem_of_mem_filter hp)⟩

end Draft

end SchemaClasses
