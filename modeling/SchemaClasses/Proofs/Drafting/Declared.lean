import SchemaClasses.Proofs.Catalog.Gains
import SchemaClasses.Proofs.Drafting.Extensions

/-!
# Where documents are made

Every document of a run was loaded, or it is the first entry of some `allOf`, or it is an object
that is declared further in at a fragment of a class, be it behind references that were followed
from there. Derivations only tell which documents they may make; which class an object is declared
in is settled when the place of that class is filled.
-/

namespace SchemaClasses

/-- An object is declared at a path, further in from a fragment at another: in the items of arrays,
in the values of dictionaries and in the only entry of an `allOf`, and in what references are
followed to. -/
inductive DeclaresAt (follows : String → Json → Prop) : String → Json → String → Json → Prop
  | self {path fragment} : PropertyShape.of fragment = .inlineObject →
      DeclaresAt follows path fragment path fragment
  | items {path fragment items inner object} : PropertyShape.of fragment = .array (some items) →
      DeclaresAt follows (path ++ ".items") items inner object →
      DeclaresAt follows path fragment inner object
  | values {path fragment values inner object} :
      PropertyShape.of fragment = .dictionary values → values.asBool? ≠ some true →
      DeclaresAt follows (path ++ ".additionalProperties") values inner object →
      DeclaresAt follows path fragment inner object
  | entry {path fragment entry inner object} : PropertyShape.of fragment = .composite entry →
      DeclaresAt follows path entry inner object → DeclaresAt follows path fragment inner object
  | followed {path fragment reference body inner object} :
      PropertyShape.of fragment = .reference reference → follows reference body →
      DeclaresAt follows path body inner object → DeclaresAt follows path fragment inner object

/-- An object is declared at a path of the fragment itself, and no reference is followed. -/
abbrev DeclaresHere : String → Json → String → Json → Prop := DeclaresAt fun _ _ => False

namespace DeclaresAt

variable {follows others : String → Json → Prop} {path inner other : String}
  {fragment object more : Json}

theorem mono (h : DeclaresAt follows path fragment inner object)
    (hfollows : ∀ {reference body}, follows reference body → others reference body) :
    DeclaresAt others path fragment inner object := by
  induction h with
  | self hshape => exact .self hshape
  | items hshape _ ih => exact .items hshape ih
  | values hshape hvalues _ ih => exact .values hshape hvalues ih
  | entry hshape _ ih => exact .entry hshape ih
  | followed hshape hbody _ ih => exact .followed hshape (hfollows hbody) ih

theorem inlineObject (h : DeclaresAt follows path fragment inner object) :
    PropertyShape.of object = .inlineObject := by
  induction h with
  | self hshape => exact hshape
  | items _ _ ih | values _ _ _ ih | entry _ _ ih | followed _ _ _ ih => exact ih

/-- A fragment that declares an object itself declares no other. -/
theorem unique (h : DeclaresHere path fragment inner object)
    (k : DeclaresAt follows path fragment other more) : other = inner ∧ more = object := by
  induction h with
  | self hshape =>
    cases k with
    | self => exact ⟨rfl, rfl⟩
    | items hother | values hother | entry hother | followed hother =>
      cases hshape.symm.trans hother
  | items hshape _ ih =>
    cases k with
    | items hother k =>
      obtain ⟨⟨⟩⟩ := PropertyShape.array.inj (hshape.symm.trans hother)
      exact ih k
    | self hother | values hother | entry hother | followed hother =>
      cases hshape.symm.trans hother
  | values hshape _ _ ih =>
    cases k with
    | values hother _ k =>
      obtain rfl := PropertyShape.dictionary.inj (hshape.symm.trans hother)
      exact ih k
    | self hother | items hother | entry hother | followed hother =>
      cases hshape.symm.trans hother
  | entry hshape _ ih =>
    cases k with
    | entry hother k =>
      obtain rfl := PropertyShape.composite.inj (hshape.symm.trans hother)
      exact ih k
    | self hother | items hother | values hother | followed hother =>
      cases hshape.symm.trans hother
  | followed _ hfollows => exact hfollows.elim

theorem hash_not_mem (h : DeclaresAt follows path fragment inner object)
    (hpath : '#' ∉ path.toList) : '#' ∉ inner.toList := by
  induction h with
  | self => exact hpath
  | items _ _ ih | values _ _ _ ih => exact ih (by simp [hpath])
  | entry _ _ ih | followed _ _ _ ih => exact ih hpath

theorem exists_steps (h : DeclaresAt follows path fragment inner object) :
    ∃ steps, inner.toList = path.toList ++ steps ∧ ∀ c ∈ steps.head?, c = '.' := by
  induction h with
  | self => exact ⟨[], (List.append_nil _).symm, nofun⟩
  | items _ _ ih | values _ _ _ ih =>
    obtain ⟨steps, heq, -⟩ := ih
    exact ⟨_, by rw [heq, String.toList_append, List.append_assoc], by simp⟩
  | entry _ _ ih | followed _ _ _ ih => exact ih

/-- A path tells the name of its property when that has no dot in it. -/
theorem takeWhile_eq (h : DeclaresAt follows path fragment inner object)
    (hpath : '.' ∉ path.toList) : inner.toList.takeWhile (· ≠ '.') = path.toList := by
  obtain ⟨steps, heq, hsteps⟩ := h.exists_steps
  rw [heq, List.takeWhile_append_of_pos fun c hc => by
    simpa using ne_of_mem_of_not_mem hc hpath]
  cases steps with
  | nil => exact List.append_nil _
  | cons c rest => simp [hsteps c rfl]

end DeclaresAt

/-- The document of an object that is declared at a path of an owner. -/
def Owner.declared (owner : Owner) (path : String) (object : Json) (source : String) :
    Document where
  key := owner.document.key ++ "#inline/" ++ path
  source := source
  body := object.titled (Naming.inlineTitle owner.typeName path)

/-- The fragments of an owner for which types are found, with their paths: its properties, or its
whole schema when that is no object. -/
def Owner.fragments (owner : Owner) : List (String × Json) :=
  match SchemaShape.of owner.document.body with
  | .object => owner.document.properties
  | _ => [(owner.typeName, owner.document.body)]

theorem Owner.fragments_of_object {owner : Owner}
    (h : SchemaShape.of owner.document.body = .object) :
    owner.fragments = owner.document.properties := by
  rw [fragments, h]

theorem Owner.fragments_of_ne_object {owner : Owner}
    (h : SchemaShape.of owner.document.body ≠ .object) :
    owner.fragments = [(owner.typeName, owner.document.body)] := by
  unfold fragments
  split
  · exact absurd ‹_› h
  · rfl

namespace Drafting

variable {draft after : Draft} {comes : Document → Prop} {owner : Owner}

theorem load_gains {reference : String} {found : Option Document}
    (h : load reference draft = some (found, after)) :
    draft.catalog.Gains comes after.catalog := by
  obtain ⟨-, rfl⟩ := load_inv h
  exact .load draft.catalog reference

theorem LeadsTo.follows {reference : String} {document : Document} {catalog : Catalog}
    (h : LeadsTo reference draft document after) (hclass : isClassLike document.body = false)
    (grows : after.catalog.Grows catalog) : catalog.Follows reference document.body := by
  have hload := (load_grows h.loads).catalog
  exact ⟨hclass, document, (load_knows h.loads).mono grows, rfl, draft.catalog,
    (grows.files.trans hload.files).symm, (grows.searchPaths.trans hload.searchPaths).symm,
    (load_inv h.loads).1.symm⟩

theorem insert_gains {document known : Document} (hcomes : comes document)
    (h : insert document draft = some (known, after)) :
    draft.catalog.Gains comes after.catalog := by
  obtain ⟨-, rfl⟩ := insert_inv h
  exact .insert draft.catalog hcomes

/-! ### What derivations make

In all of these, the first entries of `allOf` are among what comes from elsewhere. -/

section

variable (entries : ∀ (document : Document) (body : Json), comes (document.firstEntry body))

include entries

theorem target_gains {document : Document} {link : Link} {found : Option Document}
    (h : target document link draft = some (found, after)) :
    draft.catalog.Gains comes after.catalog := by
  cases link with
  | reference reference =>
    obtain ⟨inner, hload, rfl⟩ := inContext_inv h
    exact .leave (load_gains hload)
  | entry body =>
    obtain ⟨known, between, hinsert, h⟩ := bind_inv h
    obtain ⟨-, rfl⟩ := pure_inv h
    exact insert_gains (entries document body) hinsert

theorem Unaliases.gains {seen : List String} {document : Document} {found : Option Document}
    (h : Unaliases seen document draft found after) :
    draft.catalog.Gains comes after.catalog := by
  induction h with
  | circle => exact .warn _ _
  | itself => exact .refl _
  | lost _ _ htarget => exact target_gains entries htarget
  | next _ _ htarget _ ih => exact (target_gains entries htarget).trans ih

theorem Interns.gains {document : Document} {id : Option ClassId}
    (h : Interns document draft id after) : draft.catalog.Gains comes after.catalog := by
  cases h with
  | lost hown | known hown => exact hown.gains entries
  | added hown =>
    have gains := hown.gains entries
    exact gains

theorem Types.gains {path : String} {fragment : Json} {usage : Usage}
    {found : Option Descriptor} (h : Types owner path fragment usage draft found after)
    (objects : ∀ {inner object}, DeclaresAt after.catalog.Follows path fragment inner object →
      ∀ source, comes (owner.declared inner object source)) :
    draft.catalog.Gains comes after.catalog := by
  induction h with
  | empty | anyItems | scalar | anyValues => exact .refl _
  | enumeration _ htype =>
    obtain ⟨type, -, rfl⟩ | ⟨fault, -, rfl⟩ := enumerationType_inv htype
    · exact .refl _
    · exact .warn _ _
  | array hshape _ ih => exact ih fun h => objects (.items hshape h)
  | inlineObject hshape hdocument hid =>
    exact (insert_gains (objects (.self hshape) _) (inlineDocument_inv hdocument)).trans
      (hid.gains entries)
  | dictionary hshape hvalues _ ih => exact ih fun h => objects (.values hshape hvalues h)
  | missing _ hload => exact (load_gains hload).trans (.warn _ _)
  | index _ hload | json _ hload => exact load_gains hload
  | reference _ hleads _ hid => exact (load_gains hleads.loads).trans (hid.gains entries)
  | circular _ hleads => exact (load_gains hleads.loads).trans (.warn _ _)
  | followed hshape hleads hclass _ hinner ih =>
    have follows := hleads.follows hclass (Catalog.leave_grows hinner.grows.catalog)
    exact (load_gains hleads.loads).trans (.leave (ih fun h =>
      objects (.followed hshape follows (h.mono fun hbody => hbody.mono rfl rfl id))))
  | composite hshape _ ih => exact ih fun h => objects (.entry hshape h)
  | unsupported => exact .warn _ _

theorem Names.gains {document : Document} {entry : Json} {id : Option ClassId}
    (h : Names document entry draft id after) : draft.catalog.Gains comes after.catalog := by
  cases h with
  | missing _ hload => exact load_gains hload
  | reference _ hload hid => exact (load_gains hload).trans (hid.gains entries)
  | written _ hinsert hid => exact (insert_gains (entries _ _) hinsert).trans (hid.gains entries)

theorem Derives.gains {id : Option ClassId} (h : Derives owner draft id after) :
    draft.catalog.Gains comes after.catalog := by
  cases h with
  | root => exact .refl _
  | only _ hnames => exact hnames.gains entries
  | first _ hnames =>
    have gains := hnames.gains entries
    exact .trans (.warn _ _) gains

theorem Members.gains {declared : List (String × Json)} {members : List Property}
    (h : Members owner declared draft members after)
    (objects : ∀ entry ∈ declared, ∀ {inner object},
      DeclaresAt after.catalog.Follows entry.1 entry.2 inner object →
      ∀ source, comes (owner.declared inner object source)) :
    draft.catalog.Gains comes after.catalog := by
  induction h with
  | nil => exact .refl _
  | implied _ _ ih => exact ih fun entry h => objects entry (List.mem_cons_of_mem _ h)
  | stub _ htype hrest ih | member _ htype hrest ih =>
    have grows := hrest.grows.catalog
    exact (htype.gains entries fun h => objects _ List.mem_cons_self (h.mono fun hbody =>
      hbody.mono grows.files grows.searchPaths fun known => known.mono grows)).trans
      (ih fun entry h => objects entry (List.mem_cons_of_mem _ h))

theorem Bodies.gains {body : DraftBody} (h : Bodies owner draft body after)
    (objects : ∀ entry ∈ owner.fragments, ∀ {inner object},
      DeclaresAt after.catalog.Follows entry.1 entry.2 inner object →
      ∀ source, comes (owner.declared inner object source)) :
    draft.catalog.Gains comes after.catalog := by
  cases h with
  | object hshape hbase hmembers =>
    rw [Owner.fragments_of_object hshape] at objects
    exact (hbase.gains entries).trans (hmembers.gains entries objects)
  | constants _ hbody =>
    obtain ⟨-, rfl | ⟨warning, rfl⟩⟩ := enumerationBody_inv hbody
    · exact .refl _
    · exact .warn _ _
  | value hshape htype | untyped hshape htype =>
    rw [Owner.fragments_of_ne_object hshape] at objects
    exact htype.gains entries (objects _ List.mem_cons_self)
  | unsupported => exact .warn _ _

end

end Drafting

/-! ### What runs make -/

namespace Draft

/-- Where a document of a draft comes from: the class that declares an object is drafted. -/
inductive Traces (draft : Draft) (document : Document) : Prop
  | loaded : draft.catalog.Loads document → Traces draft document
  | entry {owner : Document} {body} : document = owner.firstEntry body → Traces draft document
  | declared {id : ClassId} {place : Place} {drafted : DraftClass} {entry path object source} :
      draft.places[id]? = some place →
      place.drafted = some drafted →
      entry ∈ Owner.fragments ⟨place.document, drafted.typeName⟩ →
      DeclaresAt draft.catalog.Follows entry.1 entry.2 path object →
      document = Owner.declared ⟨place.document, drafted.typeName⟩ path object source →
      Traces draft document

/-- It is known of every document where it comes from. -/
def Traced (draft : Draft) : Prop := ∀ document ∈ draft.catalog.documents, draft.Traces document

variable {draft after : Draft}

/-- Documents still come from where they came from, when filled places stay as they are. -/
theorem Traced.gains (h : draft.Traced) (gains : draft.catalog.Gains after.Traces after.catalog)
    (filled : ∀ {id : ClassId} {place : Place} {drafted}, draft.places[id]? = some place →
      place.drafted = some drafted → after.places[id]? = some place) : after.Traced := by
  intro document hdocument
  rcases gains.documents document hdocument with hbefore | hloads | htraces
  · cases h document hbefore with
    | loaded hloads => exact .loaded (hloads.mono gains.files gains.knows)
    | entry heq => exact .entry heq
    | declared hplace hdrafted hentry hdeclares heq =>
      have hstill := hdeclares.mono fun hbody =>
        hbody.mono gains.files gains.searchPaths gains.knows
      exact .declared (filled hplace hdrafted) hdrafted hentry hstill heq
  · exact .loaded hloads
  · exact htraces

end Draft

namespace Drafting

variable {draft after : Draft}

theorem Step.traced (h : Step .known draft after) (orderly : draft.Orderly [])
    (traced : draft.Traced) : after.Traced := by
  have filled {id : ClassId} {place : Place} {drafted : DraftClass}
      (hplace : draft.places[id]? = some place) (hdrafted : place.drafted = some drafted) :
      after.places[id]? = some place := h.filled orderly hplace hdrafted
  cases h with
  | find hmoves => exact traced.gains (.moves hmoves) filled
  | enter | leave | name | nowhere | resolved => exact traced.gains (.of_same rfl rfl rfl) filled
  | intern _ hid => exact traced.gains (hid.gains fun _ _ => .entry rfl) filled
  | @drafted id rest place drafted inner hpending hplace hclass =>
    have hin : inner.places[id]? = some place := hclass.grows.getElem? hplace
    obtain ⟨hbody⟩ := hclass
    refine traced.gains (.leave (hbody.gains (fun _ _ => .entry rfl) ?_)) filled
    intro entry hentry path object hdeclares source
    have hstill := hdeclares.mono fun hbody => hbody.mono rfl rfl fun known => known
    exact .declared ((Draft.fill_getElem? hin id).trans (if_pos rfl)) rfl hentry hstill rfl

theorem Steps.traced (h : Steps .known draft after) (orderly : draft.Orderly [])
    (traced : draft.Traced) : after.Traced := by
  induction h with
  | refl => exact traced
  | tail hsteps step ih => exact step.traced (Steps.orderly hsteps orderly) ih

end Drafting

end SchemaClasses
