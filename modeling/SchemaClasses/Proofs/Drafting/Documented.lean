import SchemaClasses.Proofs.Drafting.Run

/-!
# Documented drafts

When only documents that the catalog knows are resolved, the catalog knows the document of every
place: what a class was drafted from is what its source means in the end.
-/

namespace SchemaClasses

namespace Draft

/-- The catalog knows the document of every place. -/
def Documented (draft : Draft) : Prop :=
  ∀ place ∈ draft.places, draft.catalog.Knows place.document

variable {draft after : Draft}

theorem Documented.learns (documented : draft.Documented) (h : draft.Learns after) :
    after.Documented := by
  obtain ⟨catalog, hgrows, rfl⟩ := h
  exact fun place hplace => (documented place hplace).mono hgrows

end Draft

namespace Drafting

variable {draft after : Draft}

theorem Interns.documented {document : Document} {id : Option ClassId}
    (h : Interns document draft id after) (known : draft.catalog.Knows document)
    (documented : draft.Documented) : after.Documented := by
  cases h with
  | lost hown => exact documented.learns hown.learns
  | known hown hid => exact documented.learns hown.learns
  | added hown new =>
    intro place hplace
    rcases List.mem_append.mp hplace with hplace | hplace
    · exact documented.learns hown.learns place hplace
    · obtain rfl := List.mem_singleton.mp hplace
      exact hown.knows known

theorem Types.documented {owner : Owner} {path : String} {fragment : Json} {usage : Usage}
    {type : Option Descriptor} (h : Types owner path fragment usage draft type after)
    (documented : draft.Documented) : after.Documented := by
  induction h with
  | empty | anyItems | scalar | anyValues => exact documented
  | enumeration _ htype =>
    obtain ⟨type, -, rfl⟩ | ⟨fault, -, rfl⟩ := enumerationType_inv htype
    · exact documented
    · exact documented.learns (.warn _ _)
  | array _ _ ih => exact ih documented
  | inlineObject _ hdocument hid =>
    have hinsert := inlineDocument_inv hdocument
    exact hid.documented (insert_knows hinsert) (documented.learns (insert_learns hinsert))
  | dictionary _ _ _ ih => exact ih documented
  | missing _ hload => exact (documented.learns (load_learns hload)).learns (.warn _ _)
  | index _ hload | json _ hload => exact documented.learns (load_learns hload)
  | reference _ hleads _ hid =>
    exact hid.documented (load_knows hleads.loads) (documented.learns (load_learns hleads.loads))
  | circular _ hleads =>
    exact (documented.learns (load_learns hleads.loads)).learns (.warn _ _)
  | followed _ hleads _ _ _ ih =>
    have hloaded := documented.learns (load_learns hleads.loads)
    exact ih hloaded
  | composite _ _ ih => exact ih documented
  | unsupported => exact documented.learns (.warn _ _)

theorem Names.documented {document : Document} {entry : Json} {id : Option ClassId}
    (h : Names document entry draft id after) (documented : draft.Documented) :
    after.Documented := by
  cases h with
  | missing _ hload => exact documented.learns (load_learns hload)
  | reference _ hload hid =>
    exact hid.documented (load_knows hload) (documented.learns (load_learns hload))
  | written _ hinsert hid =>
    exact hid.documented (insert_knows hinsert) (documented.learns (insert_learns hinsert))

theorem Derives.documented {owner : Owner} {id : Option ClassId}
    (h : Derives owner draft id after) (documented : draft.Documented) : after.Documented := by
  cases h with
  | root => exact documented
  | only _ hnames => exact hnames.documented documented
  | first _ hnames => exact hnames.documented (documented.learns (.warn _ _))

theorem Members.documented {owner : Owner} {declared : List (String × Json)}
    {members : List Property} (h : Members owner declared draft members after)
    (documented : draft.Documented) : after.Documented := by
  induction h with
  | nil => exact documented
  | implied _ _ ih => exact ih documented
  | stub _ htype _ ih | member _ htype _ ih => exact ih (htype.documented documented)

theorem Classes.documented {document : Document} {drafted : DraftClass}
    (h : Classes document draft drafted after) (documented : draft.Documented) :
    after.Documented := by
  obtain ⟨hbody⟩ := h
  cases hbody with
  | object _ hbase hmembers => exact hmembers.documented (hbase.documented documented)
  | constants _ hbody =>
    obtain ⟨-, rfl | ⟨warning, rfl⟩⟩ := enumerationBody_inv hbody
    · exact documented
    · exact documented.learns (.warn _ _)
  | value _ htype | untyped _ htype => exact htype.documented documented
  | unsupported => exact documented.learns (.warn _ _)

variable {policy : Policy}

theorem Step.documented (h : Step policy draft after) (strict : ¬policy.strangers)
    (documented : draft.Documented) : after.Documented := by
  cases h with
  | find hmoves => exact documented.learns ⟨_, hmoves.grows, rfl⟩
  | enter | leave | name | nowhere | resolved => exact documented
  | intern known hid => exact hid.documented (known.resolve_left strict) documented
  | @drafted id rest place drafted inner hpending hplace hclass =>
    have hinner : inner.Documented := hclass.documented documented
    have hin : inner.places[id]? = some place := hclass.grows.getElem? hplace
    intro other hother
    obtain hother | rfl := Draft.mem_fill hin hother
    · exact hinner other hother
    · exact hinner place (List.mem_of_getElem? hin)

theorem Steps.documented (h : Steps policy draft after) (strict : ¬policy.strangers)
    (documented : draft.Documented) : after.Documented := by
  induction h with
  | refl => exact documented
  | tail _ step ih => exact step.documented strict ih

end Drafting

end SchemaClasses
