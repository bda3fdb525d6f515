import SchemaClasses.ClassTable.Linking
import SchemaClasses.Proofs.Drafting.References

/-!
# Drafted classes

What is true of a class at the moment it is drafted stays true while the draft grows, because it
only speaks of documents that are known and of places that are held. So a drafted class is said to
be one that was drafted for its document in some draft within the present one, and everything that
later proofs need of it follows from that.
-/

namespace SchemaClasses

/-- The classes that a drafted class refers to, its base first. -/
def DraftBody.ids (body : DraftBody) : List ClassId :=
  (match body with
    | .object base _ _ => base.toList
    | _ => []) ++ body.types.flatMap (·.classes)

namespace Drafting

variable {draft after : Draft}

theorem Interns.has {document : Document} {id : ClassId}
    (h : Interns document draft (some id) after) : ∃ key, after.Holds id key := by
  obtain ⟨own, between, -, -, holds⟩ := h.holds
  exact ⟨own.key, holds⟩

theorem Names.has {document : Document} {entry : Json} {id : ClassId}
    (h : Names document entry draft (some id) after) : ∃ key, after.Holds id key := by
  cases h with
  | reference _ _ hid => exact hid.has
  | written _ _ hid => exact hid.has

theorem Derives.has {owner : Owner} {id : ClassId} (h : Derives owner draft (some id) after) :
    ∃ key, after.Holds id key := by
  cases h with
  | only _ hnames => exact hnames.has
  | first _ hnames => exact hnames.has

/-- What holds of every type that is found, and goes on to hold while the draft grows, holds of the
types of a class. -/
theorem Bodies.forall_types {owner : Owner} {P : Draft → Descriptor → Prop}
    (found : ∀ {path fragment usage draft type after},
      Types owner path fragment usage draft (some type) after → P after type)
    (grows : ∀ {draft after type}, draft.Grows after → P draft type → P after type)
    {body : DraftBody} (h : Bodies owner draft body after) : ∀ type ∈ body.types, P after type := by
  intro type htype
  cases h with
  | object _ _ hmembers =>
    obtain ⟨p, hp, rfl⟩ := List.mem_map.mp htype
    exact hmembers.forall_types (P := fun draft _ type => P draft type) found grows p hp
  | constants _ hbody =>
    obtain ⟨⟨e, rfl⟩ | rfl, -⟩ := enumerationBody_inv hbody <;> cases htype
  | value _ hvalue =>
    obtain rfl := List.mem_singleton.mp htype
    exact found hvalue
  | untyped => cases htype
  | unsupported => cases htype

/-- A class has been drafted for a document, and what was known and held when it was done is known
and held in the draft. -/
def Drafted (document : Document) (draft : Draft) (drafted : DraftClass) : Prop :=
  ∃ start last, Classes document start drafted last ∧ last.Within draft

namespace Drafted

variable {document : Document} {drafted : DraftClass}

theorem mono (h : Drafted document draft drafted) (within : draft.Within after) :
    Drafted document after drafted := by
  obtain ⟨start, last, hclass, hlast⟩ := h
  exact ⟨start, last, hclass, hlast.trans within⟩

theorem source (h : Drafted document draft drafted) : drafted.source = document.key := by
  obtain ⟨start, last, ⟨-⟩, -⟩ := h
  rfl

theorem title (h : Drafted document draft drafted) : drafted.title = document.title? := by
  obtain ⟨start, last, ⟨-⟩, -⟩ := h
  rfl

theorem isObject_iff (h : Drafted document draft drafted) :
    drafted.body.isObject = true ↔ SchemaShape.of document.body = .object := by
  obtain ⟨start, last, ⟨hbody⟩, -⟩ := h
  cases hbody with
  | object hshape => simpa [DraftBody.isObject] using hshape
  | @constants listsItems _ _ hshape hbody =>
    obtain ⟨⟨type, rfl⟩ | rfl, -⟩ := enumerationBody_inv hbody <;>
      cases listsItems <;> simp_all [DraftBody.isObject]
  | value hshape => simpa [DraftBody.isObject] using hshape
  | untyped hshape => simpa [DraftBody.isObject] using hshape
  | unsupported hshape => simpa [DraftBody.isObject] using hshape

theorem refers (h : Drafted document draft drafted) :
    ∀ type ∈ drafted.body.types, Refers document draft type.core := by
  obtain ⟨start, last, ⟨hbody⟩, hwithin⟩ := h
  have hrefers := hbody.forall_types (P := fun draft type => Refers document draft type.core)
    (fun htype => htype.refers _ rfl) fun hgrows hrefers => hrefers.mono hgrows.within
  exact fun type htype => (hrefers type htype).mono hwithin

theorem base_lt {base : ClassId} {declared : List String} {members : List Property}
    (h : Drafted document draft drafted)
    (hobject : drafted.body = .object (some base) declared members) :
    base < draft.places.length := by
  obtain ⟨start, last, ⟨hbody⟩, hwithin⟩ := h
  obtain ⟨-, -, between, hbase, hmembers⟩ := hbody.object_inv hobject
  obtain ⟨key, holds⟩ := hbase.has
  exact (hwithin.holds (hmembers.grows.holds holds)).lt

theorem ids_lt (h : Drafted document draft drafted) :
    ∀ id ∈ drafted.body.ids, id < draft.places.length := by
  intro id hid
  rcases List.mem_append.mp hid with hbase | htypes
  · cases hbody : drafted.body with
    | object base declared members =>
      rw [hbody] at hbase
      obtain rfl := Option.mem_toList.mp hbase
      exact h.base_lt hbody
    | enumeration | value | unsupported => simp [hbody] at hbase
  · obtain ⟨type, htype, hid⟩ := List.mem_flatMap.mp htypes
    exact (h.refers type htype).lt (Descriptor.mem_classes.mp hid)

end Drafted

end Drafting

end SchemaClasses
