import SchemaClasses.Proofs.Drafting.Drafted

/-!
# Places that a class adds

While a class is drafted, a place is added for nothing but what the class refers to: its base, and
the classes of its types. So whatever has a place is a class that was asked for, or is referred to
by another that has one.
-/

namespace SchemaClasses

namespace Draft

/-- Every place that has been added is that of one of the given classes. -/
def Adds (ids : List ClassId) (before after : Draft) : Prop :=
  ∀ id, before.places.length ≤ id → id < after.places.length → id ∈ ids

namespace Adds

variable {draft after : Draft} {ids more : List ClassId}

theorem of_learns (h : draft.Learns after) : Adds [] draft after := by
  obtain ⟨catalog, -, rfl⟩ := h
  exact fun id hle hlt => absurd hlt (Nat.not_lt.mpr hle)

theorem trans {between : Draft} (h : Adds ids draft between) (k : Adds more between after) :
    Adds (ids ++ more) draft after := by
  intro id hle hlt
  rw [List.mem_append]
  rcases Nat.lt_or_ge id between.places.length with hbetween | hbetween
  · exact .inl (h id hle hbetween)
  · exact .inr (k id hbetween hlt)

theorem after_learns {between : Draft} (h : draft.Learns between) (k : Adds ids between after) :
    Adds ids draft after :=
  (of_learns h).trans k

end Adds

end Draft

namespace Drafting

variable {draft after : Draft}

theorem Interns.adds {document : Document} {id : Option ClassId}
    (h : Interns document draft id after) : Draft.Adds id.toList draft after := by
  cases h with
  | lost hown => exact .of_learns hown.learns
  | known hown hid =>
    intro id hle hlt
    exact absurd (Draft.Adds.of_learns hown.learns id hle hlt) List.not_mem_nil
  | @added own between hown hnew =>
    refine .after_learns hown.learns fun id hle hlt => ?_
    have hlength : (between.append own).places.length = between.places.length + 1 := by
      simp [Draft.append]
    have hid : id = between.places.length := by omega
    simp [hid]

theorem Types.adds {owner : Owner} {path : String} {fragment : Json} {usage : Usage}
    {found : Option Descriptor} (h : Types owner path fragment usage draft found after) :
    Draft.Adds ((found.map (·.classes)).getD []) draft after := by
  induction h with
  | empty | anyItems | anyValues => exact .of_learns (.refl _)
  | scalar =>
    intro id hle hlt
    exact absurd hlt (Nat.not_lt.mpr hle)
  | enumeration _ htype =>
    obtain ⟨type, -, rfl⟩ | ⟨fault, -, rfl⟩ := enumerationType_inv htype
    · exact fun id hle hlt => absurd hlt (Nat.not_lt.mpr hle)
    · exact fun id hle hlt => absurd hlt (Nat.not_lt.mpr hle)
  | @array _ _ _ _ _ item _ _ _ ih =>
    cases item with
    | none => exact ih
    | some item => simpa [Descriptor.classes_eq] using ih
  | @inlineObject _ _ _ _ _ _ id _ _ hdocument hid =>
    have hinsert := inlineDocument_inv hdocument
    have hadds := Draft.Adds.after_learns (insert_learns hinsert) hid.adds
    cases id with
    | none => exact hadds
    | some target => exact hadds
  | @dictionary _ _ _ _ _ value _ _ _ _ ih =>
    cases value with
    | none => exact ih
    | some value => simpa [Descriptor.classes_eq] using ih
  | missing _ hload => exact .of_learns ((load_learns hload).trans (.warn _ _))
  | index _ hload | json _ hload => exact .of_learns (load_learns hload)
  | @reference _ _ _ _ _ _ _ id _ _ hleads _ hid =>
    have hadds := Draft.Adds.after_learns (load_learns hleads.loads) hid.adds
    cases id with
    | none => exact hadds
    | some target => simpa [Descriptor.classes_eq, Leaf.target?] using hadds
  | circular _ hleads => exact .of_learns ((load_learns hleads.loads).trans (.warn _ _))
  | @followed _ _ _ _ _ _ _ type _ _ hleads _ _ _ ih =>
    have hadds := Draft.Adds.after_learns (load_learns hleads.loads) ih
    cases type with
    | none => exact hadds
    | some type =>
      rw [Option.map_some, Option.getD_some, Descriptor.classes_eq] at hadds ⊢
      rwa [Option.getD_some, Descriptor.core_documented]
  | @composite _ _ _ _ _ type _ _ _ ih =>
    cases type with
    | none => exact ih
    | some type => simpa [Descriptor.classes_eq] using ih
  | unsupported => exact .of_learns (.warn _ _)

theorem Names.adds {document : Document} {entry : Json} {id : Option ClassId}
    (h : Names document entry draft id after) : Draft.Adds id.toList draft after := by
  cases h with
  | missing _ hload => exact .of_learns (load_learns hload)
  | reference _ hload hid => exact .after_learns (load_learns hload) hid.adds
  | written _ hinsert hid => exact .after_learns (insert_learns hinsert) hid.adds

theorem Derives.adds {owner : Owner} {id : Option ClassId} (h : Derives owner draft id after) :
    Draft.Adds id.toList draft after := by
  cases h with
  | root => exact .of_learns (.refl _)
  | only _ hnames => exact hnames.adds
  | first _ hnames => exact .after_learns (.warn _ _) hnames.adds

theorem Members.adds {owner : Owner} {declared : List (String × Json)}
    {members : List Property} (h : Members owner declared draft members after) :
    Draft.Adds (members.flatMap (·.type.classes)) draft after := by
  induction h with
  | nil => exact .of_learns (.refl _)
  | implied _ _ ih => exact ih
  | stub _ htype _ ih => exact htype.adds.trans ih
  | member _ htype _ ih => exact htype.adds.trans ih

/-- Drafting a class adds places for the classes it refers to only. -/
theorem Classes.adds {document : Document} {drafted : DraftClass}
    (h : Classes document draft drafted after) : Draft.Adds drafted.body.ids draft after := by
  obtain ⟨hbody⟩ := h
  cases hbody with
  | object _ hbase hmembers =>
    have hadds := hbase.adds.trans hmembers.adds
    simpa [DraftBody.ids, DraftBody.types, List.flatMap_map] using hadds
  | constants _ hbody =>
    obtain ⟨-, rfl | ⟨warning, rfl⟩⟩ := enumerationBody_inv hbody
    · exact fun id hle hlt => absurd hlt (Nat.not_lt.mpr hle)
    · exact fun id hle hlt => absurd hlt (Nat.not_lt.mpr hle)
  | value _ htype => simpa [DraftBody.ids, DraftBody.types] using htype.adds
  | untyped _ htype => exact htype.adds
  | unsupported => exact .of_learns (.warn _ _)

end Drafting

end SchemaClasses
