import SchemaClasses.Proofs.Descriptor.Nodes
import SchemaClasses.Proofs.Drafting.Complete

/-!
# Coherent types

Whatever leads to the type of a fragment, it is made in one of the few ways in which types are made.
Whether a value must be there is passed on through references and through the only entry of `allOf`,
and what is inside a container always must. So at every depth of every type the names, the wrapper
and the default fit the kind, and containers hold values without `std::optional`.
-/

namespace SchemaClasses.Drafting

open Descriptor (Made)

variable {draft after : Draft}

/-- The type that is found for a fragment is made in the class of the owner. -/
theorem Types.made {owner : Owner} {path : String} {fragment : Json} {usage : Usage}
    {found : Option Descriptor} (h : Types owner path fragment usage draft found after) :
    ∀ type, found = some type → Made after.naming owner.typeName usage.isRequired type := by
  induction h with
  | empty => simp
  | enumeration _ htype =>
    rintro _ ⟨⟩
    obtain ⟨e, rfl, rfl⟩ | ⟨fault, rfl, rfl⟩ := enumerationType_inv htype
    · exact .documented _ (.enumeration e)
    · exact .documented _ .anyJson
  | anyItems =>
    rintro _ ⟨⟩
    exact .documented _ (.arrayOf _ Descriptor.made_anyJson)
  | array _ _ ih =>
    intro type htype
    obtain ⟨item, hitem, rfl⟩ := Option.map_eq_some_iff.mp htype
    exact .documented _ (.arrayOf _ (ih item hitem))
  | scalar =>
    rintro _ ⟨⟩
    exact .documented _ (.scalar _)
  | @inlineObject _ _ _ _ _ _ id =>
    rintro _ ⟨⟩
    cases id with
    | none => exact .documented _ .anyJson
    | some target => exact .documented _ (.inlineObject target _)
  | anyValues =>
    rintro _ ⟨⟩
    exact .documented _ (.dictionaryOf Descriptor.made_anyJson)
  | @dictionary _ _ _ _ _ value _ _ _ _ ih =>
    rintro _ ⟨⟩
    cases value with
    | none => exact .documented _ (.dictionaryOf Descriptor.made_anyJson)
    | some value => exact .documented _ (.dictionaryOf (ih value rfl))
  | missing | json | circular | unsupported =>
    rintro _ ⟨⟩
    exact .documented _ .anyJson
  | index =>
    rintro _ ⟨⟩
    exact .documented _ .index
  | @reference _ _ _ _ _ _ _ id =>
    rintro _ ⟨⟩
    cases id with
    | none => exact .documented _ .anyJson
    | some target => exact .documented _ (.reference target _ _)
  | @followed _ _ _ _ _ _ _ type _ _ _ _ _ _ ih =>
    rintro _ ⟨⟩
    cases type with
    | none => exact .documented _ .anyJson
    | some type => exact .documented _ (ih type rfl)
  | composite _ _ ih =>
    intro type htype
    obtain ⟨inner, hinner, rfl⟩ := Option.map_eq_some_iff.mp htype
    exact .documented _ (ih inner hinner)

/-- The types of a drafted class are made in it. -/
theorem Drafted.made {document : Document} {drafted : DraftClass}
    (h : Drafted document draft drafted) :
    ∀ type ∈ drafted.body.types, ∃ isRequired,
      Made draft.naming drafted.typeName isRequired type := by
  obtain ⟨start, last, hclass, hwithin⟩ := h
  rw [hwithin.naming]
  obtain ⟨hbody⟩ := hclass
  refine hbody.forall_types
    (P := fun draft type => ∃ isRequired, Made draft.naming _ isRequired type) ?_ ?_
  · exact fun htype => ⟨_, htype.made _ rfl⟩
  · rintro draft after type hgrows ⟨isRequired, hmade⟩
    rw [hgrows.naming]
    exact ⟨isRequired, hmade⟩

/-- Every node of the type that is found for a property is coherent, and none below the root is
optional. -/
theorem propertyType_coherent {depth : Nat} {owner : Owner} {name : String} {fragment : Json}
    {isRequired : Bool} {type : Descriptor}
    (h : propertyType depth owner name fragment isRequired draft = some (some type, after)) :
    (∀ node ∈ type.nodes, node.Coherent draft.naming) ∧
      ∀ node ∈ type.inside, node.facets.isOptional = false ∧
        node.facets.modelType ≠ Descriptor.optionalOf node.facets.valueType := by
  have htypes := fragmentType_types h
  have hmade := htypes.made type rfl
  rw [htypes.grows.naming] at hmade
  have hcoherent := hmade.coherent_nodes
  refine ⟨hcoherent, fun node hnode => ?_⟩
  have hoptional := hmade.isOptional_inside node hnode
  refine ⟨hoptional, fun hwrapped => ?_⟩
  have htrue := (hcoherent node (Descriptor.mem_nodes.mpr (.inr hnode))).optional.mp hwrapped
  rw [hoptional] at htrue
  cases htrue

/-- The items of an array are values of any name, which an `allOf` leads to in another schema. No
node is optional, although the array may be missing. -/
theorem propertyType_coherent_nested :
    let fragment : Json :=
      .obj [("type", .str "array"), ("items", .obj [("allOf", .arr [.referringTo "d"])])]
    let files := FileTree.ofSchemas
      [("d", .obj [("type", .str "object"), ("additionalProperties", .number)])]
    let start := Draft.new (.new files ["/s"] []) .empty (.ofNamespace "N")
    let owner : Owner := ⟨⟨"/s/c", "/s/c", .withProperty "p" fragment⟩, "C"⟩
    ∃ type after, propertyType 8 owner "p" fragment false start = some (some type, after) ∧
      type.nodes.map (·.facets.modelType) =
        ["std::vector<std::unordered_map<std::string, double>>",
          "std::unordered_map<std::string, double>", "double"] ∧
      (∀ node ∈ type.nodes, node.Coherent start.naming) ∧
      ∀ node ∈ type.inside, node.facets.isOptional = false := by
  intro fragment files start owner
  have hrun : (propertyType 8 owner "p" fragment false start : Option _).map
      (fun result => result.1.map fun type => type.nodes.map (·.facets.modelType)) =
        some (some ["std::vector<std::unordered_map<std::string, double>>",
          "std::unordered_map<std::string, double>", "double"]) := by
    decide +kernel
  obtain ⟨⟨found, after⟩, htype, hnodes⟩ := Option.map_eq_some_iff.mp hrun
  obtain ⟨type, hfound, hmodels⟩ := Option.map_eq_some_iff.mp hnodes
  obtain rfl : found = some type := hfound
  obtain ⟨hcoherent, hinside⟩ := propertyType_coherent htype
  exact ⟨type, after, htype, hmodels, hcoherent, fun node hnode => (hinside node hnode).1⟩

end SchemaClasses.Drafting
