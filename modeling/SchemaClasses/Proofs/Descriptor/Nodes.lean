import SchemaClasses.Draft.PropertyType

/-!
# Nodes of descriptors

Every descriptor comes from one of a few functions, and those for containers take what is inside
from another one. `Made` says so, together with the one thing that goes down the tree: what is
inside a container must be there. From it follow the facts about all nodes of a descriptor: their
names and wrappers belong to their kinds, and nothing inside a container is optional.
-/

namespace SchemaClasses

namespace Usage

variable {usage : Usage}

theorem isOptional_iff :
    usage.isOptional = true ↔ usage.isRequired = false ∧ usage.default = none := by
  cases hrequired : usage.isRequired <;> simp [isOptional, hrequired]

end Usage

namespace Leaf

/-- The type of the value at a leaf. -/
def valueType (naming : Naming) : Leaf → String
  | integer => "int64_t"
  | index => "int32_t"
  | double => "double"
  | bool => "bool"
  | string => "std::string"
  | enumeration e => match e.constantType with
    | .integer => "int32_t"
    | .string => "std::string"
  | reference _ className _ => naming.qualified className
  | inlineObject _ className => naming.qualified className
  | json => "CesiumUtility::JsonValue"

def isAsset : Leaf → Bool
  | reference _ _ isAsset => isAsset
  | _ => false

end Leaf

namespace Descriptor

/-- A type and all types inside it, from the outside in. -/
def nodes : Descriptor → List Descriptor
  | leaf kind facets => [leaf kind facets]
  | array item facets => array item facets :: item.nodes
  | dictionary value facets => dictionary value facets :: value.nodes

/-- The types inside a type. -/
def inside : Descriptor → List Descriptor
  | leaf _ _ => []
  | array item _ => item.nodes
  | dictionary value _ => value.nodes

/-- The kind of a type that is no container. -/
def leaf? : Descriptor → Option Leaf
  | leaf kind _ => some kind
  | array _ _ => none
  | dictionary _ _ => none

def isAsset (type : Descriptor) : Bool := (type.leaf?.map Leaf.isAsset).getD false

/-- The type of a value, as the kind of the type and the member types inside settle it. -/
def kindType (naming : Naming) : Descriptor → String
  | leaf kind _ => kind.valueType naming
  | array item _ => "std::vector<" ++ item.facets.modelType ++ ">"
  | dictionary value _ => "std::unordered_map<std::string, " ++ value.facets.modelType ++ ">"

/-- The reader of a container, as the readers and the member types inside settle it. -/
def containerReader? : Descriptor → Option String
  | leaf _ _ => none
  | array item _ =>
    some ("CesiumJsonReader::ArrayJsonHandler<" ++ item.facets.modelType ++ ", " ++
      item.facets.readerType ++ ">")
  | dictionary value _ =>
    some ("CesiumJsonReader::DictionaryJsonHandler<" ++ value.facets.modelType ++ ", " ++
      value.facets.readerType ++ ">")

def optionalOf (type : String) : String := "std::optional<" ++ type ++ ">"

def pointerTo (type : String) : String := "CesiumUtility::IntrusivePointer<" ++ type ++ ">"

/-- The types that a class `owner` can give a value, which must be there or not. -/
inductive Made (naming : Naming) (owner : String) : Bool → Descriptor → Prop
  | index {isRequired} : Made naming owner isRequired .index
  | scalar {isRequired default} (type : ScalarType) :
      Made naming owner isRequired
        (.scalar type (Usage.isOptional ⟨isRequired, default⟩) default)
  | anyJson {isRequired default} :
      Made naming owner isRequired (.anyJson (Usage.isOptional ⟨isRequired, default⟩))
  | enumeration {isRequired default} (e : Enumeration) :
      Made naming owner isRequired
        (.enumeration naming owner e (Usage.isOptional ⟨isRequired, default⟩))
  | inlineObject {isRequired default} (target : ClassId) (className : String) :
      Made naming owner isRequired
        (.inlineObject naming target className (Usage.isOptional ⟨isRequired, default⟩))
  | reference {isRequired default} (target : ClassId) (className : String) (isAsset : Bool) :
      Made naming owner isRequired
        (.reference naming target className isAsset (Usage.isOptional ⟨isRequired, default⟩))
  | arrayOf {isRequired item} (default : Option Json) : Made naming owner true item →
      Made naming owner isRequired (.arrayOf item default)
  | dictionaryOf {isRequired value} : Made naming owner true value →
      Made naming owner isRequired (.dictionaryOf value)
  | documented {isRequired type} (outer : Documentation) : Made naming owner isRequired type →
      Made naming owner isRequired (type.documented outer)

variable {naming : Naming} {owner : String} {isRequired : Bool} {type node : Descriptor}

theorem nodes_eq (type : Descriptor) : type.nodes = type :: type.inside := by
  cases type <;> rfl

theorem mem_nodes : node ∈ type.nodes ↔ node = type ∨ node ∈ type.inside := by
  rw [nodes_eq, List.mem_cons]

section

variable (type : Descriptor) (outer : Documentation)

theorem facets_documented :
    (type.documented outer).facets = { type.facets with doc := outer.or type.facets.doc } :=
  facets_withFacets type _

@[simp] theorem inside_documented : (type.documented outer).inside = type.inside := by
  cases type <;> rfl

@[simp] theorem leaf?_documented : (type.documented outer).leaf? = type.leaf? := by
  cases type <;> rfl

@[simp] theorem isAsset_documented : (type.documented outer).isAsset = type.isAsset := by
  rw [isAsset, leaf?_documented, isAsset]

@[simp] theorem kindType_documented :
    (type.documented outer).kindType naming = type.kindType naming := by
  cases type <;> rfl

@[simp] theorem containerReader?_documented :
    (type.documented outer).containerReader? = type.containerReader? := by
  cases type <;> rfl

end

/-! ### What may be missing -/

theorem made_anyJson : Made naming owner true (.anyJson false) :=
  @Made.anyJson _ _ true none

/-- Only what may be missing is optional. -/
theorem Made.isRequired_eq_false (h : Made naming owner isRequired type)
    (hoptional : type.facets.isOptional = true) : isRequired = false := by
  induction h with
  | index | arrayOf | dictionaryOf => cases hoptional
  | scalar | anyJson | enumeration | inlineObject =>
    exact (Usage.isOptional_iff.mp hoptional).1
  | reference target className isAsset =>
    cases isAsset with
    | true => cases hoptional
    | false => exact (Usage.isOptional_iff.mp hoptional).1
  | @documented isRequired type outer _ ih =>
    rw [facets_documented] at hoptional
    exact ih hoptional

theorem Made.inside (h : Made naming owner isRequired type) :
    ∀ node ∈ type.inside, Made naming owner true node := by
  induction h with
  | index | scalar | anyJson | enumeration | inlineObject => exact fun _ h => nomatch h
  | reference target className isAsset => cases isAsset <;> exact fun _ h => nomatch h
  | arrayOf _ hinner ih | dictionaryOf hinner ih =>
    intro node hnode
    rcases mem_nodes.mp hnode with rfl | hnode
    · exact hinner
    · exact ih node hnode
  | documented _ _ ih => simpa using ih

theorem Made.isOptional_inside (h : Made naming owner isRequired type) :
    ∀ node ∈ type.inside, node.facets.isOptional = false := by
  intro node hnode
  cases hoptional : node.facets.isOptional with
  | false => rfl
  | true => cases (h.inside node hnode).isRequired_eq_false hoptional

/-! ### Names and wrappers -/

/-- The names of a type belong to its kind, and its wrapper to what it says of itself. -/
structure Coherent (naming : Naming) (node : Descriptor) : Prop where
  valueType : node.facets.valueType = node.kindType naming
  optional : node.facets.modelType = optionalOf node.facets.valueType ↔
    node.facets.isOptional = true
  asset : node.facets.modelType = pointerTo node.facets.valueType ↔ node.isAsset = true
  bare : node.facets.isOptional = false → node.isAsset = false →
    node.facets.modelType = node.facets.valueType
  readerType : ∀ reader, node.containerReader? = some reader → node.facets.readerType = reader
  missing : node.facets.isOptional = true → node.facets.defaultValue = none ∧
    ∃ kind, node.leaf? = some kind ∧ kind ≠ .index ∧ kind.isAsset = false

theorem length_between (opening value closing : String) :
    (opening ++ value ++ closing).length = opening.length + value.length + closing.length := by
  rw [String.length_append, String.length_append]

theorem length_optionalOf (value : String) : (optionalOf value).length = value.length + 15 := by
  have hopening : "std::optional<".length = 14 := rfl
  have hclosing : ">".length = 1 := rfl
  have hlength : (optionalOf value).length = _ := length_between "std::optional<" value ">"
  omega

theorem length_pointerTo (value : String) : (pointerTo value).length = value.length + 33 := by
  have hopening : "CesiumUtility::IntrusivePointer<".length = 32 := rfl
  have hclosing : ">".length = 1 := rfl
  have hlength : (pointerTo value).length = _ :=
    length_between "CesiumUtility::IntrusivePointer<" value ">"
  omega

theorem ne_of_length {first second : String} (h : first.length ≠ second.length) :
    first ≠ second :=
  fun heq => h (congrArg String.length heq)

namespace Coherent

/-- A type without a wrapper is neither optional nor an asset. -/
theorem of_bare (valueType : node.facets.valueType = node.kindType naming)
    (modelType : node.facets.modelType = node.facets.valueType)
    (optional : node.facets.isOptional = false) (asset : node.isAsset = false)
    (readerType : ∀ reader, node.containerReader? = some reader →
      node.facets.readerType = reader) : node.Coherent naming := by
  have hwrapped : node.facets.valueType ≠ optionalOf node.facets.valueType :=
    ne_of_length (by rw [length_optionalOf]; omega)
  have hpointer : node.facets.valueType ≠ pointerTo node.facets.valueType :=
    ne_of_length (by rw [length_pointerTo]; omega)
  refine ⟨valueType, ?_, ?_, fun _ _ => modelType, readerType, ?_⟩
  · simp [modelType, optional, hwrapped]
  · simp [modelType, asset, hpointer]
  · simp [optional]

/-- A leaf that may be optional, and has no default then. -/
theorem of_wrapped {kind : Leaf} {facets : Facets}
    (valueType : facets.valueType = kind.valueType naming)
    (modelType : facets.modelType = wrapped facets.valueType facets.isOptional)
    (default : facets.isOptional = true → facets.defaultValue = none)
    (hindex : kind ≠ .index) (hasset : kind.isAsset = false) :
    (leaf kind facets).Coherent naming := by
  cases hoptional : facets.isOptional with
  | false =>
    rw [hoptional] at modelType
    exact of_bare valueType modelType hoptional hasset nofun
  | true =>
    rw [hoptional] at modelType
    have hpointer : optionalOf facets.valueType ≠ pointerTo facets.valueType :=
      ne_of_length (by rw [length_optionalOf, length_pointerTo]; omega)
    have hnot : isAsset (leaf kind facets) = false := hasset
    refine ⟨valueType, iff_of_true modelType hoptional, ?_, ?_, nofun, ?_⟩
    · rw [hnot]
      exact iff_of_false (fun heq => hpointer (modelType.symm.trans heq)) nofun
    · exact fun hbare => absurd hoptional (by rw [show facets.isOptional = false from hbare]; nofun)
    · exact fun _ => ⟨default hoptional, kind, rfl, hindex, hasset⟩

theorem documented (h : type.Coherent naming) (outer : Documentation) :
    (type.documented outer).Coherent naming := by
  obtain ⟨valueType, optional, asset, bare, readerType, missing⟩ := h
  constructor <;> simpa only [facets_documented, kindType_documented, isAsset_documented,
    containerReader?_documented, leaf?_documented]

end Coherent

/-- A type is coherent, whatever is inside it. -/
theorem Made.coherent (h : Made naming owner isRequired type) : type.Coherent naming := by
  induction h with
  | index => exact .of_bare rfl rfl rfl rfl nofun
  | @scalar isRequired default type =>
    refine .of_wrapped (by cases type <;> rfl) rfl (fun h => ?_) (by cases type <;> nofun)
      (by cases type <;> rfl)
    have hnone : default = none := (Usage.isOptional_iff.mp h).2
    exact hnone ▸ rfl
  | anyJson => exact .of_wrapped rfl rfl (fun _ => rfl) nofun rfl
  | enumeration e => exact .of_wrapped rfl rfl (fun h => if_pos h) nofun rfl
  | inlineObject => exact .of_wrapped rfl rfl (fun _ => rfl) nofun rfl
  | reference target className isAsset =>
    cases isAsset with
    | false => exact .of_wrapped rfl rfl (fun _ => rfl) nofun rfl
    | true =>
      have hwrapped : pointerTo (naming.qualified className) ≠
          optionalOf (naming.qualified className) :=
        ne_of_length (by rw [length_optionalOf, length_pointerTo]; omega)
      exact ⟨rfl, iff_of_false hwrapped nofun, iff_of_true rfl rfl, nofun, nofun, nofun⟩
  | arrayOf => exact .of_bare rfl rfl rfl rfl fun _ h => Option.some.inj h
  | dictionaryOf => exact .of_bare rfl rfl rfl rfl fun _ h => Option.some.inj h
  | documented outer _ ih => exact ih.documented outer

/-- All nodes of a type are coherent. -/
theorem Made.coherent_nodes (h : Made naming owner isRequired type) :
    ∀ node ∈ type.nodes, node.Coherent naming := by
  intro node hnode
  rcases mem_nodes.mp hnode with rfl | hnode
  · exact h.coherent
  · exact (h.inside node hnode).coherent

end Descriptor

end SchemaClasses
