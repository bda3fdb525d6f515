import SchemaClasses.Proofs.ClassTable.Chains
import SchemaClasses.Proofs.Drafting.Coherence

/-!
# Headers of a class

Headers are gathered upwards, from the inside of a type to the type and from the types of the
properties to the class, and joined with those of the bases. What is gathered is neither more nor
less than what the nodes of the types need one by one.
-/

namespace SchemaClasses

namespace Leaf

/-- The headers that the member of a class needs for a value. -/
def modelNeeds (naming : Naming) : Leaf → List String
  | integer => ["<cstdint>"]
  | index => ["<cstdint>"]
  | double => []
  | bool => []
  | string => ["<string>"]
  | enumeration e => match e.constantType with
    | .integer => ["<cstdint>"]
    | .string => ["<string>"]
  | reference _ className isAsset =>
    naming.header className :: if isAsset then ["<CesiumUtility/IntrusivePointer.h>"] else []
  | inlineObject _ className => [naming.header className]
  | json => ["<CesiumUtility/JsonValue.h>"]

/-- The headers that the reader of a class `owner` needs for a value. -/
def readerNeeds (naming : Naming) (owner : String) : Leaf → List String
  | integer => ["<CesiumJsonReader/IntegerJsonHandler.h>"]
  | index => ["<CesiumJsonReader/IntegerJsonHandler.h>"]
  | double => ["<CesiumJsonReader/DoubleJsonHandler.h>"]
  | bool => ["<CesiumJsonReader/BoolJsonHandler.h>"]
  | string => ["<CesiumJsonReader/StringJsonHandler.h>"]
  | enumeration e => naming.header owner :: match e.constantType with
    | .integer => ["<CesiumJsonReader/IntegerJsonHandler.h>"]
    | .string => ["<CesiumJsonReader/StringJsonHandler.h>"]
  | reference _ className _ => [naming.handlerHeader className]
  | inlineObject _ className => [naming.handlerHeader className]
  | json => ["<CesiumJsonReader/JsonObjectJsonHandler.h>"]

variable {naming : Naming} {e : Enumeration}

theorem modelNeeds_enumeration :
    (enumeration e).modelNeeds naming = [Descriptor.enumerationHeader e.constantType] := by
  cases htype : e.constantType <;> simp [modelNeeds, Descriptor.enumerationHeader, htype]

theorem readerNeeds_enumeration {owner : String} :
    (enumeration e).readerNeeds naming owner =
      [naming.header owner, Descriptor.enumerationReaderHeader e.constantType] := by
  cases htype : e.constantType <;>
    simp [readerNeeds, Descriptor.enumerationReaderHeader, Descriptor.integerHandler, htype]

end Leaf

namespace Descriptor

/-- The headers that the member needs for a type alone, whatever is inside it. -/
def modelNeeds (naming : Naming) (node : Descriptor) : List String :=
  let kind := match node with
    | leaf kind _ => kind.modelNeeds naming
    | array _ _ => ["<vector>"]
    | dictionary _ _ => ["<unordered_map>", "<string>"]
  kind ++ if node.facets.isOptional then ["<optional>"] else []

/-- The headers that the reader of a class `owner` needs for a type alone. -/
def readerNeeds (naming : Naming) (owner : String) : Descriptor → List String
  | leaf kind _ => kind.readerNeeds naming owner
  | array _ _ => ["<CesiumJsonReader/ArrayJsonHandler.h>"]
  | dictionary _ _ => ["<CesiumJsonReader/DictionaryJsonHandler.h>"]

variable {naming : Naming} {owner header : String} {isRequired : Bool} {type : Descriptor}

theorem modelNeeds_documented (outer : Documentation) :
    (type.documented outer).modelNeeds naming = type.modelNeeds naming := by
  cases type <;> rfl

theorem readerNeeds_documented (outer : Documentation) :
    (type.documented outer).readerNeeds naming owner = type.readerNeeds naming owner := by
  cases type <;> rfl

theorem exists_mem_nodes {P : Descriptor → Prop} :
    (∃ node ∈ type.nodes, P node) ↔ P type ∨ ∃ node ∈ type.inside, P node := by
  rw [nodes_eq]
  exact List.exists_mem_cons_iff P type type.inside

theorem withOptional_eq (headers : List String) (isOptional : Bool) :
    withOptional headers isOptional =
      headers ++ if isOptional then ["<optional>"] else [] := by
  cases isOptional
  · exact (List.append_nil headers).symm
  · rfl

theorem mem_classHeaders {className : String} {isOptional : Bool} :
    header ∈ (classFacets naming className isOptional).modelHeaders ↔
      header ∈ [naming.header className] ++ if isOptional then ["<optional>"] else [] := by
  cases isOptional with
  | false => rfl
  | true => exact Ordered.mem_insert.trans (by simp)

theorem exists_mem_nodes_of_leaf {P : Descriptor → Prop} (h : type.inside = []) :
    (∃ node ∈ type.nodes, P node) ↔ P type := by
  simp [exists_mem_nodes, h]

/-- A type has the headers of all its nodes and no others. -/
theorem Made.mem_modelHeaders (h : Made naming owner isRequired type) :
    header ∈ type.facets.modelHeaders ↔
      ∃ node ∈ type.nodes, header ∈ node.modelNeeds naming := by
  induction h with
  | index =>
    refine .trans ?_ (exists_mem_nodes_of_leaf rfl).symm
    rfl
  | scalar kind =>
    refine .trans ?_ (exists_mem_nodes_of_leaf rfl).symm
    cases kind <;> exact iff_of_eq (congrArg (header ∈ ·) (withOptional_eq _ _))
  | anyJson =>
    refine .trans ?_ (exists_mem_nodes_of_leaf rfl).symm
    exact iff_of_eq (congrArg (header ∈ ·) (withOptional_eq _ _))
  | enumeration e =>
    refine .trans ?_ (exists_mem_nodes_of_leaf rfl).symm
    refine (iff_of_eq (congrArg (header ∈ ·) (withOptional_eq _ _))).trans ?_
    rw [← @Leaf.modelNeeds_enumeration naming e]
    rfl
  | inlineObject =>
    refine .trans ?_ (exists_mem_nodes_of_leaf rfl).symm
    exact mem_classHeaders
  | reference target className isAsset =>
    cases isAsset with
    | false =>
      refine .trans ?_ (exists_mem_nodes_of_leaf rfl).symm
      exact mem_classHeaders
    | true =>
      refine .trans (Ordered.mem_insert.trans ?_) (exists_mem_nodes_of_leaf rfl).symm
      exact (or_congr_left List.mem_singleton).trans List.mem_pair.symm
  | arrayOf _ _ ih | dictionaryOf _ ih =>
    rw [exists_mem_nodes]
    exact Ordered.mem_union.trans (or_congr .rfl ih)
  | documented outer _ ih =>
    rw [exists_mem_nodes] at ih ⊢
    rw [inside_documented, modelNeeds_documented, facets_documented, ← ih]

/-- The reader of a type has the headers of all its nodes and no others. -/
theorem Made.mem_readerHeaders (h : Made naming owner isRequired type) :
    header ∈ type.facets.readerHeaders ↔
      ∃ node ∈ type.nodes, header ∈ node.readerNeeds naming owner := by
  induction h with
  | index | anyJson | inlineObject =>
    refine .trans ?_ (exists_mem_nodes_of_leaf rfl).symm
    rfl
  | scalar kind =>
    refine .trans ?_ (exists_mem_nodes_of_leaf rfl).symm
    cases kind <;> rfl
  | enumeration e =>
    refine .trans (Ordered.mem_insert.trans ?_) (exists_mem_nodes_of_leaf rfl).symm
    refine ((or_congr_left List.mem_singleton).trans List.mem_pair.symm).trans ?_
    rw [← @Leaf.readerNeeds_enumeration naming e owner]
    rfl
  | reference target className isAsset =>
    cases isAsset <;> refine .trans ?_ (exists_mem_nodes_of_leaf rfl).symm <;> rfl
  | arrayOf _ _ ih | dictionaryOf _ ih =>
    rw [exists_mem_nodes]
    exact Ordered.mem_union.trans (or_congr .rfl ih)
  | documented outer _ ih =>
    rw [exists_mem_nodes] at ih ⊢
    rw [inside_documented, readerNeeds_documented, facets_documented, ← ih]

end Descriptor

/-- One of the other classes above a class. -/
def ClassTable.Above (table : ClassTable) (id : ClassId) (base : ClassDescriptor) : Prop :=
  ∃ above, above ≠ id ∧ table.AtOrAbove id above ∧ table.get? above = some base

namespace Linking

variable {l : Linking} {id : ClassId} {header : String}

theorem typeNameAt_of_get? {c : ClassDescriptor} (hc : l.table.get? id = some c) :
    l.typeNameAt id = c.typeName := by
  rw [table_get?] at hc
  obtain ⟨drafted, hdrafted, rfl⟩ := Option.map_eq_some_iff.mp hc
  rw [typeNameAt, hdrafted, Option.map_some, Option.getD_some]
  rfl

theorem exists_mem_ancestors_iff {P : String → Prop} :
    (∃ above ∈ l.ancestors id, P (l.typeNameAt above)) ↔
      ∃ base, l.table.Above id base ∧ P base.typeName := by
  constructor
  · rintro ⟨above, habove, h⟩
    obtain ⟨base, _, hbase, -⟩ := object_of_isObject (isObject_of_mem_ancestors habove)
    obtain ⟨hne, hup⟩ := mem_ancestors_iff.mp habove
    exact ⟨base, ⟨above, hne, hup, hbase⟩, typeNameAt_of_get? hbase ▸ h⟩
  · rintro ⟨base, ⟨above, hne, hup, hbase⟩, h⟩
    exact ⟨above, mem_ancestors_iff.mpr ⟨hne, hup⟩, (typeNameAt_of_get? hbase).symm ▸ h⟩

theorem mem_modelHeaders_basesFrom {ancestors : List ClassId} :
    header ∈ (l.basesFrom ancestors).model.headers ↔ header = Bases.root.model.header ∨
      ∃ above ∈ ancestors, header = l.naming.header (l.typeNameAt above) := by
  induction ancestors with
  | nil => simp [basesFrom, Bases.root, Lineage.headers, Lineage.header]
  | cons base ancestors ih =>
    rw [basesFrom, Lineage.headers, Ordered.mem_union, List.mem_singleton, ih, or_left_comm]
    simp only [List.mem_cons, exists_eq_or_imp]

theorem mem_readerHeaders_basesFrom {ancestors : List ClassId} :
    header ∈ (l.basesFrom ancestors).reader.headers ↔ header = Bases.root.reader.header ∨
      ∃ above ∈ ancestors, header = l.naming.handlerHeader (l.typeNameAt above) := by
  induction ancestors with
  | nil => simp [basesFrom, Bases.root, Lineage.headers, Lineage.header]
  | cons base ancestors ih =>
    rw [basesFrom, Lineage.headers, Ordered.mem_union, List.mem_singleton, ih, or_left_comm]
    simp only [List.mem_cons, exists_eq_or_imp]

end Linking

theorem Draft.Orderly.made_properties {draft : Draft} {id : ClassId} {c : ClassDescriptor}
    {object : ObjectClass} (orderly : draft.Orderly []) (hpending : draft.pending = [])
    (hc : draft.linking.table.get? id = some c) (hobject : c.object? = some object) :
    ∀ p ∈ object.properties, p.name ∉ object.inheritedNames ∧
      ∃ isRequired, Descriptor.Made draft.naming c.typeName isRequired p.type := by
  obtain ⟨place, drafted, -, -, hclass, rfl⟩ := orderly.class_inv hpending hc
  obtain ⟨base, declared, members, hbody, rfl⟩ := Linking.object?_classOf.mp hobject
  intro p hp
  obtain ⟨hmember, hfresh⟩ := List.mem_filter.mp hp
  refine ⟨of_decide_eq_true hfresh, hclass.made p.type ?_⟩
  rw [hbody]
  exact List.mem_map_of_mem hmember

/-- The headers of a class are those of the root and of the classes above it and those that the
nodes of its own properties need, in its reader also its own. -/
theorem Drafting.headers_exact {catalog : Catalog} {settings : Settings} {naming : Naming}
    {ids : List ClassId} {depth : Nat} {draft after : Draft} {table : ClassTable}
    (h : Called (.new catalog settings naming) ids draft)
    (hfinish : finish depth draft = some (table, after)) {id : ClassId} {c : ClassDescriptor}
    {object : ObjectClass} (hc : table.get? id = some c) (hobject : c.object? = some object) :
    (∀ header, header ∈ object.modelHeaders ↔
      header = "<CesiumUtility/ExtensibleObject.h>" ∨
      (∃ base, table.Above id base ∧ header = naming.header base.typeName) ∨
      ∃ p ∈ object.properties, ∃ node ∈ p.type.nodes, header ∈ node.modelNeeds naming) ∧
    (∀ header, header ∈ object.readerHeaders ↔
      header = "<CesiumJsonReader/ExtensibleObjectJsonHandler.h>" ∨
      (∃ base, table.Above id base ∧ header = naming.handlerHeader base.typeName) ∨
      header = naming.header c.typeName ∨
      ∃ p ∈ object.properties, ∃ node ∈ p.type.nodes,
        header ∈ node.readerNeeds naming c.typeName) ∧
    ∀ p ∈ object.properties, p.name ∉ object.inheritedNames := by
  obtain ⟨orderly, hpending, hnaming, rfl, -⟩ := h.finished hfinish
  have hproperties := orderly.made_properties hpending hc hobject
  rw [hnaming] at hproperties
  have hlinking : draft.linking.naming = naming := hnaming
  obtain ⟨_, drafted, _, members, -, -, -, rfl, rfl, -⟩ := orderly.object_inv hpending hc hobject
  refine ⟨fun header => ?_, fun header => ?_, fun p hp => (hproperties p hp).1⟩
  · change header ∈ Ordered.union
      (draft.linking.basesFrom (draft.linking.ancestors id)).model.headers (List.flatMap _ _) ↔ _
    rw [Ordered.mem_union, Linking.mem_modelHeaders_basesFrom, List.mem_flatMap, hlinking,
      Linking.exists_mem_ancestors_iff (P := fun name => header = naming.header name), or_assoc]
    refine or_congr_right (or_congr_right (exists_congr fun p => and_congr_right fun hp => ?_))
    obtain ⟨-, isRequired, hmade⟩ := hproperties p hp
    exact hmade.mem_modelHeaders
  · change header ∈ Ordered.union (Ordered.insert
      (draft.linking.basesFrom (draft.linking.ancestors id)).reader.headers _)
      (List.flatMap _ _) ↔ _
    rw [Ordered.mem_union, Ordered.mem_insert, Linking.mem_readerHeaders_basesFrom,
      List.mem_flatMap, hlinking,
      Linking.exists_mem_ancestors_iff (P := fun name => header = naming.handlerHeader name),
      or_assoc, or_assoc]
    refine or_congr_right (or_congr_right (or_congr_right
      (exists_congr fun p => and_congr_right fun hp => ?_)))
    obtain ⟨-, isRequired, hmade⟩ := hproperties p hp
    exact hmade.mem_readerHeaders

/-- A class has the headers of its base, and those of the integers listed inside the dictionary
inside its array. -/
theorem Drafting.headers_exact_nested :
    let naming := Naming.ofNamespace "N"
    let listed : Json := .obj [("type", .str "integer"), ("enum", .arr [.num (.int 1)])]
    let nested : Json := .obj [("type", .str "array"), ("items", .obj [("type", .str "object"),
      ("additionalProperties", listed)])]
    let files := FileTree.ofSchemas
      [("c", .derivedFrom "b" "p" nested), ("b", .withProperty "q" .number)]
    ∃ draft table after c object,
      Called (.new (.new files ["/s"] []) .empty naming) [0] draft ∧
      finish 8 draft = some (table, after) ∧ table.get? 0 = some c ∧ c.object? = some object ∧
      object.modelHeaders = ["<N/B.h>", "<CesiumUtility/ExtensibleObject.h>", "<vector>",
        "<unordered_map>", "<string>", "<cstdint>"] ∧
      object.readerHeaders = ["\"BJsonHandler.h\"",
        "<CesiumJsonReader/ExtensibleObjectJsonHandler.h>", "<N/C.h>",
        "<CesiumJsonReader/ArrayJsonHandler.h>", "<CesiumJsonReader/DictionaryJsonHandler.h>",
        "<CesiumJsonReader/IntegerJsonHandler.h>"] ∧
      (∀ header, header ∈ object.modelHeaders ↔
        header = "<CesiumUtility/ExtensibleObject.h>" ∨
        (∃ base, table.Above 0 base ∧ header = naming.header base.typeName) ∨
        ∃ p ∈ object.properties, ∃ node ∈ p.type.nodes, header ∈ node.modelNeeds naming) ∧
      ∀ header, header ∈ object.readerHeaders ↔
        header = "<CesiumJsonReader/ExtensibleObjectJsonHandler.h>" ∨
        (∃ base, table.Above 0 base ∧ header = naming.handlerHeader base.typeName) ∨
        header = naming.header c.typeName ∨
        ∃ p ∈ object.properties, ∃ node ∈ p.type.nodes,
          header ∈ node.readerNeeds naming c.typeName := by
  intro naming listed nested files
  let start : Draft := .new (.new files ["/s"] []) .empty naming
  have hresolve : (resolve 8 "c" start : Option _).map (·.1) = some (some 0) := by decide +kernel
  have hfinish : ((resolve 8 "c" start : Option _).bind fun resolved => (finish 8 resolved.2).map
      fun finished => (finished.1.map fun c => c.object?.map fun object =>
        (object.modelHeaders, object.readerHeaders))[0]?) =
      some (some (some (["<N/B.h>", "<CesiumUtility/ExtensibleObject.h>", "<vector>",
        "<unordered_map>", "<string>", "<cstdint>"], ["\"BJsonHandler.h\"",
        "<CesiumJsonReader/ExtensibleObjectJsonHandler.h>", "<N/C.h>",
        "<CesiumJsonReader/ArrayJsonHandler.h>", "<CesiumJsonReader/DictionaryJsonHandler.h>",
        "<CesiumJsonReader/IntegerJsonHandler.h>"]))) := by
    decide +kernel
  obtain ⟨⟨found, draft⟩, hcall, rfl⟩ := Option.map_eq_some_iff.mp hresolve
  rw [hcall, Option.bind_some] at hfinish
  obtain ⟨⟨table, after⟩, hlinked, hfirst⟩ := Option.map_eq_some_iff.mp hfinish
  rw [List.getElem?_map] at hfirst
  obtain ⟨c, hc, hobject⟩ := Option.map_eq_some_iff.mp hfirst
  obtain ⟨object, hobject, hheaders⟩ := Option.map_eq_some_iff.mp hobject
  obtain ⟨hmodel, hreader⟩ := Prod.mk.inj hheaders
  obtain ⟨hneeded, hread, -⟩ := headers_exact (Called.none.resolve hcall) hlinked hc hobject
  exact ⟨draft, table, after, c, object, .resolve .none hcall, hlinked, hc, hobject, hmodel,
    hreader, hneeded, hread⟩

end SchemaClasses
