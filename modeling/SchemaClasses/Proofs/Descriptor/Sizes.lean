import Mathlib.Data.List.Nodup
import SchemaClasses.Descriptor.Build
import SchemaClasses.Proofs.Descriptor.Blocks
import SchemaClasses.Proofs.Descriptor.Nodes

/-!
# Parts of the heap in size statements

The size statements of a type read back, whatever containers are nested in it. What is read are the
parts of the heap that each node of the type owns: one for most nodes that own any, two for a
dictionary. A statement is about the variable that the innermost loop around it binds, and loops
around each other bind different variables.
-/

namespace SchemaClasses

namespace Leaf

/-- What the value at a leaf owns on the heap. -/
def amount? (facets : Facets) (operand : String) : Leaf → Option String
  | integer | index | double | bool => none
  | string => some ("int64_t(" ++ operand ++ ".capacity() * sizeof(char))")
  | enumeration _ =>
    if facets.valueType = "std::string" then
      some ("int64_t(" ++ operand ++ ".capacity() * sizeof(char))")
    else none
  | reference _ _ true => some (operand ++ "->getSizeBytes()")
  | reference _ _ false | inlineObject _ _ | json =>
    some (operand ++ ".getSizeBytes() - int64_t(sizeof(" ++ facets.valueType ++ "))")

end Leaf

namespace Descriptor

/-! ### Blocks of size statements -/

/-- A block that size statements are in. -/
inductive Block
  /-- Looks into a value that may be absent. -/
  | guard (accessor : String)
  /-- Goes through a container, with variables that are named by a number. -/
  | loop (hasKeys : Bool) (number : Nat) (container : String)

namespace Block

def head : Block → String
  | guard accessor => "if (" ++ accessor ++ ")"
  | loop false number container =>
    "for (const auto& " ++ elementAt number ++ " : " ++ container ++ ")"
  | loop true number container =>
    "for (const auto& [" ++ keyAt number ++ ", " ++ elementAt number ++ "] : " ++ container ++ ")"

def number? : Block → Option Nat
  | guard _ => none
  | loop _ number _ => some number

/-- The variables that a block binds. -/
def names : Block → List String
  | guard _ => []
  | loop false number _ => [elementAt number]
  | loop true number _ => [keyAt number, elementAt number]

end Block

def numbers (blocks : List Block) : List Nat := blocks.filterMap Block.number?

/-- What statements in blocks are about: an element in the innermost loop, or the value that an
accessor leads to. -/
def subject (accessor : String) (blocks : List Block) : String :=
  match numbers blocks with
  | [] => accessor
  | number :: _ => elementAt number

/-! ### Parts of the heap -/

/-- How many parts of the heap a type owns by itself. -/
def heapParts : Descriptor → Nat
  | leaf .integer _ | leaf .index _ | leaf .double _ | leaf .bool _ => 0
  | leaf (.enumeration _) facets => if facets.valueType = "std::string" then 1 else 0
  | leaf .string _ | leaf (.reference _ _ _) _ | leaf (.inlineObject _ _) _ | leaf .json _ => 1
  | array _ _ => 1
  | dictionary _ _ => 2

/-- The expression for the value of a node: what may be absent is dereferenced, but a shared asset
is left to its pointer. -/
def operand (node : Descriptor) (subject : String) : String :=
  if node.facets.isOptional && !node.isAsset then "(*" ++ subject ++ ")" else subject

def guards (node : Descriptor) (subject : String) : List Block :=
  if node.facets.isOptional || node.isAsset then [.guard subject] else []

def adds (blocks : List Block) (amount : String) : Statement :=
  ⟨blocks.map Block.head, accumulate amount⟩

def looped (node : Descriptor) (hasKeys : Bool) (subject : String) (number : Nat)
    (around : List Block) : List Block :=
  .loop hasKeys number (node.operand subject) :: (node.guards subject ++ around)

/-- The statements for one node, in the blocks around it. -/
def counted (node : Descriptor) (subject : String) (number : Nat) (around : List Block) :
    List Statement :=
  let value := node.operand subject
  let blocks := node.guards subject ++ around
  match node with
  | leaf kind facets => (kind.amount? facets value).toList.map (adds blocks)
  | array item _ =>
    [adds blocks ("int64_t(sizeof(" ++ item.facets.modelType ++ ") * " ++ value ++ ".capacity())")]
  | dictionary member _ =>
    [adds blocks ("int64_t(" ++ value ++ ".bucket_count() * (sizeof(std::string) + sizeof(" ++
        member.facets.modelType ++ ")))"),
      adds (.loop true number value :: blocks)
        ("int64_t(" ++ keyAt number ++ ".capacity() * sizeof(char))")]

/-- The statements for each node of a type. -/
def accounts (accessor : String) : Descriptor → Nat → List Block → List (List Statement)
  | leaf kind facets, number, around =>
    [(leaf kind facets).counted (subject accessor around) number around]
  | array item facets, number, around =>
    (array item facets).counted (subject accessor around) number around ::
      item.accounts accessor (number + 1)
        ((array item facets).looped false (subject accessor around) number around)
  | dictionary member facets, number, around =>
    (dictionary member facets).counted (subject accessor around) number around ::
      member.accounts accessor (number + 1)
        ((dictionary member facets).looped true (subject accessor around) number around)

variable {accessor : String} {blocks around : List Block} {number : Nat}
variable {node type : Descriptor} {facets : Facets}

@[simp] theorem isBraceless_elementAt (number : Nat) : IsBraceless (elementAt number) :=
  isBraceless_append.mpr ⟨by decide, isBraceless_repr number⟩

@[simp] theorem isBraceless_keyAt (number : Nat) : IsBraceless (keyAt number) :=
  isBraceless_append.mpr ⟨by decide, isBraceless_repr number⟩

theorem isBraceless_subject (h : IsBraceless accessor) (blocks : List Block) :
    IsBraceless (subject accessor blocks) := by
  unfold subject
  split
  · exact h
  · exact isBraceless_elementAt _

theorem isPlain_guard (h : IsBraceless accessor) : IsPlain (Block.guard accessor).head :=
  isPlain_of_ends rfl rfl (by simp +decide [h])

theorem isPlain_loop (hasKeys : Bool) (number : Nat) (h : IsBraceless accessor) :
    IsPlain (Block.loop hasKeys number accessor).head := by
  cases hasKeys <;>
    exact isPlain_of_ends (by simp [isBlank]) rfl (by simp +decide [h])

theorem isPlain_accumulate {amount : String} (h : IsBraceless amount) :
    IsPlain (accumulate amount) :=
  isPlain_of_ends (by simp [accumulator, isBlank]) rfl (by simp +decide [accumulator, h])

theorem operand_of_not_isAsset (h : node.isAsset = false) (subject : String) :
    node.operand subject = unwrapped node.facets subject := by
  simp [operand, unwrapped, h]

theorem isBraceless_operand (h : IsBraceless accessor) (node : Descriptor) :
    IsBraceless (node.operand accessor) := by
  unfold operand
  split
  · simp +decide [h]
  · exact h

theorem length_counted (node : Descriptor) (subject : String) (number : Nat)
    (around : List Block) : (node.counted subject number around).length = node.heapParts := by
  cases node with
  | leaf kind facets =>
    cases kind with
    | enumeration e =>
      by_cases htext : facets.valueType = "std::string" <;>
        simp [counted, heapParts, Leaf.amount?, htext]
    | reference target className isAsset => cases isAsset <;> rfl
    | integer | index | double | bool | string | inlineObject | json => rfl
  | array | dictionary => rfl

/-! ### Reading size statements -/

namespace Reads

variable {heads lines : List String} {said : List Statement}

theorem eq_nil (h : Reads heads [] said) : said = [] := by
  have hread : (heads, []) = (heads, said) := Option.some.inj h
  exact (Prod.mk.inj hread).2.symm

theorem adds {amount : String} (h : IsBraceless amount) (blocks : List Block) :
    Reads (blocks.map Block.head) [accumulate amount] [Descriptor.adds blocks amount] :=
  .states (isPlain_accumulate h)

/-- A value that may be absent is read under its guard. -/
theorem guarded (hasset : node.isAsset = false) (haccessor : IsBraceless accessor)
    (h : Reads ((node.guards accessor ++ around).map Block.head) lines said) :
    Reads (around.map Block.head) (Descriptor.guarded node.facets accessor lines) said := by
  simp only [guards, hasset, Bool.or_false] at h
  unfold Descriptor.guarded
  split
  · rename_i hguarded
    rw [if_pos (Bool.and_eq_true_iff.mp hguarded).1] at h
    exact .braced (isPlain_guard haccessor) h
  · rename_i hguarded
    split at h
    · rename_i hoptional
      obtain rfl : lines = [] := by simpa [hoptional] using hguarded
      rw [h.eq_nil]
      exact .nil _
    · exact h

theorem looped {hasKeys : Bool} {container : String} (hcontainer : IsBraceless container)
    (h : Reads ((Block.loop hasKeys number container :: blocks).map Block.head) lines said) :
    Reads (blocks.map Block.head)
      (if lines.isEmpty then []
        else Descriptor.braced (Block.loop hasKeys number container).head lines) said := by
  split
  · rename_i hempty
    obtain rfl := List.isEmpty_iff.mp hempty
    rw [h.eq_nil]
    exact .nil _
  · exact .braced (isPlain_loop hasKeys number hcontainer) h

end Reads

theorem leafStatements_eq (kind : Leaf) (facets : Facets) (accessor : String)
    (hasset : kind.isAsset = false) :
    leafStatements kind facets accessor = (kind.amount? facets accessor).toList.map accumulate := by
  cases kind with
  | enumeration e =>
    by_cases htext : facets.valueType = "std::string" <;>
      simp [leafStatements, Leaf.amount?, characters, htext]
  | reference target className isAsset =>
    obtain rfl : isAsset = false := hasset
    rfl
  | integer | index | double | bool | string | inlineObject | json => rfl

theorem isBraceless_amount {kind : Leaf} {amount : String} (haccessor : IsBraceless accessor)
    (hvalue : IsBraceless facets.valueType) (h : kind.amount? facets accessor = some amount) :
    IsBraceless amount := by
  have hcharacters : IsBraceless ("int64_t(" ++ accessor ++ ".capacity() * sizeof(char))") := by
    simp +decide [haccessor]
  cases kind with
  | integer | index | double | bool => cases h
  | string =>
    obtain rfl := Option.some.inj h
    exact hcharacters
  | enumeration e =>
    obtain ⟨-, h⟩ := Option.ite_none_right_eq_some.mp h
    obtain rfl := Option.some.inj h
    exact hcharacters
  | reference target className isAsset =>
    cases isAsset <;> obtain rfl := Option.some.inj h <;> simp +decide [haccessor, hvalue]
  | inlineObject | json =>
    obtain rfl := Option.some.inj h
    simp +decide [haccessor, hvalue]

theorem guarded_eq_nil_iff {lines : List String} :
    guarded facets accessor lines = [] ↔ lines = [] := by
  unfold guarded
  split
  · rename_i hguarded
    have hne : lines ≠ [] := by simpa using (Bool.and_eq_true_iff.mp hguarded).2
    exact iff_of_false (List.append_ne_nil_of_left_ne_nil (List.cons_ne_nil _ _) _) hne
  · exact Iff.rfl

/-- Nothing is stated for a type that owns nothing on the heap, and for no other. -/
theorem sizeStatements_eq_nil_iff :
    type.sizeStatements accessor number = [] ↔ type.heapParts = 0 := by
  cases type with
  | leaf kind facets =>
    cases kind with
    | reference target className isAsset =>
      cases isAsset with
      | true => exact iff_of_false (List.cons_ne_nil _ _) nofun
      | false => exact guarded_eq_nil_iff.trans (iff_of_false (List.cons_ne_nil _ _) nofun)
    | enumeration e =>
      refine guarded_eq_nil_iff.trans ?_
      by_cases htext : facets.valueType = "std::string" <;>
        simp [leafStatements, heapParts, htext]
    | integer | index | double | bool => exact guarded_eq_nil_iff.trans (iff_of_true rfl rfl)
    | string | inlineObject | json =>
      exact guarded_eq_nil_iff.trans (iff_of_false (List.cons_ne_nil _ _) nofun)
  | array | dictionary => exact guarded_eq_nil_iff.trans (iff_of_false (List.cons_ne_nil _ _) nofun)

/-- The type names in a type have no braces. -/
def HasBracelessNames (type : Descriptor) : Prop :=
  ∀ node ∈ type.nodes, IsBraceless node.facets.modelType ∧ IsBraceless node.facets.valueType

/-- A shared asset is counted in a guard on the line of its statement. -/
theorem reads_asset (haccessor : IsBraceless accessor) (target : ClassId) (className : String)
    (facets : Facets) (number : Nat) (around : List Block) :
    Reads (around.map Block.head)
      ((leaf (.reference target className true) facets).sizeStatements accessor number)
      ((leaf (.reference target className true) facets).counted accessor number around) := by
  have hamount : IsBraceless (accessor ++ "->getSizeBytes()") := by simp +decide [haccessor]
  have hcounted : (leaf (.reference target className true) facets).counted accessor number around =
      [adds (.guard accessor :: around) (accessor ++ "->getSizeBytes()")] := by
    simp [counted, guards, operand, isAsset, leaf?, Leaf.isAsset, Leaf.amount?]
  have hline (text : String) : "if (" ++ accessor ++ ") \x7b " ++ text ++ " \x7d" =
      (Block.guard accessor).head ++ " \x7b " ++ text ++ " \x7d" := by
    have hhead : (Block.guard accessor).head = "if (" ++ accessor ++ ")" := rfl
    rw [hhead, ← String.toList_inj]
    simp
  rw [hcounted, sizeStatements, hline]
  exact .wraps (isPlain_guard haccessor) (isPlain_accumulate hamount)

theorem reads_leaf {kind : Leaf} (hasset : kind.isAsset = false) (haccessor : IsBraceless accessor)
    (hvalue : IsBraceless facets.valueType) (number : Nat) (around : List Block) :
    Reads (around.map Block.head) ((leaf kind facets).sizeStatements accessor number)
      ((leaf kind facets).counted accessor number around) := by
  have hnode : (leaf kind facets).isAsset = false := hasset
  have hlines : (leaf kind facets).sizeStatements accessor number =
      guarded facets accessor (leafStatements kind facets (unwrapped facets accessor)) := by
    cases kind with
    | reference target className isAsset =>
      obtain rfl : isAsset = false := hasset
      rfl
    | integer | index | double | bool | string | enumeration | inlineObject | json => rfl
  have hoperand : (leaf kind facets).operand accessor = unwrapped facets accessor :=
    operand_of_not_isAsset hnode accessor
  have hbraceless := isBraceless_operand haccessor (leaf kind facets)
  rw [hoperand] at hbraceless
  rw [hlines, leafStatements_eq kind facets _ hasset, counted, hoperand]
  refine .guarded hnode haccessor ?_
  cases hamount : kind.amount? facets (unwrapped facets accessor) with
  | none => exact .nil _
  | some amount => exact .adds (isBraceless_amount hbraceless hvalue hamount) _

theorem sizeStatements_array (item : Descriptor) (facets : Facets) (accessor : String)
    (number : Nat) :
    (array item facets).sizeStatements accessor number =
      let value := (array item facets).operand accessor
      let inner := item.sizeStatements (elementAt number) (number + 1)
      guarded facets accessor
        ([accumulate ("int64_t(sizeof(" ++ item.facets.modelType ++ ") * " ++ value ++
            ".capacity())")] ++
          if inner.isEmpty then [] else braced (Block.loop false number value).head inner) := by
  rw [operand_of_not_isAsset rfl]
  rfl

theorem sizeStatements_dictionary (member : Descriptor) (facets : Facets) (accessor : String)
    (number : Nat) :
    (dictionary member facets).sizeStatements accessor number =
      let value := (dictionary member facets).operand accessor
      guarded facets accessor
        ([accumulate ("int64_t(" ++ value ++ ".bucket_count() * (sizeof(std::string) + sizeof(" ++
            member.facets.modelType ++ ")))")] ++
          braced (Block.loop true number value).head ([characters (keyAt number)] ++
            member.sizeStatements (elementAt number) (number + 1))) := by
  rw [operand_of_not_isAsset rfl]
  rfl

theorem reads_accounts (haccessor : IsBraceless accessor) (hnames : type.HasBracelessNames)
    (number : Nat) (around : List Block) :
    Reads (around.map Block.head) (type.sizeStatements (subject accessor around) number)
      (type.accounts accessor number around).flatten := by
  have hsubject := isBraceless_subject haccessor around
  induction type generalizing number around with
  | leaf kind facets =>
    rw [accounts, List.flatten_singleton]
    cases hasset : kind.isAsset with
    | false => exact reads_leaf hasset hsubject (hnames _ List.mem_cons_self).2 number around
    | true =>
      cases kind with
      | reference target className isAsset =>
        obtain rfl : isAsset = true := hasset
        exact reads_asset hsubject target className facets number around
      | integer | index | double | bool | string | enumeration | inlineObject | json => cases hasset
  | array item facets ih =>
    have hoperand := isBraceless_operand hsubject (array item facets)
    have hitem : item.HasBracelessNames :=
      fun node hnode => hnames node (List.mem_cons_of_mem _ hnode)
    have hmodel := (hitem item (mem_nodes.mpr (.inl rfl))).1
    have hamount : IsBraceless ("int64_t(sizeof(" ++ item.facets.modelType ++ ") * " ++
        (array item facets).operand (subject accessor around) ++ ".capacity())") := by
      simp +decide [hmodel, hoperand]
    have hinner := ih hitem (number + 1)
      ((array item facets).looped false (subject accessor around) number around)
      (isBraceless_subject haccessor _)
    have hread := (Reads.adds hamount _).append (.looped hoperand hinner)
    have hnode : isAsset (array item facets) = false := rfl
    rw [sizeStatements_array, accounts, List.flatten_cons]
    exact .guarded hnode hsubject hread
  | dictionary member facets ih =>
    have hoperand := isBraceless_operand hsubject (dictionary member facets)
    have hmember : member.HasBracelessNames :=
      fun node hnode => hnames node (List.mem_cons_of_mem _ hnode)
    have hmodel := (hmember member (mem_nodes.mpr (.inl rfl))).1
    have hamount : IsBraceless ("int64_t(" ++
        (dictionary member facets).operand (subject accessor around) ++
        ".bucket_count() * (sizeof(std::string) + sizeof(" ++
        member.facets.modelType ++ ")))") := by
      simp +decide [hmodel, hoperand]
    have hkeys : IsBraceless ("int64_t(" ++ keyAt number ++ ".capacity() * sizeof(char))") := by
      simp +decide
    have hinner := ih hmember (number + 1)
      ((dictionary member facets).looped true (subject accessor around) number around)
      (isBraceless_subject haccessor _)
    have hbody := (Reads.adds hkeys _).append hinner
    have hloop := Reads.braced (isPlain_loop true number hoperand) hbody
    have hread := (Reads.adds hamount _).append hloop
    have hnode : isAsset (dictionary member facets) = false := rfl
    rw [sizeStatements_dictionary, accounts, List.flatten_cons]
    exact .guarded hnode hsubject hread

/-! ### Loops around loops -/

theorem numbers_looped (node : Descriptor) (hasKeys : Bool) (subject : String) (number : Nat)
    (around : List Block) :
    numbers (node.looped hasKeys subject number around) = number :: numbers around := by
  unfold looped guards
  split <;> rfl

theorem numbers_guards (node : Descriptor) (subject : String) (around : List Block) :
    numbers (node.guards subject ++ around) = numbers around := by
  unfold guards
  split <;> rfl

/-- As many loops are around a node as there are types around it, with increasing numbers. -/
theorem exists_counted {level : Nat} (h : type.nodes[level]? = some node) (number : Nat)
    (around : List Block) :
    ∃ blocks, numbers blocks = (List.range' number level).reverse ++ numbers around ∧
      (type.accounts accessor number around)[level]? =
        some (node.counted (subject accessor blocks) (number + level) blocks) := by
  induction type generalizing level number around with
  | leaf kind facets =>
    cases level with
    | zero =>
      obtain rfl := Option.some.inj h
      exact ⟨around, rfl, rfl⟩
    | succ level => cases h
  | array inner facets ih | dictionary inner facets ih =>
    cases level with
    | zero =>
      obtain rfl := Option.some.inj h
      exact ⟨around, rfl, rfl⟩
    | succ level =>
      obtain ⟨blocks, hnumbers, hcounted⟩ := ih h (number + 1) (looped _ _ _ number around)
      refine ⟨blocks, ?_, ?_⟩
      · rw [hnumbers, numbers_looped, List.range'_succ, List.reverse_cons, List.append_assoc]
        rfl
      · rw [← Nat.add_assoc, Nat.add_right_comm]
        exact hcounted

theorem mem_names {block : Block} {name : String} (h : name ∈ block.names) :
    ∃ number, block.number? = some number ∧ (name = elementAt number ∨ name = keyAt number) := by
  cases block with
  | guard => cases h
  | loop hasKeys number container =>
    refine ⟨number, rfl, ?_⟩
    cases hasKeys with
    | false => exact .inl (List.mem_singleton.mp h)
    | true =>
      rcases List.mem_cons.mp h with h | h
      · exact .inr h
      · exact .inl (List.mem_singleton.mp h)

theorem elementAt_injective : Function.Injective elementAt := fun _ _ h =>
  Text.repr_injective ((String.append_right_inj _).mp h)

theorem keyAt_injective : Function.Injective keyAt := fun _ _ h =>
  Text.repr_injective ((String.append_right_inj _).mp h)

theorem elementAt_ne_keyAt (number other : Nat) : elementAt number ≠ keyAt other := by
  intro h
  simpa [elementAt, keyAt] using congrArg String.toList h

/-- Loops with different numbers have different variables. -/
theorem nodup_names (h : (numbers blocks).Nodup) : (blocks.flatMap Block.names).Nodup := by
  refine List.nodup_flatMap.mpr ⟨fun block _ => ?_, ?_⟩
  · rcases block with _ | ⟨_ | _, number, _⟩
    · exact List.nodup_nil
    · exact List.nodup_singleton _
    · simp [Block.names, (elementAt_ne_keyAt number number).symm]
  · refine (List.pairwise_filterMap.mp h).imp fun hne name hname hother => ?_
    obtain ⟨number, hnumber, hname⟩ := mem_names hname
    obtain ⟨other, hother, hsame⟩ := mem_names hother
    refine hne number hnumber other hother ?_
    rcases hname with rfl | rfl
    · rcases hsame with hsame | hsame
      · exact elementAt_injective hsame
      · exact absurd hsame (elementAt_ne_keyAt _ _)
    · rcases hsame with hsame | hsame
      · exact absurd hsame.symm (elementAt_ne_keyAt _ _)
      · exact keyAt_injective hsame

/-- The statements for a node are in the loops around it, and those for the keys of a dictionary in
one more. -/
theorem mem_counted {statement : Statement} {subject : String}
    (h : statement ∈ node.counted subject number around) :
    ∃ blocks amount, statement = adds blocks amount ∧
      (numbers blocks = numbers around ∨ numbers blocks = number :: numbers around) := by
  cases node with
  | leaf kind facets =>
    obtain ⟨amount, -, rfl⟩ := List.mem_map.mp h
    exact ⟨_, amount, rfl, .inl (numbers_guards _ _ _)⟩
  | array item facets =>
    obtain rfl := List.mem_singleton.mp h
    exact ⟨_, _, rfl, .inl (numbers_guards _ _ _)⟩
  | dictionary member facets =>
    rcases List.mem_cons.mp h with rfl | h
    · exact ⟨_, _, rfl, .inl (numbers_guards _ _ _)⟩
    · obtain rfl := List.mem_singleton.mp h
      exact ⟨_, _, rfl, .inr (numbers_looped (dictionary member facets) true subject number around)⟩

theorem length_accounts (type : Descriptor) (number : Nat) (around : List Block) :
    (type.accounts accessor number around).length = type.nodes.length := by
  induction type generalizing number around with
  | leaf => rfl
  | array inner facets ih | dictionary inner facets ih =>
    exact congrArg Nat.succ (ih _ _)

instance (type : Descriptor) : Decidable type.HasBracelessNames :=
  inferInstanceAs (Decidable (∀ node ∈ type.nodes, _))

end Descriptor

end SchemaClasses
