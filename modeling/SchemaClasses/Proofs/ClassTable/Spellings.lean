import SchemaClasses.Proofs.ClassTable.Headers
import SchemaClasses.Proofs.Drafting.TypeNames

/-!
# Spellings of a name

A class of the models may be named with their namespace or without it. A name is cut at its last
separator, so either spelling is read as the same namespace and the same bare name, and whatever is
made of a name is made of these two. The exception is a bare name that starts with a colon: behind a
namespace the last separator takes that colon, and leaves the namespace one of its own. So a list
that has each entry once has each class once in one form, and the lists of headers in a class table
are such lists.
-/

namespace SchemaClasses

namespace Text

variable {s : Char} {sep cs before after : List Char}

theorem cutLast_cons_eq_none {c : Char} :
    cutLast sep (c :: cs) = none ↔ cutLast sep cs = none ∧ ¬sep <+: c :: cs := by
  rw [cutLast]
  cases cutLast sep cs <;> simp

/-- A text is cut at a separator when none begins after it does, not even inside it. -/
theorem cutLast_eq_some_iff :
    cutLast (s :: sep) cs = some (before, after) ↔
      cs = before ++ s :: (sep ++ after) ∧ cutLast (s :: sep) (sep ++ after) = none := by
  constructor
  · intro h
    induction cs generalizing before with
    | nil => cases h
    | cons c rest ih =>
      rw [cutLast] at h
      cases hrest : cutLast (s :: sep) rest with
      | some found =>
        rw [hrest] at h
        obtain ⟨rfl, rfl⟩ := Prod.mk.inj (Option.some.inj h)
        obtain ⟨htext, hnone⟩ := ih hrest
        exact ⟨congrArg (c :: ·) htext, hnone⟩
      | none =>
        rw [hrest] at h
        obtain ⟨hahead, hparts⟩ := Option.ite_none_right_eq_some.mp h
        obtain ⟨rfl, hafter⟩ := Prod.mk.inj (Option.some.inj hparts)
        obtain ⟨more, hmore⟩ := List.isPrefixOf_iff_prefix.mp hahead
        rw [← hmore, List.drop_left] at hafter
        obtain ⟨rfl, rfl⟩ := List.cons.inj hmore
        exact ⟨by rw [hafter]; rfl, hafter ▸ hrest⟩
  · rintro ⟨rfl, hnone⟩
    induction before with
    | nil =>
      rw [List.nil_append, cutLast, hnone]
      simp
    | cons c before ih => rw [List.cons_append, cutLast, ih]

end Text

/-- What a type name becomes in generated code. -/
inductive NameForm where
  | qualified
  | header
  | handler
  | readerHeader
  | handlerHeader
  | writer

namespace Naming

variable {naming : Naming} {name other : String}

def form (naming : Naming) : NameForm → String → String
  | .qualified => naming.qualified
  | .header => naming.header
  | .handler => naming.handler
  | .readerHeader => naming.readerHeader
  | .handlerHeader => naming.handlerHeader
  | .writer => naming.writer

/-- Two names that become the same in every form. -/
def Interchangeable (naming : Naming) (name other : String) : Prop :=
  ∀ form, naming.form form name = naming.form form other

def startsWithColon (text : String) : Bool := [':'].isPrefixOf text.toList

/-! ### Cutting names -/

/-- A name that is read back behind any namespace: nothing can be cut off it, not even together with
a colon before it. -/
def IsBare (name : String) : Prop := Text.cutLast [':', ':'] (':' :: name.toList) = none

theorem isBare_iff :
    IsBare name ↔ Text.cutLast [':', ':'] name.toList = none ∧ startsWithColon name = false := by
  rw [IsBare, Text.cutLast_cons_eq_none, startsWithColon]
  simp [← List.isPrefixOf_iff_prefix]

theorem isBare_of_not_mem (h : ':' ∉ name.toList) : IsBare name := by
  refine isBare_iff.mpr ⟨Text.cutLast_eq_none h, ?_⟩
  rw [startsWithColon, Bool.eq_false_iff, ne_eq, List.isPrefixOf_iff_prefix]
  exact fun hahead => h (hahead.subset List.mem_cons_self)

theorem split_append (own : String) (h : IsBare name) :
    split (own ++ "::" ++ name) = (some own, name) := by
  have hcut : Text.cutLast [':', ':'] (own ++ "::" ++ name).toList =
      some (own.toList, name.toList) :=
    Text.cutLast_eq_some_iff.mpr ⟨by simp, h⟩
  rw [split, hcut]
  simp

theorem split_cases (name : String) :
    (split name = (none, name) ∧ Text.cutLast [':', ':'] name.toList = none) ∨
      IsBare (bare name) := by
  cases hcut : Text.cutLast [':', ':'] name.toList with
  | none => exact .inl ⟨by rw [split, hcut], rfl⟩
  | some parts =>
    refine .inr ?_
    rw [bare, split, hcut, IsBare, String.toList_ofList]
    exact (Text.cutLast_eq_some_iff.mp hcut).2

theorem isBare_bare_iff : IsBare (bare name) ↔ startsWithColon (bare name) = false := by
  refine ⟨fun h => (isBare_iff.mp h).2, fun h => ?_⟩
  rcases split_cases name with ⟨hsplit, hnone⟩ | hbare
  · have hname : bare name = name := congrArg Prod.snd hsplit
    rw [hname] at h ⊢
    exact isBare_iff.mpr ⟨hnone, h⟩
  · exact hbare

/-- A name that starts with a colon has no namespace, and behind one its colon is read as the end of
the namespace. -/
theorem colon_inv (h : startsWithColon (bare name) = true) :
    split name = (none, name) ∧ ∃ rest, name = ":" ++ rest ∧ IsBare rest := by
  rcases split_cases name with ⟨hsplit, hnone⟩ | hbare
  · have hname : bare name = name := congrArg Prod.snd hsplit
    rw [hname, startsWithColon, List.isPrefixOf_iff_prefix] at h
    obtain ⟨rest, hrest⟩ := h
    have hrest : ':' :: rest = name.toList := hrest
    refine ⟨hsplit, String.ofList rest, ?_, ?_⟩
    · simp [← String.toList_inj, hrest]
    · rwa [IsBare, String.toList_ofList, hrest]
  · rw [isBare_bare_iff, h] at hbare
    cases hbare

/-! ### Forms of names -/

theorem namespaceOf_append (own : String) (h : IsBare name) :
    naming.namespaceOf (own ++ "::" ++ name) = own := by
  rw [namespaceOf, split_append own h]
  rfl

theorem bare_append (own : String) (h : IsBare name) : bare (own ++ "::" ++ name) = name := by
  rw [bare, split_append own h]

theorem namespaceOf_of_split (h : split name = (none, name)) :
    naming.namespaceOf name = naming.modelNamespace := by
  rw [namespaceOf, h]
  rfl

theorem bare_of_split (h : split name = (none, name)) : bare name = name := by
  rw [bare, h]

theorem qualified_of_split (h : split name = (none, name)) :
    naming.qualified name = naming.modelNamespace ++ "::" ++ name := by
  rw [qualified, namespaceOf_of_split h, bare_of_split h]

theorem interchangeable_of_parts (hnamespace : naming.namespaceOf name = naming.namespaceOf other)
    (hbare : bare name = bare other) : naming.Interchangeable name other := by
  intro form
  have hforeign : naming.isForeign name = naming.isForeign other := by
    rw [isForeign, isForeign, hnamespace]
  cases form <;>
    simp only [Naming.form, qualified, header, handler, readerHeader, handlerHeader, writer,
      readerNamespaceOf, hforeign, hnamespace, hbare]

theorem interchangeable_qualified (h : IsBare (bare name)) :
    naming.Interchangeable (naming.qualified name) name :=
  interchangeable_of_parts (namespaceOf_append _ h) (bare_append _ h)

/-- A name without a colon is qualified with the namespace of the models and read back from it. -/
theorem interchangeable_of_not_mem (h : ':' ∉ name.toList) :
    naming.qualified name = naming.modelNamespace ++ "::" ++ name ∧
      naming.Interchangeable (naming.modelNamespace ++ "::" ++ name) name := by
  have hbare : IsBare name := isBare_of_not_mem h
  have hsplit : split name = (none, name) := by rw [split, (isBare_iff.mp hbare).1]
  have hqualified : naming.qualified name = naming.modelNamespace ++ "::" ++ name :=
    qualified_of_split hsplit
  refine ⟨hqualified, ?_⟩
  rw [← bare_of_split hsplit] at hbare
  exact hqualified ▸ interchangeable_qualified hbare

theorem header_qualified_ne (h : startsWithColon (bare name) = true) :
    naming.header (naming.qualified name) ≠ naming.header name := by
  obtain ⟨hsplit, rest, rfl, hrest⟩ := colon_inv h
  have hqualified : naming.qualified (":" ++ rest) =
      naming.modelNamespace ++ ":" ++ "::" ++ rest := by
    rw [qualified_of_split hsplit]
    simp [← String.toList_inj]
  rw [hqualified, header, header, namespaceOf_append _ hrest, bare_append _ hrest,
    namespaceOf_of_split hsplit, bare_of_split hsplit]
  simp [← String.toList_inj]

/-- The file `:X.h` in the directory `N` becomes the file `X.h` in the directory `N:`. -/
example : let naming := Naming.ofNamespace "N"
    naming.header ":X" = "<N/:X.h>" ∧ naming.header (naming.qualified ":X") = "<N:/X.h>" := by
  decide

theorem interchangeable_qualified_iff :
    naming.Interchangeable (naming.qualified name) name ↔ startsWithColon (bare name) = false := by
  refine ⟨fun h => ?_, fun h => interchangeable_qualified (isBare_bare_iff.mpr h)⟩
  rw [← Bool.not_eq_true]
  exact fun hcolon => header_qualified_ne hcolon (h .header)

/-- Names are interchangeable when they are spellings of one qualified name and are cut alike. -/
theorem interchangeable_iff :
    naming.Interchangeable name other ↔ naming.qualified name = naming.qualified other ∧
      startsWithColon (bare name) = startsWithColon (bare other) := by
  constructor
  · intro h
    have hqualified : naming.qualified name = naming.qualified other := h .qualified
    refine ⟨hqualified, Bool.eq_iff_iff.mpr ?_⟩
    have hsame : naming.Interchangeable (naming.qualified name) name ↔
        naming.Interchangeable (naming.qualified other) other := by
      rw [hqualified]
      exact forall_congr' fun form => by rw [h form]
    simpa [interchangeable_qualified_iff] using not_congr hsame
  · rintro ⟨hqualified, hcolon⟩
    cases hname : startsWithColon (bare name) with
    | false =>
      have hfirst : naming.Interchangeable (naming.qualified name) name :=
        interchangeable_qualified_iff.mpr hname
      have hsecond : naming.Interchangeable (naming.qualified other) other :=
        interchangeable_qualified_iff.mpr (hcolon ▸ hname)
      intro form
      rw [← hfirst form, hqualified, hsecond form]
    | true =>
      obtain ⟨hsplit, -⟩ := colon_inv hname
      obtain ⟨hsplit', -⟩ := colon_inv (hcolon ▸ hname)
      rw [qualified_of_split hsplit, qualified_of_split hsplit', String.append_right_inj]
        at hqualified
      intro form
      rw [hqualified]

/-- A class has one place at most in a list, in whatever form it is listed and by whichever of the
spellings that are cut alike. -/
def ListsOnce (naming : Naming) (entries : List String) : Prop :=
  ∀ (form : NameForm) (name other : String) (i j : Nat),
    naming.qualified name = naming.qualified other →
    startsWithColon (bare name) = startsWithColon (bare other) →
    entries[i]? = some (naming.form form name) → entries[j]? = some (naming.form form other) → i = j

theorem listsOnce_of_nodup {entries : List String} (h : entries.Nodup) :
    naming.ListsOnce entries := by
  intro form name other i j hqualified hcolon hi hj
  have hform := interchangeable_iff.mpr ⟨hqualified, hcolon⟩ form
  obtain ⟨hlt, -⟩ := List.getElem?_eq_some_iff.mp hi
  exact (List.getElem?_inj hlt h).mp (by rw [hi, hj, hform])

end Naming

/-! ### Lists of headers -/

namespace Descriptor

variable {naming : Naming} {owner : String} {isRequired : Bool} {type : Descriptor}

theorem nodup_withOptional {headers : List String} (h : (headers ++ ["<optional>"]).Nodup)
    (isOptional : Bool) : (withOptional headers isOptional).Nodup := by
  cases isOptional with
  | false => exact h.of_append_left
  | true => exact h

theorem nodup_classHeaders (className : String) (isOptional : Bool) :
    (classFacets naming className isOptional).modelHeaders.Nodup := by
  cases isOptional with
  | false => exact List.nodup_singleton _
  | true => exact Ordered.nodup_insert (List.nodup_singleton _) _

/-- A type has each header once, for the member and for the reader. -/
theorem Made.nodup_headers (h : Made naming owner isRequired type) :
    type.facets.modelHeaders.Nodup ∧ type.facets.readerHeaders.Nodup := by
  induction h with
  | index => exact ⟨List.nodup_singleton _, List.nodup_singleton _⟩
  | scalar type =>
    exact ⟨nodup_withOptional (by cases type <;> decide) _, List.nodup_singleton _⟩
  | anyJson => exact ⟨nodup_withOptional (by decide) _, List.nodup_singleton _⟩
  | enumeration e =>
    exact ⟨nodup_withOptional (by cases e.constantType <;> decide) _,
      Ordered.nodup_insert (List.nodup_singleton _) _⟩
  | inlineObject => exact ⟨nodup_classHeaders _ _, List.nodup_singleton _⟩
  | reference target className isAsset =>
    cases isAsset with
    | false => exact ⟨nodup_classHeaders _ _, List.nodup_singleton _⟩
    | true =>
      exact ⟨Ordered.nodup_insert (nodup_classHeaders _ false) _, List.nodup_singleton _⟩
  | arrayOf =>
    exact ⟨Ordered.nodup_union (List.nodup_singleton _) _,
      Ordered.nodup_union (List.nodup_singleton _) _⟩
  | dictionaryOf =>
    exact ⟨Ordered.nodup_union (by decide) _, Ordered.nodup_union (List.nodup_singleton _) _⟩
  | documented outer _ ih => rwa [facets_documented]

theorem Made.nodup_headers_nodes (h : Made naming owner isRequired type) :
    ∀ node ∈ type.nodes, node.facets.modelHeaders.Nodup ∧ node.facets.readerHeaders.Nodup := by
  intro node hnode
  rcases mem_nodes.mp hnode with rfl | hnode
  · exact h.nodup_headers
  · exact (h.inside node hnode).nodup_headers

end Descriptor

theorem Lineage.nodup_headers (lineage : Lineage) : lineage.headers.Nodup := by
  cases lineage with
  | root => exact List.nodup_singleton _
  | derived => exact Ordered.nodup_union (List.nodup_singleton _) _

/-- The types in which a class refers to others. -/
def ClassKind.types : ClassKind → List Descriptor
  | .object own => own.properties.map (·.type)
  | .enumeration _ => []
  | .value type => [type]
  | .unsupported => []

/-- The lists of headers that a class has: of what it derives from, of its own, and at any depth of
its types. -/
inductive ClassDescriptor.HeaderList (c : ClassDescriptor) : List String → Prop
  | basesModel {object} : c.object? = some object → HeaderList c object.bases.model.headers
  | basesReader {object} : c.object? = some object → HeaderList c object.bases.reader.headers
  | model {object} : c.object? = some object → HeaderList c object.modelHeaders
  | reader {object} : c.object? = some object → HeaderList c object.readerHeaders
  | typeModel {type node} : type ∈ c.kind.types → node ∈ type.nodes →
      HeaderList c node.facets.modelHeaders
  | typeReader {type node} : type ∈ c.kind.types → node ∈ type.nodes →
      HeaderList c node.facets.readerHeaders

/-- Linking makes no types. -/
theorem Linking.mem_types_of_mem {l : Linking} {id : ClassId} {drafted : DraftClass}
    {type : Descriptor} (h : type ∈ (l.classOf id drafted).kind.types) :
    type ∈ drafted.body.types := by
  rw [kind_classOf, kind] at h
  cases hbody : drafted.body with
  | object base declared members =>
    rw [hbody] at h
    obtain ⟨p, hp, rfl⟩ := List.mem_map.mp h
    exact List.mem_map_of_mem (List.mem_filter.mp hp).1
  | value own => rwa [hbody] at h
  | enumeration | unsupported =>
    rw [hbody] at h
    cases h

/-- Every list of headers in a table that is linked with nothing pending has each header once. -/
theorem Draft.Orderly.nodup_headers {draft : Draft} {id : ClassId} {c : ClassDescriptor}
    {entries : List String} (orderly : draft.Orderly []) (hpending : draft.pending = [])
    (hc : draft.linking.table.get? id = some c) (h : c.HeaderList entries) : entries.Nodup := by
  obtain ⟨place, drafted, -, -, hclass, rfl⟩ := orderly.class_inv hpending hc
  cases h with
  | basesModel | basesReader => exact Lineage.nodup_headers _
  | model hobject =>
    obtain ⟨_, _, members, -, rfl⟩ := Linking.object?_classOf.mp hobject
    exact Ordered.nodup_union (Lineage.nodup_headers _) _
  | reader hobject =>
    obtain ⟨_, _, members, -, rfl⟩ := Linking.object?_classOf.mp hobject
    exact Ordered.nodup_union (Ordered.nodup_insert (Lineage.nodup_headers _) _) _
  | typeModel htype hnode =>
    obtain ⟨isRequired, hmade⟩ := hclass.made _ (Linking.mem_types_of_mem htype)
    exact (hmade.nodup_headers_nodes _ hnode).1
  | typeReader htype hnode =>
    obtain ⟨isRequired, hmade⟩ := hclass.made _ (Linking.mem_types_of_mem htype)
    exact (hmade.nodup_headers_nodes _ hnode).2

open Drafting

/-- A name without a colon is qualified with the namespace of the models, and becomes the same with
it in every form. Any name does so with the qualified name that it becomes exactly when its bare
name does not start with a colon, and any two names when they become one qualified name and both
bare names start so or neither. Hence a class has one place at most in a list that has each entry
once, and all lists of headers in a class table have each entry once. -/
theorem Naming.spellings_interchangeable (naming : Naming) :
    (∀ name : String, ':' ∉ name.toList →
      naming.qualified name = naming.modelNamespace ++ "::" ++ name ∧
        naming.Interchangeable (naming.modelNamespace ++ "::" ++ name) name) ∧
    (∀ name, naming.Interchangeable (naming.qualified name) name ↔
      startsWithColon (bare name) = false) ∧
    (∀ name other, naming.Interchangeable name other ↔
      naming.qualified name = naming.qualified other ∧
        startsWithColon (bare name) = startsWithColon (bare other)) ∧
    (∀ entries, naming.ListsOnce (Ordered.ofList entries)) ∧
    ∀ {catalog settings ids depth draft table after},
      Called (.new catalog settings naming) ids draft →
      finish depth draft = some (table, after) →
      ∀ id c entries, table.get? id = some c → c.HeaderList entries →
        entries.Nodup ∧ naming.ListsOnce entries := by
  refine ⟨fun _ => interchangeable_of_not_mem, fun _ => interchangeable_qualified_iff,
    fun _ _ => interchangeable_iff,
    fun entries => listsOnce_of_nodup (Ordered.nodup_ofList entries), ?_⟩
  intro catalog settings ids depth draft table after h hfinish id c entries hc hentries
  obtain ⟨orderly, hpending, -, rfl, -⟩ := h.finished hfinish
  have hnodup := orderly.nodup_headers hpending hc hentries
  exact ⟨hnodup, listsOnce_of_nodup hnodup⟩

/-- The settings name one class by two spellings. A class with a member of each needs one header for
both. -/
theorem Naming.spellings_interchangeable_override :
    let naming := Naming.ofNamespace "N::M"
    let settings : Settings := ⟨[("A", ⟨some "N::M::X", false⟩), ("B", ⟨some "X", false⟩)], []⟩
    let files := FileTree.ofSchemas
      [("c", .obj [("type", .str "object"),
        ("properties", .obj [("a", .referringTo "a"), ("b", .referringTo "b")])]),
        ("a", .titledObject "A"), ("b", .titledObject "B")]
    ∃ ids draft table after c object,
      Called (.new (.new files ["/s"] []) settings naming) ids draft ∧
      finish 8 draft = some (table, after) ∧ table.get? 0 = some c ∧ c.object? = some object ∧
      table.map (·.typeName) = ["C", "N::M::X", "X"] ∧
      object.modelHeaders =
        ["<CesiumUtility/ExtensibleObject.h>", "<N::M/X.h>", "<optional>"] ∧
      naming.ListsOnce object.modelHeaders ∧
      ':' ∉ "X".toList ∧ naming.Interchangeable "N::M::X" "X" ∧
      ¬naming.Interchangeable (naming.qualified ":X") ":X" := by
  intro naming settings files
  obtain ⟨ids, draft, table, after, hcalled, hfinish, htable⟩ :=
    exists_finish (.new (.new files ["/s"] []) settings naming)
      (fun finished => (finished.1.map (·.typeName),
        (finished.1.get? 0).bind fun c => c.object?.map fun object => object.modelHeaders))
      (["C", "N::M::X", "X"],
        some ["<CesiumUtility/ExtensibleObject.h>", "<N::M/X.h>", "<optional>"])
      (by decide +kernel)
  obtain ⟨hnames, hfirst⟩ := Prod.mk.inj htable
  obtain ⟨c, hc, hfirst⟩ := Option.bind_eq_some_iff.mp hfirst
  obtain ⟨object, hobject, hheaders⟩ := Option.map_eq_some_iff.mp hfirst
  obtain ⟨hown, hqualified, -, -, hlists⟩ := spellings_interchangeable naming
  have hplain : ':' ∉ "X".toList := by decide
  refine ⟨ids, draft, table, after, c, object, hcalled, hfinish, hc, hobject, hnames, hheaders,
    (hlists hcalled hfinish 0 c _ hc (.model hobject)).2, hplain, (hown "X" hplain).2, ?_⟩
  rw [hqualified]
  decide

end SchemaClasses
