import SchemaClasses.Proofs.Descriptor.Nodes
import SchemaClasses.Proofs.Drafting.Complete
import SchemaClasses.Proofs.Drafting.Hollow
import SchemaClasses.Proofs.Enumeration.Acceptance

/-!
# Chains of fragments

The only entry of an `allOf`, and a schema without a class that is referred to, describe the same
value as the fragment around them. Along a chain of such fragments the documentation and the default
that come first win. The default is handed down on the way in and the documentation is put on top on
the way out, so one is a fact about the fragment in which the chain ends and the other about what is
done with its type.
-/

namespace SchemaClasses

def firstDefault (fragments : List Json) : Option Json := fragments.findSome? (·.get? "default")

/-- The first documentation that says something, as a whole. -/
def firstDocumentation (fragments : List Json) : Documentation :=
  ((fragments.map Documentation.ofFragment).find? (!·.isEmpty)).getD .empty

namespace Descriptor

/-- A type with the documentation of the fragments around its own, the outermost first. -/
def documentedBy (type : Descriptor) (outer : List Json) : Descriptor :=
  outer.foldr (fun fragment type => type.documented (.ofFragment fragment)) type

variable (type : Descriptor) (outer : List Json)

theorem documentedBy_concat (fragment : Json) :
    type.documentedBy (outer ++ [fragment]) =
      (type.documented (.ofFragment fragment)).documentedBy outer := by
  simp [documentedBy]

theorem facets_documentedBy :
    (type.documentedBy outer).facets = { type.facets with
      doc := ((outer.map Documentation.ofFragment).find? (!·.isEmpty)).getD type.facets.doc } := by
  induction outer with
  | nil => rfl
  | cons fragment outer ih =>
    change ((type.documentedBy outer).documented _).facets = _
    rw [facets_documented, ih]
    cases hempty : (Documentation.ofFragment fragment).isEmpty <;>
      simp [Documentation.or, hempty]

theorem leaf?_documentedBy : (type.documentedBy outer).leaf? = type.leaf? := by
  induction outer with
  | nil => rfl
  | cons fragment outer ih => exact (leaf?_documented _ _).trans ih

theorem documentedBy_array (item : Descriptor) (facets : Facets) :
    ∃ others, (array item facets).documentedBy outer = array item others := by
  induction outer with
  | nil => exact ⟨facets, rfl⟩
  | cons fragment outer ih =>
    obtain ⟨others, ih⟩ := ih
    refine ⟨_, (congrArg (documented · (.ofFragment fragment)) ih).trans rfl⟩

end Descriptor

namespace Drafting

/-- A fragment leads to another that describes the same value: the only entry of its `allOf`, or a
schema without a class that it refers to. The other one is looked at in the second draft. -/
inductive Forwards (fragment : Json) (draft : Draft) : Json → Draft → Prop
  | entry {inner} : PropertyShape.of fragment = .composite inner →
      Forwards fragment draft inner draft
  | reference {reference document between} : PropertyShape.of fragment = .reference reference →
      LeadsTo reference draft document between → isClassLike document.body = false →
      document.key ∉ between.following →
      Forwards fragment draft document.body
        { between with
          following := document.key :: between.following
          catalog := between.catalog.enter document }

/-- A chain of fragments leads to the last one, past the `outer` ones. -/
inductive Chain : Json → Draft → List Json → Json → Draft → Prop
  | last {fragment draft} : Chain fragment draft [] fragment draft
  | cons {fragment draft next between outer last during} : Forwards fragment draft next between →
      Chain next between outer last during →
      Chain fragment draft (fragment :: outer) last during

variable {owner : Owner} {path : String} {fragment next last : Json} {usage : Usage}
variable {draft between during after : Draft} {outer : List Json} {depth : Nat}

theorem not_forwards (hcomposite : ∀ inner, PropertyShape.of fragment ≠ .composite inner)
    (hreference : ∀ reference, PropertyShape.of fragment ≠ .reference reference) :
    ¬Forwards fragment draft next between
  | .entry hshape => hcomposite _ hshape
  | .reference hshape _ _ _ => hreference _ hshape

/-! ### Outwards -/

section

variable {α β : Type} {result : α}

theorem bind_eq {first : Drafting α} {rest : α → Drafting β}
    (h : first draft = some (result, between)) : (first >>= rest) draft = rest result between := by
  change (first draft).bind _ = _
  rw [h, Option.bind_some]

theorem map_eq {action : Drafting α} {f : α → β} (h : action draft = some (result, after)) :
    (f <$> action) draft = some (f result, after) := by
  rw [map_eq_pure_bind, bind_eq h]
  rfl

theorem inContext_eq {document : Document} {action : Drafting α}
    (h : action { draft with catalog := draft.catalog.enter document } = some (result, after)) :
    inContext document action draft =
      some (result, { after with catalog := after.catalog.leave }) :=
  (bind_eq rfl).trans ((bind_eq h).trans rfl)

theorem whileFollowing_eq {key : String} {action : Drafting α}
    (h : action { draft with following := key :: draft.following } = some (result, after)) :
    whileFollowing key action draft =
      some (result, { after with following := after.following.tail }) :=
  (bind_eq rfl).trans ((bind_eq rfl).trans ((bind_eq h).trans rfl))

end

/-- What is found for a schema without a class is found for a reference to it. -/
theorem referenceType_eq {resolve : Resolve Option} {reference : String} {document : Document}
    {type : Descriptor} (hleads : LeadsTo reference draft document between)
    (hclass : isClassLike document.body = false) (hkey : document.key ∉ between.following)
    (h : resolve path document.body (usage.inside document.body)
      { between with
        following := document.key :: between.following
        catalog := between.catalog.enter document } = some (some type, after)) :
    referenceType depth resolve owner path reference usage draft =
      some (type, { after with
        following := after.following.tail
        catalog := after.catalog.leave }) := by
  unfold referenceType followedType
  rw [bind_eq hleads.loads]
  dsimp only
  rw [if_neg hleads.notIndex, get_bind, if_neg hleads.notJson, hclass, if_neg (by decide), get_bind,
    if_neg hkey, bind_eq (whileFollowing_eq (inContext_eq h))]
  rfl

/-- What is found for the next fragment of a chain is found, with documentation on top, one level
further out. -/
theorem Forwards.fragmentType_eq {type : Descriptor} (h : Forwards fragment draft next between)
    (hnext : fragmentType owner depth path next (usage.inside next) between =
      some (some type, during)) :
    ∃ after, fragmentType owner (depth + 1) path fragment usage draft =
      some (some (type.documented (.ofFragment fragment)), after) := by
  cases h with
  | entry hshape =>
    refine ⟨during, ?_⟩
    rw [fragmentType]
    simp only [hshape]
    exact (bind_eq hnext).trans rfl
  | reference hshape hleads hclass hkey =>
    refine ⟨{ during with
      following := during.following.tail
      catalog := during.catalog.leave }, ?_⟩
    rw [fragmentType]
    simp only [hshape]
    exact (bind_eq (map_eq (referenceType_eq hleads hclass hkey hnext))).trans rfl

theorem Forwards.naming (h : Forwards fragment draft next between) :
    between.naming = draft.naming := by
  cases h with
  | entry => rfl
  | reference _ hleads => exact (load_grows hleads.loads).naming

theorem Chain.naming (h : Chain fragment draft outer last during) :
    during.naming = draft.naming := by
  induction h with
  | last => rfl
  | cons hforwards _ ih => exact ih.trans hforwards.naming

/-! ### Inwards -/

theorem load_unique {reference other : String} {document : Document} {found : Option Document}
    (hreference : PropertyShape.of fragment = .reference reference)
    (hload : load reference draft = some (some document, between))
    (hother : PropertyShape.of fragment = .reference other)
    (hfound : load other draft = some (found, after)) :
    found = some document ∧ after = between := by
  obtain rfl := PropertyShape.reference.inj (hreference.symm.trans hother)
  exact Prod.mk.inj (Option.some.inj (hfound.symm.trans hload))

/-- A fragment that leads to another has its type from there. -/
theorem Types.forwarded {found : Option Descriptor}
    (h : Types owner path fragment usage draft found after)
    (hforwards : Forwards fragment draft next between) :
    ∃ inner during, Types owner path next (usage.inside next) between inner during ∧
      ∀ type, inner = some type → found = some (type.documented (.ofFragment fragment)) := by
  cases hforwards with
  | entry hentry =>
    cases h with
    | composite hshape hinner =>
      obtain rfl := PropertyShape.composite.inj (hentry.symm.trans hshape)
      exact ⟨_, _, hinner, fun type htype => by rw [htype, Option.map_some]⟩
    | empty hshape | enumeration hshape | anyItems hshape | array hshape | scalar hshape
    | inlineObject hshape | anyValues hshape | dictionary hshape | missing hshape | index hshape
    | json hshape | reference hshape | circular hshape | followed hshape | unsupported hshape =>
      cases hentry.symm.trans hshape
  | @reference reference document loaded hreference hleads hclass hkey =>
    cases h with
    | missing hshape hload => cases (load_unique hreference hleads.loads hshape hload).1
    | index hshape hload hindex =>
      obtain ⟨⟨⟩, rfl⟩ := load_unique hreference hleads.loads hshape hload
      exact absurd hindex hleads.notIndex
    | json hshape hload hjson =>
      obtain ⟨⟨⟩, rfl⟩ := load_unique hreference hleads.loads hshape hload
      exact absurd hjson hleads.notJson
    | reference hshape hother hlike =>
      obtain ⟨⟨⟩, rfl⟩ := load_unique hreference hleads.loads hshape hother.loads
      cases hclass.symm.trans hlike
    | circular hshape hother _ hmem =>
      obtain ⟨⟨⟩, rfl⟩ := load_unique hreference hleads.loads hshape hother.loads
      exact absurd hmem hkey
    | followed hshape hother _ _ hinner =>
      obtain ⟨⟨⟩, rfl⟩ := load_unique hreference hleads.loads hshape hother.loads
      exact ⟨_, _, hinner, fun type htype => by rw [htype, Option.getD_some]⟩
    | empty hshape | enumeration hshape | anyItems hshape | array hshape | scalar hshape
    | inlineObject hshape | anyValues hshape | dictionary hshape | composite hshape
    | unsupported hshape => cases hreference.symm.trans hshape

/-! ### Along a chain -/

theorem firstDefault_cons (default : Option Json) (fragments : List Json) :
    default.or (firstDefault (fragment :: fragments)) =
      (default.or (fragment.get? "default")).or (firstDefault fragments) := by
  cases default <;> cases h : fragment.get? "default" <;> simp [firstDefault, h]

/-- What is found for the last fragment of a chain is found for the first one, with the
documentation of all before the last on top. The default is the first one there is. -/
theorem Chain.fragmentType_eq (h : Chain fragment draft outer last during) {isRequired : Bool}
    (default : Option Json) {type : Descriptor} {stop : Draft}
    (hlast : fragmentType owner depth path last
      ⟨isRequired, default.or (firstDefault (outer ++ [last]))⟩ during = some (some type, stop)) :
    ∃ after, fragmentType owner (outer.length + depth) path fragment
      ⟨isRequired, default.or (fragment.get? "default")⟩ draft =
        some (some (type.documentedBy outer), after) := by
  induction h generalizing default with
  | @last fragment draft =>
    refine ⟨stop, ?_⟩
    simpa [firstDefault, Descriptor.documentedBy] using hlast
  | @cons fragment draft next between outer last during hforwards _ ih =>
    rw [List.cons_append, firstDefault_cons] at hlast
    obtain ⟨after, hnext⟩ := ih _ hlast
    rw [List.length_cons, Nat.add_right_comm]
    exact hforwards.fragmentType_eq hnext

theorem Chain.eq_cons (h : Chain fragment draft outer last during) :
    ∃ rest, outer ++ [last] = fragment :: rest := by
  cases h with
  | last => exact ⟨[], rfl⟩
  | cons => exact ⟨_, rfl⟩

/-- The type that is found for the first fragment of a chain is found for the last one. Of the
defaults that the fragments declare, that of the first one counts only as far as the place of the
chain takes it up. -/
theorem Chain.types_from (h : Chain fragment draft outer last during) {found : Option Descriptor}
    (htypes : Types owner path fragment usage draft found after) :
    ∃ inner stop, Types owner path last
        ⟨usage.isRequired, usage.default.or (firstDefault (outer ++ [last]).tail)⟩ during inner
        stop ∧
      ∀ type, inner = some type → found = some (type.documentedBy outer) := by
  induction h generalizing usage found after with
  | @last fragment draft =>
    refine ⟨found, after, ?_, fun type htype => htype⟩
    simpa [firstDefault] using htypes
  | @cons fragment draft next between outer last during hforwards hrest ih =>
    obtain ⟨middle, stop, hnext, houter⟩ := htypes.forwarded hforwards
    obtain ⟨inner, stop, hlast, hmiddle⟩ := ih hnext
    obtain ⟨rest, hfragments⟩ := hrest.eq_cons
    rw [List.cons_append, List.tail_cons, hfragments, firstDefault_cons]
    rw [hfragments, List.tail_cons] at hlast
    exact ⟨inner, stop, hlast, fun type htype => houter _ (hmiddle type htype)⟩

theorem Chain.types (h : Chain fragment draft outer last during) {isRequired : Bool}
    (default : Option Json) {found : Option Descriptor}
    (htypes : Types owner path fragment ⟨isRequired, default.or (fragment.get? "default")⟩ draft
      found after) :
    ∃ inner stop, Types owner path last
        ⟨isRequired, default.or (firstDefault (outer ++ [last]))⟩ during inner stop ∧
      ∀ type, inner = some type → found = some (type.documentedBy outer) := by
  obtain ⟨rest, hfragments⟩ := h.eq_cons
  obtain ⟨inner, stop, hlast, houter⟩ := h.types_from htypes
  rw [hfragments, List.tail_cons] at hlast
  rw [hfragments, firstDefault_cons]
  exact ⟨inner, stop, hlast, houter⟩

/-! ### The end of a chain -/

/-- What a type is before it is documented, as far as the shape of its fragment alone settles it. -/
structure Undocumented (owner : Owner) (path : String) (fragment : Json) (usage : Usage)
    (naming : Naming) (type : Descriptor) : Prop where
  doc : type.facets.doc = .empty
  scalar : ∀ kind, PropertyShape.of fragment = .scalar kind →
    type = .scalar kind usage.isOptional usage.default
  array : ∀ items, PropertyShape.of fragment = .array items →
    ∃ item, type = .arrayOf item usage.default
  enumeration : PropertyShape.of fragment = .enumeration →
    ∀ e, Enumeration.ofFragment (Naming.capitalized (Naming.baseProperty path))
      (naming.qualified owner.typeName) fragment usage.default = .ok e →
      type = .enumeration naming owner.typeName e usage.isOptional

theorem enumerationType_eq {e : Enumeration}
    (hread : Enumeration.ofFragment (Naming.capitalized (Naming.baseProperty path))
      (draft.naming.qualified owner.typeName) fragment usage.default = .ok e) :
    enumerationType owner path fragment usage draft =
      some (.enumeration draft.naming owner.typeName e usage.isOptional, draft) := by
  have hfound : enumerationOf (owner.label path) (Naming.capitalized (Naming.baseProperty path))
      (draft.naming.qualified owner.typeName) fragment usage.default draft =
        some (some e, draft) := by
    unfold enumerationOf
    rw [hread]
    rfl
  unfold enumerationType
  rw [get_bind, bind_eq hfound]
  rfl

/-- A fragment that leads to no other has its type from its own shape. -/
theorem Types.undocumented {found : Option Descriptor}
    (h : Types owner path fragment usage draft found after)
    (hends : ∀ next between, ¬Forwards fragment draft next between) :
    ∀ type, found = some type → ∃ bare, type = bare.documented (.ofFragment fragment) ∧
      Undocumented owner path fragment usage draft.naming bare := by
  intro type htype
  cases h with
  | empty => cases htype
  | enumeration hshape hfound =>
    cases htype
    refine ⟨_, rfl, ?_, ?_, ?_, fun _ e hread => ?_⟩
    · obtain ⟨e, rfl, -⟩ | ⟨fault, rfl, -⟩ := enumerationType_inv hfound <;> rfl
    · simp [hshape]
    · simp [hshape]
    · exact (Prod.mk.inj (Option.some.inj (hfound.symm.trans (enumerationType_eq hread)))).1
  | @array _ _ _ _ _ _ _ hshape =>
    obtain ⟨item, -, rfl⟩ := Option.map_eq_some_iff.mp htype
    refine ⟨_, rfl, rfl, ?_, fun _ _ => ⟨item, rfl⟩, ?_⟩ <;> simp [hshape]
  | anyItems hshape =>
    cases htype
    refine ⟨_, rfl, rfl, ?_, fun _ _ => ⟨_, rfl⟩, ?_⟩ <;> simp [hshape]
  | scalar hshape =>
    cases htype
    refine ⟨_, rfl, rfl, fun kind hkind => ?_, ?_, ?_⟩
    · obtain rfl := PropertyShape.scalar.inj (hshape.symm.trans hkind)
      rfl
    · simp [hshape]
    · simp [hshape]
  | @inlineObject _ _ _ _ _ _ id _ hshape =>
    cases htype
    refine ⟨_, rfl, ?_, ?_, ?_, ?_⟩
    · cases id <;> rfl
    all_goals simp [hshape]
  | @reference _ _ _ _ _ document between id _ hshape =>
    cases htype
    refine ⟨_, rfl, ?_, ?_, ?_, ?_⟩
    · cases id with
      | none => rfl
      | some target =>
        cases hasset : (document.title?.map between.settings.isAsset).getD false <;> rfl
    all_goals simp [hshape]
  | followed hshape hleads hclass hkey =>
    exact absurd (.reference hshape hleads hclass hkey) (hends _ _)
  | composite hshape => exact absurd (.entry hshape) (hends _ _)
  | anyValues hshape | dictionary hshape | missing hshape | index hshape | json hshape
  | circular hshape | unsupported hshape =>
    cases htype
    refine ⟨_, rfl, rfl, ?_, ?_, ?_⟩ <;> simp [hshape]

/-- Along a chain of fragments whose last one has a type, the property has a type as well, with the
documentation that comes first. When the last fragment is a scalar, an array or an enumeration, the
default is the one that comes first, and a scalar or an enumeration is optional when there is none
and it may be missing. -/
theorem propertyType_along_chain {name : String} {isRequired : Bool} {inner : Descriptor}
    {stop : Draft} (hchain : Chain fragment draft outer last during)
    (hends : ∀ next between, ¬Forwards last during next between)
    (hlast : fragmentType owner depth name last
      ⟨isRequired, firstDefault (outer ++ [last])⟩ during = some (some inner, stop)) :
    (∃ type after, propertyType (outer.length + depth) owner name fragment isRequired draft =
      some (some type, after)) ∧
    ∀ more found after, propertyType more owner name fragment isRequired draft =
      some (found, after) → ∃ type, found = some type ∧
        type.facets.doc = firstDocumentation (outer ++ [last]) ∧
        (∀ kind, PropertyShape.of last = .scalar kind →
          type.leaf? = some (Descriptor.scalarLeaf kind) ∧
          type.facets.defaultValue = (firstDefault (outer ++ [last])).bind Json.literal? ∧
          (type.facets.isOptional = true ↔
            isRequired = false ∧ firstDefault (outer ++ [last]) = none)) ∧
        (∀ items, PropertyShape.of last = .array items →
          (∃ item facets, type = .array item facets) ∧
          type.facets.defaultValue = (firstDefault (outer ++ [last])).bind Json.literal?) ∧
        (PropertyShape.of last = .enumeration →
          ∀ e, Enumeration.ofFragment (Naming.capitalized (Naming.baseProperty name))
            (draft.naming.qualified owner.typeName) last (firstDefault (outer ++ [last])) = .ok e →
          type.leaf? = some (.enumeration e) ∧
          (∃ v, Enumeration.IsDefault (firstDefault (outer ++ [last])) e.variants v ∧
            e.defaultIdentifier = some v.identifier) ∧
          (type.facets.isOptional = true ↔
            isRequired = false ∧ firstDefault (outer ++ [last]) = none) ∧
          type.facets.defaultValue = if type.facets.isOptional then none
            else e.defaultIdentifier.map fun identifier => e.name ++ "::" ++ identifier) := by
  refine ⟨?_, fun more found after h => ?_⟩
  · obtain ⟨after, h⟩ := hchain.fragmentType_eq none hlast
    exact ⟨_, after, h⟩
  · obtain ⟨result, stop', htypes, houter⟩ := hchain.types none (fragmentType_types h)
    have hsolid : result ≠ none := fun hnone =>
      nomatch (fragmentType_types hlast).eq_none_iff.mpr (htypes.eq_none_iff.mp hnone)
    obtain ⟨type, rfl⟩ := Option.ne_none_iff_exists'.mp hsolid
    obtain ⟨bare, rfl, hbare⟩ := htypes.undocumented hends type rfl
    refine ⟨_, houter _ rfl, ?_⟩
    rw [← Descriptor.documentedBy_concat, Descriptor.facets_documentedBy,
      Descriptor.leaf?_documentedBy]
    obtain ⟨hdoc, hscalar, harray, henum⟩ := hbare
    refine ⟨by rw [hdoc]; rfl, fun kind hkind => ?_, fun items hitems => ?_,
      fun hshape e hread => ?_⟩
    · rw [hscalar kind hkind]
      exact ⟨rfl, rfl, Usage.isOptional_iff⟩
    · obtain ⟨item, rfl⟩ := harray items hitems
      exact ⟨⟨item, Descriptor.documentedBy_array _ _ _⟩, rfl⟩
    · rw [hchain.naming] at henum
      rw [henum hshape e hread]
      exact ⟨rfl, Enumeration.isDefault_of_ofFragment hread, Usage.isOptional_iff, rfl⟩

/-- The only entry of the `allOf` refers to a file with a default of its own. -/
theorem exists_chain_reference :
    let fragment : Json :=
      .obj [("allOf", .arr [.referringTo "d"]), ("description", .str "outer")]
    let start : Draft := .new (.new (.ofSchemas [("d", .obj [("type", .str "integer"),
      ("description", .str "inner"), ("default", .num (.int 2))])]) ["/s"] []) .empty
      (.ofNamespace "N")
    ∃ last during, Chain fragment start [fragment, .referringTo "d"] last during ∧
      PropertyShape.of last = .scalar .integer ∧
      (firstDefault [fragment, .referringTo "d", last]).bind Json.literal? = some "2" := by
  intro fragment start
  have hload : (load "d" start : Option _).bind (fun loaded => loaded.1.map fun document =>
      (document.title?, loaded.2.displayName document, isClassLike document.body,
        decide (document.key ∈ loaded.2.following), (match PropertyShape.of document.body with
          | .scalar .integer => true
          | _ => false),
        (document.body.get? "default").bind Json.literal?)) =
      some (none, "D", false, false, true, some "2") := by
    decide +kernel
  obtain ⟨⟨found, loaded⟩, hload, hfound⟩ := Option.bind_eq_some_iff.mp hload
  obtain ⟨document, hdocument, hfacts⟩ := Option.map_eq_some_iff.mp hfound
  obtain rfl : found = some document := hdocument
  simp only [Prod.mk.injEq] at hfacts
  obtain ⟨htitle, hname, hclass, hkey, hshape, hdefault⟩ := hfacts
  have hscalar : PropertyShape.of document.body = .scalar .integer := by
    split at hshape
    · assumption
    · cases hshape
  have hleads : LeadsTo "d" start document loaded :=
    ⟨hload, by rw [htitle]; nofun, by rw [hname]; decide⟩
  have houter : fragment.get? "default" = none := rfl
  have hinner : (Json.referringTo "d").get? "default" = none := rfl
  refine ⟨document.body, _, .cons (.entry rfl) (.cons (.reference rfl hleads hclass
    (of_decide_eq_false hkey)) .last), hscalar, ?_⟩
  simpa [firstDefault, houter, hinner] using hdefault

theorem exists_of_toOption {ε α β : Type} {result : Except ε α} {f : α → β} {b : β}
    (h : result.toOption.map f = some b) : ∃ a, result = .ok a ∧ f a = b := by
  cases result with
  | error fault => cases h
  | ok a => exact ⟨a, rfl, Option.some.inj h⟩

/-- The first property has the documentation around the reference and the default behind it. In the
second one the default around the entry is that of the enumeration. -/
theorem propertyType_along_chain_reference :
    (let fragment : Json :=
      .obj [("allOf", .arr [.referringTo "d"]), ("description", .str "outer")]
    let start : Draft := .new (.new (.ofSchemas [("d", .obj [("type", .str "integer"),
      ("description", .str "inner"), ("default", .num (.int 2))])]) ["/s"] []) .empty
      (.ofNamespace "N")
    ∃ last during type after,
      Chain fragment start [fragment, .referringTo "d"] last during ∧
      propertyType 8 (ownerOf fragment) "p" fragment false start = some (some type, after) ∧
      type.facets.doc = ⟨some "outer", none⟩ ∧ type.facets.defaultValue = some "2" ∧
      type.facets.isOptional = false) ∧
    let last : Json := .obj [("type", .str "string"), ("enum", .arr [.str "A", .str "B"]),
      ("default", .str "A")]
    let fragment : Json := .obj [("allOf", .arr [last]), ("default", .str "B")]
    let start : Draft := .new (.new (.rootedAt []) [] []) .empty (.ofNamespace "N")
    ∃ type after e, Chain fragment start [fragment] last start ∧
      propertyType 8 (ownerOf fragment) "p" fragment false start = some (some type, after) ∧
      type.leaf? = some (.enumeration e) ∧ e.defaultIdentifier = some "B" ∧
      type.facets.defaultValue = some "P::B" ∧ type.facets.isOptional = false := by
  constructor
  · intro fragment start
    obtain ⟨last, during, hchain, hscalar, hliteral⟩ := exists_chain_reference
    have hends : ∀ next between, ¬Forwards last during next between :=
      fun _ _ => not_forwards (by simp [hscalar]) (by simp [hscalar])
    obtain ⟨inner, stop, hlast⟩ : ∃ inner stop, fragmentType (ownerOf fragment) 6 "p" last
        ⟨false, firstDefault [fragment, .referringTo "d", last]⟩ during =
          some (some inner, stop) := by
      simp only [fragmentType, hscalar]
      exact ⟨_, _, rfl⟩
    obtain ⟨⟨type, after, htype⟩, hfacts⟩ := propertyType_along_chain hchain hends hlast
    obtain ⟨_, ⟨⟩, hdoc, hvalue, -⟩ := hfacts _ _ _ htype
    obtain ⟨-, hvalue, hoptional⟩ := hvalue _ hscalar
    refine ⟨last, during, type, after, hchain, htype, hdoc, hvalue.trans hliteral, ?_⟩
    rw [← Bool.not_eq_true, hoptional]
    rintro ⟨-, hnone⟩
    cases (congrArg (·.bind Json.literal?) hnone).symm.trans hliteral
  · intro last fragment start
    have hshape : PropertyShape.of last = .enumeration := rfl
    have hchain : Chain fragment start [fragment] last start := .cons (.entry rfl) .last
    have hends : ∀ next between, ¬Forwards last start next between :=
      fun _ _ => not_forwards (by simp [hshape]) (by simp [hshape])
    have hfirst : firstDefault [fragment, last] = some (.str "B") := rfl
    have hread : (Enumeration.ofFragment (Naming.capitalized (Naming.baseProperty "p"))
        (start.naming.qualified (ownerOf fragment).typeName) last (some (.str "B"))).toOption.map
          (fun e => (e.name, e.defaultIdentifier)) = some ("P", some "B") := by
      decide +kernel
    obtain ⟨e, hok, hfacts⟩ := exists_of_toOption hread
    obtain ⟨hname, hidentifier⟩ := Prod.mk.inj hfacts
    obtain ⟨inner, stop, hlast⟩ : ∃ inner stop, fragmentType (ownerOf fragment) 7 "p" last
        ⟨false, firstDefault [fragment, last]⟩ start = some (some inner, stop) := by
      rw [fragmentType]
      simp only [hshape]
      exact ⟨_, _, (bind_eq (map_eq (enumerationType_eq hok))).trans rfl⟩
    obtain ⟨⟨type, after, htype⟩, hfacts⟩ := propertyType_along_chain hchain hends hlast
    obtain ⟨_, ⟨⟩, -, -, -, henum⟩ := hfacts _ _ _ htype
    obtain ⟨hleaf, -, hoptional, hvalue⟩ := henum hshape e hok
    have hdeclared : type.facets.isOptional = false := by
      rw [← Bool.not_eq_true, hoptional]
      rintro ⟨-, hnone⟩
      cases hfirst.symm.trans hnone
    rw [hdeclared, hname, hidentifier] at hvalue
    exact ⟨type, after, e, hchain, htype, hleaf, hidentifier, hvalue, hdeclared⟩

end Drafting

end SchemaClasses
