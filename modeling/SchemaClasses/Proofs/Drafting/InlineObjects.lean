import SchemaClasses.Proofs.Drafting.Declared
import SchemaClasses.Proofs.Drafting.Sources

/-!
# Objects that are declared at properties

An object that is declared at or further in from a property gets a class under a key that is made of
the key of its owner and of the path that leads to it. As long as no hash is in the names that keys
are made of, such a key is that of no other kind of document and tells the owner and the path. So
objects at different paths get different classes, and each class is made from its own object, except
where two properties lead to one path: a name may itself have the steps of a path at its end.
-/

namespace SchemaClasses

/-! ### Where an object is declared -/

namespace Draft

variable {draft : Draft}

/-- No hash is in a path, in the name of a field or in the type name of a class. -/
structure HashFree (draft : Draft) : Prop where
  paths : ¬draft.catalog.files.HashInPath
  names : ¬draft.catalog.files.HashInName
  typeNames : ∀ place ∈ draft.places, ∀ drafted, place.drafted = some drafted →
    '#' ∉ drafted.typeName.toList

/-- The key of an object that is declared at a path tells the class in which it is declared, and a
fragment of the class declares the object at the path. -/
theorem Traced.declared_inv (traced : draft.Traced) (sourced : draft.catalog.Sourced)
    (offline : draft.catalog.downloads = []) (documented : draft.Documented)
    (free : draft.HashFree) {document : Document} (known : draft.catalog.Knows document)
    {key path : String} (hpath : '#' ∉ path.toList)
    (hkey : document.key = key ++ "#inline/" ++ path) :
    ∃ (id : ClassId) (place : Place) (drafted : DraftClass) (entry : String × Json) (object : Json),
      draft.places[id]? = some place ∧ place.drafted = some drafted ∧ place.document.key = key ∧
      entry ∈ Owner.fragments ⟨place.document, drafted.typeName⟩ ∧
      DeclaresAt draft.catalog.Follows entry.1 entry.2 path object ∧
      document.body = object.titled (Naming.inlineTitle drafted.typeName path) := by
  cases traced document known.mem with
  | loaded hloads =>
    exact absurd hkey (hloads.key_ne known sourced offline free.paths free.names hpath)
  | @entry owner body heq =>
    rw [heq, Document.firstEntry, Location.inline_eq] at hkey
    have hhash : owner.key ++ "#/allOf/0" = owner.key ++ "#" ++ "/allOf/0" := by
      simp [← String.toList_inj]
    obtain ⟨-, habsurd⟩ := Location.append_inj (by decide) (by simp [hpath]) (hhash.symm.trans hkey)
    simp [← String.toList_inj] at habsurd
  | @declared id place drafted entry inner object source hplace hdrafted hentry hdeclares heq =>
    have hmem := List.mem_of_getElem? hplace
    have hname : '#' ∉ entry.1.toList := by
      by_cases hshape : SchemaShape.of place.document.body = .object
      · rw [Owner.fragments_of_object hshape] at hentry
        exact sourced.hash_not_mem_name offline free.names (documented place hmem) hentry
      · rw [Owner.fragments_of_ne_object hshape] at hentry
        rw [List.mem_singleton.mp hentry]
        exact free.typeNames place hmem drafted hdrafted
    subst heq
    obtain ⟨howner, rfl⟩ := Location.inline_inj (hdeclares.hash_not_mem hname) hpath hkey
    exact ⟨id, place, drafted, entry, object, hplace, hdrafted, howner, hentry, hdeclares, rfl⟩

end Draft

/-! ### The class of an object -/

theorem SchemaShape.alias?_titled (schema : Json) (title : String) :
    SchemaShape.alias? (schema.titled title) = SchemaShape.alias? schema := by
  simp [SchemaShape.alias?, onlyBase?, Json.get?_titled, Json.string?_titled]

namespace Drafting

variable {draft after : Draft} {owner : Owner} {path inner : String} {fragment object : Json}

/-- The type of a fragment that declares an object refers to the class of its document. -/
theorem Types.declared {usage : Usage} {found : Option Descriptor}
    (h : Types owner path fragment usage draft found after)
    (hdeclares : DeclaresHere path fragment inner object) :
    ∃ type document during between id, found = some type ∧
      inlineDocument owner inner object during = some (document, between) ∧
      Interns document between id after ∧ type.core.target? = id := by
  induction hdeclares generalizing usage found with
  | self hshape =>
    obtain ⟨document, between, id, hdocument, hid, rfl⟩ := h.inlineObject_inv hshape
    refine ⟨_, document, _, between, id, rfl, hdocument, hid, ?_⟩
    rw [Descriptor.core_documented]
    cases id <;> rfl
  | items hshape _ ih =>
    obtain ⟨item, hitem, rfl⟩ := h.array_inv hshape
    obtain ⟨type, document, during, between, id, rfl, hdocument, hid, htarget⟩ := ih hitem
    refine ⟨_, document, during, between, id, rfl, hdocument, hid, ?_⟩
    rwa [Descriptor.core_documented, Descriptor.core_arrayOf]
  | values hshape hvalues _ ih =>
    obtain ⟨value, hvalue, rfl⟩ := h.dictionary_inv hshape hvalues
    obtain ⟨type, document, during, between, id, rfl, hdocument, hid, htarget⟩ := ih hvalue
    refine ⟨_, document, during, between, id, rfl, hdocument, hid, ?_⟩
    rwa [Descriptor.core_documented, Descriptor.core_dictionaryOf]
  | entry hshape _ ih =>
    obtain ⟨type, hentry, rfl⟩ := h.composite_inv hshape
    obtain ⟨type, document, during, between, id, rfl, hdocument, hid, htarget⟩ := ih hentry
    refine ⟨_, document, during, between, id, rfl, hdocument, hid, ?_⟩
    rwa [Descriptor.core_documented]
  | followed _ hfollows => exact hfollows.elim

/-- A property that declares an object becomes a member whose type refers to the class of its
document. -/
theorem Members.declared {declared : List (String × Json)} {members : List Property}
    (h : Members owner declared draft members after) {entry : String × Json}
    (hentry : entry ∈ declared) (htyped : entry.1 ∉ impliedProperties)
    (hdeclares : DeclaresHere entry.1 entry.2 inner object) :
    ∃ p ∈ members, p.name = entry.1 ∧ ∃ document during between id stop,
      inlineDocument owner inner object during = some (document, between) ∧
      Interns document between id stop ∧ stop.Within after ∧ p.type.core.target? = id := by
  induction h with
  | nil => cases hentry
  | implied himplied _ ih =>
    rcases List.mem_cons.mp hentry with rfl | hentry
    · exact absurd himplied htyped
    · exact ih hentry
  | stub _ htype _ ih =>
    rcases List.mem_cons.mp hentry with rfl | hentry
    · obtain ⟨_, _, _, _, _, hnone, -⟩ := htype.declared hdeclares
      cases hnone
    · exact ih hentry
  | member _ htype hrest ih =>
    rcases List.mem_cons.mp hentry with rfl | hentry
    · obtain ⟨type, document, during, between, id, ⟨⟩, hdocument, hid, htarget⟩ :=
        htype.declared hdeclares
      exact ⟨_, List.mem_cons_self, rfl, document, during, between, id, _, hdocument, hid,
        hrest.grows.within, htarget⟩
    · obtain ⟨p, hp, hfound⟩ := ih hentry
      exact ⟨p, List.mem_cons_of_mem _ hp, hfound⟩

end Drafting

/-- An object that is declared at or further in from a property of a document, for which a type is
found, and that stands for itself. -/
@[ext]
structure InlineObject (document : Document) where
  name : String
  fragment : Json
  path : String
  body : Json
  property : (name, fragment) ∈ document.properties
  typed : name ∉ impliedProperties
  declares : DeclaresHere name fragment path body
  own : body.string? "$ref" = none

/-- No other property of the document leads to the path of an object, also where references are
followed. -/
def InlineObject.IsAlone {document : Document} (object : InlineObject document)
    (catalog : Catalog) : Prop :=
  ∀ entry ∈ document.properties, ∀ body,
    DeclaresAt catalog.Follows entry.1 entry.2 object.path body →
      entry = (object.name, object.fragment)

theorem InlineObject.eq_of_path {document : Document} {object other : InlineObject document}
    {catalog : Catalog} (h : object.IsAlone catalog) (hpath : other.path = object.path) :
    other = object := by
  have hdeclares := other.declares
  rw [hpath] at hdeclares
  obtain ⟨hname, hfragment⟩ :=
    Prod.mk.inj (h _ other.property _ (hdeclares.mono fun hbody => hbody.elim))
  rw [hname, hfragment] at hdeclares
  exact InlineObject.ext hname hfragment hpath (object.declares.unique hdeclares).2

/-- Without dots in the names of the properties, every object is alone at its path. -/
theorem InlineObject.isAlone_of_dotless {document : Document} (object : InlineObject document)
    (catalog : Catalog) (distinct : (document.properties.map (·.1)).Nodup)
    (dotless : ∀ entry ∈ document.properties, '.' ∉ entry.1.toList) :
    object.IsAlone catalog := by
  intro entry hentry body hdeclares
  refine List.inj_on_of_nodup_map distinct hentry object.property (String.toList_inj.mp ?_)
  rw [← hdeclares.takeWhile_eq (dotless entry hentry),
    ← object.declares.takeWhile_eq (dotless _ object.property)]

namespace Draft

variable {draft : Draft} {id : ClassId} {place : Place}

/-- The type of a property that declares an object refers to one class, which is made from the
object when that is alone at its path. -/
theorem Traced.exists_class (traced : draft.Traced) (orderly : draft.Orderly [])
    (sourced : draft.catalog.Sourced) (offline : draft.catalog.downloads = [])
    (documented : draft.Documented) (free : draft.HashFree) {drafted : DraftClass}
    {base : Option ClassId} {declared : List String}
    {members : List Property} (hplace : draft.places[id]? = some place)
    (hdrafted : place.drafted = some drafted) (hbody : drafted.body = .object base declared members)
    (object : InlineObject place.document) (alone : object.IsAlone draft.catalog) :
    ∃ target, (∃ p ∈ members, p.name = object.name ∧ p.type.classes = [target]) ∧
      ∃ made, draft.places[target]? = some made ∧
        made.document.key = place.document.key ++ "#inline/" ++ object.path ∧
        made.document.body =
          object.body.titled (Naming.inlineTitle drafted.typeName object.path) := by
  have hmem := List.mem_of_getElem? hplace
  obtain ⟨start, last, hclass, hwithin⟩ := orderly.drafted place hmem drafted hdrafted
  obtain ⟨hbodies⟩ := hclass
  obtain ⟨hshape, -, first, -, hmembers⟩ := hbodies.object_inv hbody
  obtain ⟨p, hp, hname, document, during, between, found, stop, hdocument, hid, hstop, htarget⟩ :=
    hmembers.declared object.property object.typed object.declares
  have hinsert := Drafting.inlineDocument_inv hdocument
  have hkey : document.key = place.document.key ++ "#inline/" ++ object.path := by
    rw [(Drafting.insert_inv hinsert).1, Catalog.insert_key]
  have known : draft.catalog.Knows document := hwithin.knows
    (hstop.knows ((Drafting.insert_knows hinsert).mono hid.grows.catalog))
  have hpath := object.declares.hash_not_mem
    (sourced.hash_not_mem_name offline free.names (documented place hmem) object.property)
  obtain ⟨_, owner, _, entry, body, howner, hownerDrafted, hownerKey, hentry, hdeclares, hmade⟩ :=
    traced.declared_inv sourced offline documented free known hpath hkey
  obtain rfl := orderly.place_unique hplace howner hownerKey
  obtain rfl := Option.some.inj (hdrafted.symm.trans hownerDrafted)
  rw [Owner.fragments_of_object hshape] at hentry
  obtain rfl := alone entry hentry body hdeclares
  obtain ⟨-, rfl⟩ := object.declares.unique hdeclares
  have hlink : document.link? = none := Document.link?_of_alias? (by
    rw [hmade, SchemaShape.alias?_titled]
    exact SchemaShape.alias?_inlineObject object.declares.inlineObject object.own)
  obtain ⟨target, rfl⟩ : ∃ target, found = some target := by
    obtain ⟨target, -, htarget, -⟩ | ⟨-, htarget, -⟩ := hid.own_inv hlink
    · exact ⟨target, htarget⟩
    · exact ⟨_, htarget⟩
  have holds := hwithin.holds (hstop.holds (hid.holds_self hlink))
  obtain ⟨made, hat, hmadeKey⟩ := Option.map_eq_some_iff.mp holds
  obtain rfl := (documented made (List.mem_of_getElem? hat)).unique known hmadeKey
  refine ⟨target, ⟨p, hp, hname, ?_⟩, made, hat, hkey, hmade⟩
  rw [Descriptor.classes_eq, htarget, Option.toList_some]

end Draft

namespace Drafting

variable {files : FileTree} {searchPaths extensionPaths : List String} {settings : Settings}
variable {naming : Naming} {draft : Draft}

/-- Whatever is resolved over a tree of files, different objects that are declared at properties of
one class, each alone at its path, get different classes: the class that the type of the property
refers to is made from the object itself, under the title that is made for it. -/
theorem inline_objects_apart
    (h : Steps .known (.new (.new files searchPaths extensionPaths) settings naming) draft)
    (free : draft.HashFree) {id : ClassId} {place : Place} {drafted : DraftClass}
    {base : Option ClassId} {declared : List String} {members : List Property}
    (hplace : draft.places[id]? = some place) (hdrafted : place.drafted = some drafted)
    (hbody : drafted.body = .object base declared members) :
    ∃ classOf : InlineObject place.document → ClassId,
      (∀ object, object.IsAlone draft.catalog →
        (∃ p ∈ members, p.name = object.name ∧ p.type.classes = [classOf object]) ∧
        ∃ made, draft.places[classOf object]? = some made ∧
          made.document.key = place.document.key ++ "#inline/" ++ object.path ∧
          made.document.body =
            object.body.titled (Naming.inlineTitle drafted.typeName object.path)) ∧
      ∀ object other, object.IsAlone draft.catalog → other.IsAlone draft.catalog →
        classOf object = classOf other → object = other := by
  have hnew : (Draft.new (.new files searchPaths extensionPaths) settings naming).Documented :=
    fun _ hplace => absurd hplace List.not_mem_nil
  have orderly := Steps.orderly h (Draft.new_orderly _ _ _)
  have documented := Steps.documented h not_false hnew
  have sourced := Steps.sourced h not_false hnew (Catalog.new_sourced _ _ _ _)
  have traced := Steps.traced h (Draft.new_orderly _ _ _)
    fun _ hdocument => absurd hdocument List.not_mem_nil
  have offline := (Steps.sameTexts h).downloads
  choose! classOf hclass using traced.exists_class orderly sourced offline documented free hplace
    hdrafted hbody
  refine ⟨classOf, hclass, fun object other halone hother heq => ?_⟩
  obtain ⟨-, made, hmade, hkey, -⟩ := hclass object halone
  obtain ⟨-, more, hmore, hmoreKey, -⟩ := hclass other hother
  rw [← heq, hmade] at hmore
  obtain rfl := Option.some.inj hmore
  have hpath : object.path = other.path := by
    have hkeys := hkey.symm.trans hmoreKey
    simpa [← String.toList_inj] using hkeys
  exact InlineObject.eq_of_path hother hpath

/-- The schema of an object with a list of objects at a property `a`, and an object at another. -/
def listAndObject (other : String) : Json :=
  .obj [("type", .str "object"), ("properties", .obj [
    ("a", .obj [("type", .str "array"), ("items", .withProperty "x" .number)]),
    (other, .withProperty "y" .number)])]

/-- Whether a fragment is an object that stands for itself and has one property. -/
def declaresOne (name : String) (fragment : Json) : Bool :=
  match PropertyShape.of fragment with
  | .inlineObject => (fragment.string? "$ref").isNone &&
      (fragment.get? "properties").any (·.fieldNames == [name])
  | _ => false

theorem declaresOne_inv {name : String} {fragment : Json} (h : declaresOne name fragment) :
    PropertyShape.of fragment = .inlineObject ∧ fragment.string? "$ref" = none ∧
      (fragment.get? "properties").map (·.fieldNames) = some [name] := by
  unfold declaresOne at h
  split at h
  · obtain ⟨hlink, hnames⟩ := Bool.and_eq_true_iff.mp h
    obtain ⟨object, hget, hfields⟩ := (Option.any_eq_true _ _).mp hnames
    refine ⟨‹_›, Option.isNone_iff_eq_none.mp hlink, ?_⟩
    rw [hget, Option.map_some, eq_of_beq hfields]
  · cases h

/-- Whether properties are those of `listAndObject`. -/
def declaresBoth (other : String) : List (String × Json) → Bool
  | [(first, list), (second, object)] =>
    first == "a" && second == other && declaresOne "y" object &&
      (PropertyShape.of list).items?.any (declaresOne "x")
  | _ => false

theorem declaresBoth_inv {other : String} {document : Document}
    (h : declaresBoth other document.properties) (htyped : other ∉ impliedProperties) :
    ∃ first second : InlineObject document,
      first.name = "a" ∧ first.path = "a.items" ∧ second.name = other ∧ second.path = other ∧
      document.properties = [(first.name, first.fragment), (second.name, second.fragment)] ∧
      (second.body.get? "properties").map (·.fieldNames) = some ["y"] := by
  unfold declaresBoth at h
  split at h
  · rename_i first list second object hproperties
    simp only [Bool.and_eq_true, beq_iff_eq] at h
    obtain ⟨⟨⟨rfl, rfl⟩, hobject⟩, hlist⟩ := h
    obtain ⟨items, harray, hlist⟩ := (Option.any_eq_true _ _).mp hlist
    obtain ⟨hitems, hitemsLink, -⟩ := declaresOne_inv hlist
    obtain ⟨hshape, hlink, hnames⟩ := declaresOne_inv hobject
    refine ⟨⟨"a", list, "a.items", items, ?_, by decide,
      .items (PropertyShape.eq_array_of_items? harray) (.self hitems), hitemsLink⟩,
      ⟨second, object, second, object, ?_, htyped, .self hshape, hlink⟩, rfl, rfl, rfl, rfl,
      hproperties, hnames⟩
    · rw [hproperties]
      exact List.mem_cons_self
    · rw [hproperties]
      exact List.mem_cons_of_mem _ List.mem_cons_self
  · cases h

/-- What resolving `listAndObject` gives: the classes of its members, and the property of the class
that is drafted next. -/
theorem exists_listAndObject (other : String) (classes : List (List ClassId))
    (h : ((resolve 8 "c" (.onSchemas [("c", listAndObject other)]) : Option _).any fun resolved =>
      resolved.2.places.all (·.drafted.all fun drafted => '#' ∉ drafted.typeName.toList) &&
      resolved.2.places[0]?.any (fun place => declaresBoth other place.document.properties &&
        place.drafted.any fun drafted => match drafted.body with
          | .object _ _ members => members.map (·.name) == ["a", other] &&
              members.map (·.type.classes) == classes
          | _ => false) &&
      resolved.2.places[1]?.any fun place =>
        (place.document.body.get? "properties").map (·.fieldNames) == some ["x"]) = true)
    (hnames : ∀ schema ∈ (FileTree.ofSchemas [("c", listAndObject other)]).schemas,
      ∀ part ∈ schema.parts, ∀ name ∈ part.fieldNames, '#' ∉ name.toList) :
    ∃ draft place made drafted base declared members,
      Steps .known (.onSchemas [("c", listAndObject other)]) draft ∧ draft.HashFree ∧
      draft.places[0]? = some place ∧ place.drafted = some drafted ∧
      drafted.body = .object base declared members ∧ declaresBoth other place.document.properties ∧
      members.map (·.name) = ["a", other] ∧ members.map (·.type.classes) = classes ∧
      draft.places[1]? = some made ∧
      (made.document.body.get? "properties").map (·.fieldNames) = some ["x"] := by
  obtain ⟨⟨found, draft⟩, hcall, hfacts⟩ := (Option.any_eq_true _ _).mp h
  simp only [Bool.and_eq_true] at hfacts
  obtain ⟨⟨htypes, hfirst⟩, hsecond⟩ := hfacts
  obtain ⟨place, hplace, hfirst⟩ := (Option.any_eq_true _ _).mp hfirst
  obtain ⟨hboth, hdrafted⟩ := Bool.and_eq_true_iff.mp hfirst
  obtain ⟨drafted, hdrafted, hbody⟩ := (Option.any_eq_true _ _).mp hdrafted
  obtain ⟨made, hmade, hproperty⟩ := (Option.any_eq_true _ _).mp hsecond
  split at hbody
  · rename_i base declared members heq
    obtain ⟨hmembers, hclasses⟩ := Bool.and_eq_true_iff.mp hbody
    have hsteps : Steps .known (.onSchemas [("c", listAndObject other)]) draft :=
      (resolve_completes (Draft.new_orderly _ _ _) rfl hcall).steps
    have hfiles : draft.catalog.files = .ofSchemas [("c", listAndObject other)] :=
      (Steps.sameTexts hsteps).files
    refine ⟨draft, place, made, drafted, base, declared, members, hsteps, ⟨?_, ?_, ?_⟩, hplace,
      hdrafted, heq, hboth, eq_of_beq hmembers, eq_of_beq hclasses, hmade, eq_of_beq hproperty⟩
    · rw [hfiles]
      refine FileTree.not_hashInPath ?_ ?_ <;> simp [FileTree.ofSchemas]
    · rw [hfiles]
      rintro ⟨schema, hschema, part, hpart, name, hname, hmem⟩
      exact hnames schema hschema part hpart.mem_parts name hname hmem
    · intro place hplace drafted hdrafted
      have hplace := List.all_eq_true.mp htypes place hplace
      rw [hdrafted] at hplace
      simpa using hplace
  · cases hbody

/-- An object in a list and one beside it get classes of their own. -/
theorem inline_objects_apart_list :
    ∃ (draft : Draft) (place made more : Place) (drafted : DraftClass)
      (first second : InlineObject place.document) (target other : ClassId),
      Steps .known (.onSchemas [("c", listAndObject "b")]) draft ∧ draft.HashFree ∧
      draft.places[0]? = some place ∧ place.drafted = some drafted ∧
      first.path = "a.items" ∧ first.IsAlone draft.catalog ∧
      second.path = "b" ∧ second.IsAlone draft.catalog ∧
      target ≠ other ∧ draft.places[target]? = some made ∧ draft.places[other]? = some more ∧
      made.document.body = first.body.titled (Naming.inlineTitle drafted.typeName first.path) ∧
      more.document.body =
        second.body.titled (Naming.inlineTitle drafted.typeName second.path) := by
  obtain ⟨draft, place, -, drafted, base, declared, members, hsteps, free, hplace, hdrafted, hbody,
    hboth, -⟩ := exists_listAndObject "b" [[1], [2]] (by decide +kernel) (by decide +kernel)
  obtain ⟨first, second, hname, hpath, hother, hotherPath, hproperties, -⟩ :=
    declaresBoth_inv hboth (by decide)
  have hpaths : first.path ≠ second.path := by
    rw [hpath, hotherPath]
    decide
  have halone (object : InlineObject place.document) : object.IsAlone draft.catalog := by
    refine object.isAlone_of_dotless draft.catalog ?_ ?_ <;>
      simp [hproperties, hname, hother]
  obtain ⟨classOf, hclass, hinjective⟩ :=
    inline_objects_apart hsteps free hplace hdrafted hbody
  obtain ⟨-, made, hmade, -, hmadeBody⟩ := hclass first (halone first)
  obtain ⟨-, more, hmore, -, hmoreBody⟩ := hclass second (halone second)
  refine ⟨draft, place, made, more, drafted, first, second, classOf first, classOf second, hsteps,
    free, hplace, hdrafted, hpath, halone first, hotherPath, halone second, fun heq => ?_, hmade,
    hmore, hmadeBody, hmoreBody⟩
  have hsame := hinjective first second (halone first) (halone second) heq
  exact hpaths (congrArg InlineObject.path hsame)

/-- A list whose items are objects, and a property whose name is the path of these: both are objects
of one class, which is made from the items. -/
theorem inline_objects_share_class :
    ∃ (draft : Draft) (place made : Place) (drafted : DraftClass) (base : Option ClassId)
      (declared : List String) (p q : Property) (first second : InlineObject place.document),
      Steps .known (.onSchemas [("c", listAndObject "a.items")]) draft ∧ draft.HashFree ∧
      draft.places[0]? = some place ∧ place.drafted = some drafted ∧
      drafted.body = .object base declared [p, q] ∧
      first.name = "a" ∧ p.name = "a" ∧ p.type.classes = [1] ∧
      second.name = "a.items" ∧ q.name = "a.items" ∧ q.type.classes = [1] ∧
      draft.places[1]? = some made ∧ ∀ title, made.document.body ≠ second.body.titled title := by
  obtain ⟨draft, place, made, drafted, base, declared, members, hsteps, free, hplace, hdrafted,
    hbody, hboth, hmembers, hclasses, hmade, hx⟩ :=
    exists_listAndObject "a.items" [[1], [1]] (by decide +kernel) (by decide +kernel)
  obtain ⟨first, second, hname, -, hother, -, -, hy⟩ := declaresBoth_inv hboth (by decide)
  obtain ⟨p, rest, rfl, hp, hrest⟩ := List.map_eq_cons_iff.mp hmembers
  obtain ⟨q, none, rfl, hq, hnone⟩ := List.map_eq_cons_iff.mp hrest
  obtain rfl := List.map_eq_nil_iff.mp hnone
  obtain ⟨hpclass, hqclasses⟩ := List.cons.inj hclasses
  refine ⟨draft, place, made, drafted, base, declared, p, q, first, second, hsteps, free, hplace,
    hdrafted, hbody, hname, hp, hpclass, hother, hq, (List.cons.inj hqclasses).1, hmade,
    fun title heq => ?_⟩
  rw [heq, Json.get?_titled _ _ (by decide), hy] at hx
  exact absurd hx (by decide)

end Drafting

end SchemaClasses
