import Mathlib.Data.List.ProdSigma
import Mathlib.Logic.Relation
import SchemaClasses.Proofs.Catalog.Loading
import SchemaClasses.Proofs.Drafting.Growth
import SchemaClasses.Proofs.Json.Height

/-!
# Origins of documents

While a reference is resolved, documents come up that were there before, that are loaded, and that
are made from entries of `allOf` and from objects declared at properties. Those that are made are
less high than the ones they are made from, so although their keys get longer and longer there are
only finitely many of them.
-/

namespace SchemaClasses

namespace Draft

/-- The type name of a document with a key and a title. -/
def nameOf (draft : Draft) (key : String) (title : Option String) : String :=
  match (Ordered.get? draft.extensionNames key).bind (·.className) with
  | some name => name
  | none =>
    match title with
    | some title => Naming.ofTitle draft.settings title
    | none => Naming.ofLocation key

def placed (draft : Draft) : List Document := draft.places.map (·.document)

def documents (draft : Draft) : List Document := draft.catalog.documents ++ draft.placed

end Draft

/-! ### Fragments and their paths -/

/-- The fragments of an owner with their paths: its properties, or its whole schema when that is no
object, and what is further in. -/
inductive Owner.At (owner : Owner) : String → Json → Prop
  | property {name fragment} : (name, fragment) ∈ owner.document.properties → At owner name fragment
  | whole : (SchemaShape.of owner.document.body = .array ∨
      ∃ kind, SchemaShape.of owner.document.body = .scalar kind) →
      At owner owner.typeName owner.document.body
  | items {path fragment items} : At owner path fragment →
      PropertyShape.of fragment = .array (some items) → At owner (path ++ ".items") items
  | values {path fragment values} : At owner path fragment →
      PropertyShape.of fragment = .dictionary values →
      At owner (path ++ ".additionalProperties") values
  | inner {path fragment inner} : At owner path fragment →
      PropertyShape.of fragment = .composite inner → At owner path inner

/-- The paths that lead on from others, by some steps. -/
def pathsFrom (bases : List String) : Nat → List String
  | 0 => bases
  | steps + 1 =>
    let before := pathsFrom bases steps
    before ++ before.map (· ++ ".items") ++ before.map (· ++ ".additionalProperties")

theorem pathsFrom_subset (bases : List String) {steps more : Nat} (h : steps ≤ more) :
    pathsFrom bases steps ⊆ pathsFrom bases more := by
  induction h with
  | refl => exact List.Subset.refl _
  | step _ ih =>
    rw [pathsFrom, List.append_assoc]
    exact List.subset_append_of_subset_left _ ih

/-- A schema that turns into a single value or an array is no object where it is a fragment. -/
theorem SchemaShape.not_inlineObject {schema : Json}
    (h : SchemaShape.of schema = .array ∨ ∃ kind, SchemaShape.of schema = .scalar kind) :
    PropertyShape.of schema ≠ .inlineObject := by
  intro hinline
  obtain ⟨-, htype, -⟩ := PropertyShape.inlineObject_inv hinline
  have hscalar : ScalarType.ofName? "object" = none := rfl
  rcases SchemaShape.of_cases schema with hof | hof | hof
  · rcases h with h | ⟨kind, h⟩ <;> cases h.symm.trans hof
  · rcases SchemaShape.alias?_cases hof with ⟨inner, -, heq⟩ | ⟨target, -, heq⟩ <;>
      rcases h with h | ⟨kind, h⟩ <;> cases h.symm.trans heq
  · rw [SchemaShape.ofOwn, htype] at hof
    simp only [Option.bind_some, hscalar, decide_true, Bool.true_or, if_true] at hof
    split at hof
    · rcases h with h | ⟨kind, h⟩ <;> cases hof.trans h
    · split at hof <;> rcases h with h | ⟨kind, h⟩ <;> cases hof.trans h

namespace Owner.At

variable {owner : Owner} {path : String} {fragment : Json}

theorem occurs (h : owner.At path fragment) : fragment.Occurs owner.document.body := by
  induction h with
  | property hfield =>
    obtain ⟨object, hget, hfragment⟩ := Document.properties_inv hfield
    exact hfragment.trans (Json.occurs_of_get? hget)
  | whole => exact .self
  | items _ hshape ih => exact (Json.occurs_of_get? (PropertyShape.array_inv hshape)).trans ih
  | values _ hshape ih =>
    exact (Json.occurs_of_get? (PropertyShape.dictionary_inv hshape)).trans ih
  | inner _ hshape ih => exact (occurs_of_onlyBase? (PropertyShape.composite_inv hshape)).trans ih

/-- An object that is declared at a fragment is further in than its owner. -/
theorem height_lt (h : owner.At path fragment)
    (hshape : PropertyShape.of fragment = .inlineObject) :
    fragment.height < owner.document.body.height := by
  cases h with
  | property hfield =>
    obtain ⟨object, hget, hfragment⟩ := Document.properties_inv hfield
    exact Nat.lt_of_le_of_lt hfragment.height_le (Json.height_lt_of_get? hget)
  | whole hwhole => exact absurd hshape (SchemaShape.not_inlineObject hwhole)
  | items hat houter =>
    exact Nat.lt_of_lt_of_le (Json.height_lt_of_get? (PropertyShape.array_inv houter))
      hat.occurs.height_le
  | values hat houter =>
    exact Nat.lt_of_lt_of_le (Json.height_lt_of_get? (PropertyShape.dictionary_inv houter))
      hat.occurs.height_le
  | inner hat houter =>
    exact Nat.lt_of_lt_of_le (height_onlyBase?_lt (PropertyShape.composite_inv houter))
      hat.occurs.height_le

/-- A fragment has one of the paths that lead on from the properties and from the whole schema, by
no more steps than it is further in. -/
theorem mem_pathsFrom {names : List String} (h : owner.At path fragment)
    (hnames : owner.document.propertyNames ⊆ names) {steps : Nat}
    (hsteps : owner.document.body.height ≤ fragment.height + steps) :
    path ∈ pathsFrom (owner.typeName :: names) steps := by
  have honward {path : String} {outer inner : Json} (hless : inner.height < outer.height)
      (hat : owner.At path outer) {steps : Nat}
      (hsteps : owner.document.body.height ≤ inner.height + steps) :
      ∃ before, steps = before + 1 ∧ owner.document.body.height ≤ outer.height + before := by
    have hle := hat.occurs.height_le
    exact ⟨steps - 1, by omega, by omega⟩
  induction h generalizing steps with
  | property hfield =>
    refine pathsFrom_subset _ (Nat.zero_le steps) (List.mem_cons_of_mem _ (hnames ?_))
    exact List.mem_map_of_mem hfield
  | whole => exact pathsFrom_subset _ (Nat.zero_le steps) List.mem_cons_self
  | items hat hshape ih =>
    obtain ⟨before, rfl, hbefore⟩ :=
      honward (Json.height_lt_of_get? (PropertyShape.array_inv hshape)) hat hsteps
    refine List.mem_append_left _ (List.mem_append_right _ ?_)
    exact List.mem_map_of_mem (f := (· ++ ".items")) (ih hbefore)
  | values hat hshape ih =>
    obtain ⟨before, rfl, hbefore⟩ :=
      honward (Json.height_lt_of_get? (PropertyShape.dictionary_inv hshape)) hat hsteps
    refine List.mem_append_right _ ?_
    exact List.mem_map_of_mem (f := (· ++ ".additionalProperties")) (ih hbefore)
  | inner hat hshape ih =>
    obtain ⟨before, rfl, hbefore⟩ :=
      honward (height_onlyBase?_lt (PropertyShape.composite_inv hshape)) hat hsteps
    exact pathsFrom_subset _ (Nat.le_succ before) (ih hbefore)

end Owner.At

/-! ### What there is to begin with -/

/-- What a reference is resolved with: a draft, and the reference. -/
structure Stock where
  start : Draft
  reference : String

namespace Stock

def sources (stock : Stock) : List String :=
  stock.start.catalog.contextTop?.getD "" ::
    (stock.start.catalog.readable ++ stock.start.documents.map (·.source))

def schemas (stock : Stock) : List Json :=
  stock.start.catalog.schemas ++ stock.start.documents.map (·.body)

def texts (stock : Stock) : List String :=
  stock.reference :: stock.schemas.flatMap Json.texts

/-- The locations and fragments that loading may lead to. -/
def loadable (stock : Stock) : List String :=
  stock.start.catalog.keysWithin stock.sources stock.texts

def titles (stock : Stock) : List (Option String) := none :: stock.texts.map some

def fieldNames (stock : Stock) : List String :=
  stock.schemas.flatMap fun schema => schema.parts.flatMap Json.fieldNames

def height (stock : Stock) : Nat := (stock.schemas.map Json.height).foldr max 0

/-- A value stems from one of the schemas. -/
def Has (stock : Stock) (value : Json) : Prop := ∃ schema ∈ stock.schemas, schema.Stems True value

variable {stock : Stock} {value part inner schema : Json} {key : String}

theorem height_le (h : schema ∈ stock.schemas) : schema.height ≤ stock.height := by
  unfold height
  generalize stock.schemas = schemas at h
  induction schemas with
  | nil => cases h
  | cons first rest ih =>
    rw [List.map_cons, List.foldr_cons]
    rcases List.mem_cons.mp h with rfl | h
    · exact Nat.le_max_left _ _
    · exact Nat.le_trans (ih h) (Nat.le_max_right _ _)

namespace Has

theorem of_mem (h : schema ∈ stock.schemas) : stock.Has schema := ⟨schema, h, .part .self⟩

theorem of_part (h : schema ∈ stock.schemas) (hpart : part.Occurs schema) : stock.Has part :=
  ⟨schema, h, .part hpart⟩

theorem get? (h : stock.Has value) (hget : value.get? key = some inner) (hkey : key ≠ "title")
    (hpart : part.Occurs inner) : ∃ schema ∈ stock.schemas, part.Occurs schema := by
  obtain ⟨schema, hschema, hstems⟩ := h
  exact ⟨schema, hschema, hpart.trans (hstems.get? hget hkey)⟩

theorem further (h : stock.Has value) (hget : value.get? key = some inner) (hkey : key ≠ "title")
    (hpart : part.Occurs inner) : stock.Has part := by
  obtain ⟨schema, hschema, hoccurs⟩ := h.get? hget hkey hpart
  exact .of_part hschema hoccurs

theorem onlyBase? (h : stock.Has value) (hbase : onlyBase? value = some part) : stock.Has part := by
  obtain ⟨entries, hget, hpart⟩ := onlyBase?_inv hbase
  exact h.further hget (by decide) hpart

theorem height_le (h : stock.Has value) : value.height ≤ stock.height := by
  obtain ⟨schema, hschema, hstems⟩ := h
  refine Nat.le_trans ?_ (Stock.height_le hschema)
  cases hstems with
  | part hpart => exact hpart.height_le
  | titled title hpart => exact Nat.le_trans (Json.height_titled_le _ title) hpart.height_le
  | title => exact Nat.zero_le _

theorem mem_texts {text : String} (h : stock.Has value) (hstring : value.string? key = some text)
    (hkey : key ≠ "title") : text ∈ stock.texts := by
  obtain ⟨schema, hschema, hstems⟩ := h
  obtain ⟨part, hpart, hpartstring, -⟩ := hstems.string? hstring hkey
  refine List.mem_cons_of_mem _ (List.mem_flatMap.mpr ⟨schema, hschema, ?_⟩)
  exact hpart.texts_subset (Json.mem_texts_of_string? hpartstring)

theorem propertyNames {document : Document} (h : stock.Has document.body) :
    document.propertyNames ⊆ stock.fieldNames := by
  intro name hname
  obtain ⟨⟨_, fragment⟩, hfield, rfl⟩ := List.mem_map.mp hname
  obtain ⟨object, hget, hobject⟩ := Document.properties_named hfield
  obtain ⟨schema, hschema, hoccurs⟩ := h.get? hget (by decide) .self
  exact List.mem_flatMap.mpr ⟨schema, hschema, List.mem_flatMap.mpr ⟨object, hoccurs.mem_parts,
    hobject⟩⟩

theorem at_ {owner : Owner} {path : String} {fragment : Json} (h : stock.Has owner.document.body)
    (hat : owner.At path fragment) : stock.Has fragment := by
  induction hat with
  | property hfield =>
    obtain ⟨object, hget, hfragment⟩ := Document.properties_inv hfield
    exact h.further hget (by decide) hfragment
  | whole => exact h
  | items _ hshape ih => exact ih.further (PropertyShape.array_inv hshape) (by decide) .self
  | values _ hshape ih => exact ih.further (PropertyShape.dictionary_inv hshape) (by decide) .self
  | inner _ hshape ih => exact ih.onlyBase? (PropertyShape.composite_inv hshape)

end Has

theorem title_mem {document : Document} (h : schema ∈ stock.schemas)
    (hpart : schema.IsPart document.body) : document.title? ∈ stock.titles := by
  cases htitle : document.title? with
  | none => exact List.mem_cons_self
  | some title =>
    refine List.mem_cons_of_mem _ (List.mem_map_of_mem ?_)
    rcases hpart with hpart | ⟨text, htext⟩
    · refine List.mem_cons_of_mem _ (List.mem_flatMap.mpr ⟨schema, h, ?_⟩)
      exact hpart.texts_subset (Json.mem_texts_of_string? htitle)
    · rw [Document.title?, htext] at htitle
      cases htitle

/-! ### Where documents come from -/

/-- A document is there at the start, or it is loaded, or it is made from an entry of another, which
is a link to it or has a place, or from an object that is declared in one that has a place. -/
inductive Originates (stock : Stock) (placed : List Document) : Document → Prop
  | given {document} : document ∈ stock.start.documents → Originates stock placed document
  | loaded {document} : document.PartFrom stock.sources stock.schemas →
      document.key ∈ stock.loadable → Originates stock placed document
  | link {owner body} : Originates stock placed owner → owner.link? = some (.entry body) →
      Originates stock placed (owner.firstEntry body)
  | base {owner body rest} : Originates stock placed owner → owner ∈ placed →
      owner.body.array? "allOf" = some (body :: rest) →
      Originates stock placed (owner.firstEntry body)
  | declared {owner path fragment source} : Originates stock placed owner → owner ∈ placed →
      Owner.At ⟨owner, stock.start.displayName owner⟩ path fragment →
      PropertyShape.of fragment = .inlineObject → source ∈ stock.sources →
      Originates stock placed
        { key := owner.key ++ "#inline/" ++ path
          source := source
          body := fragment.titled (Naming.inlineTitle (stock.start.displayName owner) path) }

namespace Originates

variable {placed more : List Document} {document owner : Document} {body : Json}

theorem mono (h : stock.Originates placed document) (hsubset : placed ⊆ more) :
    stock.Originates more document := by
  induction h with
  | given h => exact .given h
  | loaded h hkey => exact .loaded h hkey
  | link _ hlink ih => exact .link ih hlink
  | base _ hplaced hentries ih => exact .base ih (hsubset hplaced) hentries
  | declared _ hplaced hat hshape hsource ih =>
    exact .declared ih (hsubset hplaced) hat hshape hsource


/-- What a document is made from is given, loaded or made itself, and its sources are known. -/
theorem stems (h : stock.Originates placed document) :
    document.source ∈ stock.sources ∧ stock.Has document.body := by
  have hentry {owner : Document} {body entries : Json} (ih : owner.source ∈ stock.sources ∧
      stock.Has owner.body) (hget : owner.body.get? "allOf" = some entries)
      (hbody : body.Occurs entries) : (owner.firstEntry body).source ∈ stock.sources ∧
      stock.Has (owner.firstEntry body).body :=
    ⟨ih.1, ih.2.further hget (by decide) hbody⟩
  induction h with
  | given h =>
    refine ⟨List.mem_cons_of_mem _ (List.mem_append_right _ (List.mem_map_of_mem h)), ?_⟩
    exact .of_mem (List.mem_append_right _ (List.mem_map_of_mem h))
  | loaded h =>
    obtain ⟨schema, hschema, hpart⟩ := h.part
    exact ⟨h.source, schema, hschema, hpart.stems⟩
  | link _ hlink ih =>
    obtain ⟨entries, hget, hbody⟩ := onlyBase?_inv (Document.link?_entry_inv hlink)
    exact hentry ih hget hbody
  | base _ _ hentries ih =>
    obtain ⟨entries, hget, hbody⟩ := Json.array?_inv hentries List.mem_cons_self
    exact hentry ih hget hbody
  | declared _ _ hat _ hsource ih =>
    obtain ⟨schema, hschema, hstems⟩ := ih.2.at_ hat
    exact ⟨hsource, schema, hschema, hstems.retitled _⟩

end Originates

/-! ### Documents inside others -/

end Stock

/-- The key of a document goes on from that of another, and its schema is a part of the other's that
is less high, but for its title. -/
structure Document.IsInside (document owner : Document) : Prop where
  key : ∃ rest, document.key = owner.key ++ "#" ++ rest
  height : document.body.height < owner.body.height
  part : ∃ part : Json, part.Occurs owner.body ∧
    (document.body = part ∨ ∃ title, document.body = part.titled title)

namespace Document

/-- A document is a link to an entry that is written in it. -/
def LinksTo (owner entry : Document) : Prop :=
  ∃ body, owner.link? = some (.entry body) ∧ entry = owner.firstEntry body

variable {owner root : Document} {body entries : Json}

theorem firstEntry_isInside (hget : owner.body.get? "allOf" = some entries)
    (hbody : body.Occurs entries) : (owner.firstEntry body).IsInside owner where
  key := ⟨"/allOf/0", by rw [firstEntry, String.append_assoc]; rfl⟩
  height := Nat.lt_of_le_of_lt hbody.height_le (Json.height_lt_of_get? hget)
  part := ⟨body, hbody.trans (Json.occurs_of_get? hget), .inl rfl⟩

/-- An entry of what is inside another is inside it as well. -/
theorem IsInside.firstEntry (h : owner.IsInside root)
    (hget : owner.body.get? "allOf" = some entries) (hbody : body.Occurs entries) :
    (owner.firstEntry body).IsInside root := by
  have hentry := firstEntry_isInside hget hbody
  refine ⟨?_, Nat.lt_trans hentry.height h.height, body, ?_, .inl rfl⟩
  · obtain ⟨rest, hkey⟩ := h.key
    refine ⟨rest ++ "#/allOf/0", ?_⟩
    rw [Document.firstEntry, hkey, String.append_assoc]
  · obtain ⟨part, hpart, heq⟩ := h.part
    have hpartget : part.get? "allOf" = some entries := by
      rcases heq with heq | ⟨title, heq⟩
      · rwa [heq] at hget
      · rwa [heq, Json.get?_titled _ _ (by decide)] at hget
    exact (hbody.trans (Json.occurs_of_get? hpartget)).trans hpart

theorem declared_isInside {name path source title : String} {fragment : Json}
    (hat : Owner.At ⟨owner, name⟩ path fragment)
    (hshape : PropertyShape.of fragment = .inlineObject) :
    IsInside ⟨owner.key ++ "#inline/" ++ path, source, fragment.titled title⟩ owner where
  key := by
    refine ⟨"inline/" ++ path, ?_⟩
    have hash : "#inline/" = "#" ++ "inline/" := rfl
    simp only [hash, String.append_assoc]
  height := Nat.lt_of_le_of_lt (Json.height_titled_le fragment title) (hat.height_lt hshape)
  part := ⟨fragment, hat.occurs, .inr ⟨title, rfl⟩⟩

end Document

namespace Stock

variable {stock : Stock}

/-- A document can be found: it is there at the start, or it can be loaded. -/
def Finds (stock : Stock) (document : Document) : Prop :=
  document ∈ stock.start.documents ∨ document.key ∈ stock.loadable

/-- A document that cannot be found is inside one that has a place, or inside one that can be found
and that leads to it by links to entries. -/
theorem Originates.finds_or_isInside {placed : List Document} {document : Document}
    (h : stock.Originates placed document) :
    stock.Finds document ∨ ∃ owner, document.IsInside owner ∧
      (owner ∈ placed ∨ stock.Finds owner ∧ Relation.TransGen Document.LinksTo owner document) := by
  induction h with
  | given h => exact .inl (.inl h)
  | loaded _ hkey => exact .inl (.inr hkey)
  | @link owner body _ hlink ih =>
    obtain ⟨entries, hget, hbody⟩ := onlyBase?_inv (Document.link?_entry_inv hlink)
    have hlinks : owner.LinksTo (owner.firstEntry body) := ⟨body, hlink, rfl⟩
    rcases ih with hfinds | ⟨root, hinside, hplaced | ⟨hfinds, hroot⟩⟩
    · exact .inr ⟨owner, Document.firstEntry_isInside hget hbody, .inr ⟨hfinds, .single hlinks⟩⟩
    · exact .inr ⟨root, hinside.firstEntry hget hbody, .inl hplaced⟩
    · exact .inr ⟨root, hinside.firstEntry hget hbody, .inr ⟨hfinds, hroot.tail hlinks⟩⟩
  | @base owner _ _ _ hplaced hentries =>
    obtain ⟨entries, hget, hbody⟩ := Json.array?_inv hentries List.mem_cons_self
    exact .inr ⟨owner, Document.firstEntry_isInside hget hbody, .inl hplaced⟩
  | @declared owner _ _ _ _ hplaced hat hshape =>
    exact .inr ⟨owner, Document.declared_isInside hat hshape, .inl hplaced⟩

/-! ### There are finitely many keys -/

/-- The keys of documents with their titles, when documents are made in a number of steps. -/
def names (stock : Stock) : Nat → List (String × Option String)
  | 0 =>
    stock.start.documents.map (fun document => (document.key, document.title?)) ++
      stock.loadable ×ˢ stock.titles
  | steps + 1 =>
    let before := stock.names steps
    before ++ before.flatMap fun (key, title) =>
      let name := stock.start.nameOf key title
      stock.titles.map (key ++ "#/allOf/0", ·) ++
        (pathsFrom (name :: stock.fieldNames) stock.height).map fun path =>
          (key ++ "#inline/" ++ path, some (Naming.inlineTitle name path))

theorem names_subset {steps more : Nat} (h : steps ≤ more) :
    stock.names steps ⊆ stock.names more := by
  induction h with
  | refl => exact List.Subset.refl _
  | step _ ih =>
    rw [names]
    exact List.subset_append_of_subset_left _ ih

theorem entry_mem_names {owner : Document} {body entries : Json} {steps : Nat}
    (howner : (owner.key, owner.title?) ∈ stock.names steps) (has : stock.Has owner.body)
    (hget : owner.body.get? "allOf" = some entries) (hbody : body.Occurs entries) :
    ((owner.firstEntry body).key, (owner.firstEntry body).title?) ∈ stock.names (steps + 1) := by
  obtain ⟨schema, hschema, hoccurs⟩ := has.get? hget (by decide) hbody
  have htitle : (owner.firstEntry body).title? ∈ stock.titles :=
    title_mem hschema (.inl hoccurs)
  refine List.mem_append_right _ (List.mem_flatMap.mpr ⟨_, howner, List.mem_append_left _ ?_⟩)
  exact List.mem_map_of_mem (f := ((owner.firstEntry body).key, ·)) htitle

theorem title?_titled {fragment : Json} (h : PropertyShape.of fragment = .inlineObject)
    (title : String) : (fragment.titled title).string? "title" = some title := by
  obtain ⟨hobject, -⟩ := PropertyShape.inlineObject_inv h
  cases fragment with
  | obj fields => simp [Json.titled, Json.string?, Json.get?, Json.asObject?, Ordered.get?_put,
      Json.asString?]
  | null | bool | num | str | arr => cases hobject

/-- Every document that comes up has one of finitely many keys: the less high it is, the more steps
it may have taken to make it. -/
theorem Originates.mem_names {placed : List Document} {document : Document}
    (h : stock.Originates placed document) {steps : Nat}
    (hsteps : stock.height ≤ document.body.height + steps) :
    (document.key, document.title?) ∈ stock.names steps := by
  have honward {owner : Document} {body : Json} (howner : stock.Originates placed owner)
      (hless : body.height < owner.body.height) {steps : Nat}
      (hsteps : stock.height ≤ body.height + steps) :
      ∃ before, steps = before + 1 ∧ stock.height ≤ owner.body.height + before := by
    have hle := howner.stems.2.height_le
    exact ⟨steps - 1, by omega, by omega⟩
  have hentry {owner : Document} {body entries : Json} (howner : stock.Originates placed owner)
      (ih : ∀ {steps}, stock.height ≤ owner.body.height + steps →
        (owner.key, owner.title?) ∈ stock.names steps)
      (hget : owner.body.get? "allOf" = some entries) (hbody : body.Occurs entries) {steps : Nat}
      (hsteps : stock.height ≤ body.height + steps) :
      ((owner.firstEntry body).key, (owner.firstEntry body).title?) ∈ stock.names steps := by
    have hless := Nat.lt_of_le_of_lt hbody.height_le (Json.height_lt_of_get? hget)
    obtain ⟨before, rfl, hbefore⟩ := honward howner hless hsteps
    exact entry_mem_names (ih hbefore) howner.stems.2 hget hbody
  induction h generalizing steps with
  | given h =>
    refine names_subset (Nat.zero_le steps) (List.mem_append_left _ ?_)
    exact List.mem_map_of_mem (f := fun document => (document.key, document.title?)) h
  | loaded h hkey =>
    obtain ⟨schema, hschema, hpart⟩ := h.part
    refine names_subset (Nat.zero_le steps) (List.mem_append_right _ ?_)
    exact List.mem_product.mpr ⟨hkey, title_mem hschema hpart⟩
  | link howner hlink ih =>
    obtain ⟨entries, hget, hbody⟩ := onlyBase?_inv (Document.link?_entry_inv hlink)
    exact hentry howner ih hget hbody hsteps
  | base howner _ hentries ih =>
    obtain ⟨entries, hget, hbody⟩ := Json.array?_inv hentries List.mem_cons_self
    exact hentry howner ih hget hbody hsteps
  | @declared owner path fragment source howner hplaced hat hshape hsource ih =>
    have hheight := Json.height_titled_le fragment
      (Naming.inlineTitle (stock.start.displayName owner) path)
    obtain ⟨before, rfl, hbefore⟩ := honward howner
      (Nat.lt_of_le_of_lt hheight (hat.height_lt hshape)) hsteps
    have hpath := hat.mem_pathsFrom howner.stems.2.propertyNames
      (Nat.le_trans howner.stems.2.height_le (Nat.le_add_left stock.height fragment.height))
    refine List.mem_append_right _ (List.mem_flatMap.mpr ⟨_, ih hbefore, ?_⟩)
    refine List.mem_append_right _ (List.mem_map.mpr ⟨path, hpath, ?_⟩)
    exact Prod.ext rfl (title?_titled hshape _).symm

def keys (stock : Stock) : List String := (stock.names stock.height).map Prod.fst

theorem Originates.key_mem {placed : List Document} {document : Document}
    (h : stock.Originates placed document) : document.key ∈ stock.keys :=
  List.mem_map_of_mem (f := Prod.fst) (h.mem_names (Nat.le_add_left _ _))

end Stock

end SchemaClasses
