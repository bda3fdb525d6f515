import SchemaClasses.Proofs.Drafting.Run
import SchemaClasses.Proofs.Drafting.Watched

/-!
# Tasks

Drafting a class is a task that starts other tasks: finding the types of its members and of the
fragments in them, following links, interning documents. A task that comes to a reference loads it,
and one that comes to a schema without a class follows it. Whatever is seen of a run is what such a
task does: a load, with the draft that it starts from, or the schemas that are being followed when
one more comes to be.
-/

namespace SchemaClasses.Drafting

/-- What is done while a document is interned or a class is drafted. -/
inductive Task where
  /-- Following the links of a document, after those with the given keys. -/
  | unalias (seen : List String) (document : Document)
  | type (owner : Owner) (path : String) (fragment : Json) (usage : Usage)
  /-- Finding the base class that an entry of `allOf` names. -/
  | base (document : Document) (entry : Json)
  | members (owner : Owner) (declared : List (String × Json))
  | body (owner : Owner)

namespace Task

/-- A task that is begun with one draft starts another one, which begins with another draft. -/
inductive Starts : Task × Draft → Task × Draft → Prop
  | link {seen document link next draft between} : document.key ∉ seen →
      document.link? = some link → target document link draft = some (some next, between) →
      Starts (.unalias seen document, draft) (.unalias (document.key :: seen) next, between)
  | items {owner path fragment items usage draft} :
      PropertyShape.of fragment = .array (some items) →
      Starts (.type owner path fragment usage, draft)
        (.type owner (path ++ ".items") items (.ofItems items), draft)
  | values {owner path fragment values usage draft} :
      PropertyShape.of fragment = .dictionary values → values.asBool? ≠ some true →
      Starts (.type owner path fragment usage, draft)
        (.type owner (path ++ ".additionalProperties") values .ofValues, draft)
  | inner {owner path fragment inner usage draft} : PropertyShape.of fragment = .composite inner →
      Starts (.type owner path fragment usage, draft)
        (.type owner path inner (usage.inside inner), draft)
  | inlineObject {owner path fragment usage draft document between} :
      PropertyShape.of fragment = .inlineObject →
      inlineDocument owner path fragment draft = some (document, between) →
      Starts (.type owner path fragment usage, draft) (.unalias [] document, between)
  | reference {owner path fragment reference usage draft document between} :
      PropertyShape.of fragment = .reference reference →
      LeadsTo reference draft document between → isClassLike document.body = true →
      Starts (.type owner path fragment usage, draft) (.unalias [] document, between)
  | followed {owner path fragment reference usage draft document between} :
      PropertyShape.of fragment = .reference reference →
      LeadsTo reference draft document between → isClassLike document.body = false →
      document.key ∉ between.following →
      Starts (.type owner path fragment usage, draft)
        (.type owner path document.body (usage.inside document.body),
          { between with
            following := document.key :: between.following
            catalog := between.catalog.enter document })
  | baseReference {document entry reference draft base between} :
      Link.ofEntry entry = .reference reference →
      load reference draft = some (some base, between) →
      Starts (.base document entry, draft) (.unalias [] base, between)
  | baseWritten {document entry body draft base between} : Link.ofEntry entry = .entry body →
      insert (document.firstEntry body) draft = some (base, between) →
      Starts (.base document entry, draft) (.unalias [] base, between)
  | member {owner name fragment rest draft} : name ∉ impliedProperties →
      Starts (.members owner ((name, fragment) :: rest), draft)
        (.type owner name fragment ⟨owner.document.requires name, fragment.get? "default"⟩, draft)
  | implied {owner name fragment rest draft} : name ∈ impliedProperties →
      Starts (.members owner ((name, fragment) :: rest), draft) (.members owner rest, draft)
  | rest {owner name fragment rest draft type between} : name ∉ impliedProperties →
      Types owner name fragment ⟨owner.document.requires name, fragment.get? "default"⟩
        draft type between →
      Starts (.members owner ((name, fragment) :: rest), draft) (.members owner rest, between)
  | onlyBase {owner first draft} : SchemaShape.of owner.document.body = .object →
      owner.document.body.array? "allOf" = some [first] →
      Starts (.body owner, draft) (.base owner.document first, draft)
  | firstBase {owner first second rest draft} : SchemaShape.of owner.document.body = .object →
      owner.document.body.array? "allOf" = some (first :: second :: rest) →
      Starts (.body owner, draft)
        (.base owner.document first,
          { draft with
            catalog := draft.catalog.warn (.severalBases owner.typeName (rest.length + 2)) })
  | properties {owner draft base between} : SchemaShape.of owner.document.body = .object →
      Derives owner draft base between →
      Starts (.body owner, draft) (.members owner owner.document.properties, between)
  | value {owner draft} : (SchemaShape.of owner.document.body = .array ∨
        ∃ kind, SchemaShape.of owner.document.body = .scalar kind) →
      Starts (.body owner, draft)
        (.type owner owner.typeName owner.document.body
          ⟨true, owner.document.body.get? "default"⟩, draft)

/-- A task that is begun with one draft loads the reference of a value with another. -/
inductive Loads : Task × Draft → String → Json → Draft → Prop
  | link {seen document reference draft} : document.key ∉ seen →
      SchemaShape.of document.body = .reference reference →
      Loads (.unalias seen document, draft) reference document.body
        { draft with catalog := draft.catalog.enter document }
  | wrapper {seen document inner reference draft} : document.key ∉ seen →
      SchemaShape.of document.body = .wrapper inner → inner.string? "$ref" = some reference →
      Loads (.unalias seen document, draft) reference inner
        { draft with catalog := draft.catalog.enter document }
  | type {owner path fragment reference usage draft} :
      PropertyShape.of fragment = .reference reference →
      Loads (.type owner path fragment usage, draft) reference fragment draft
  | base {document entry reference draft} : Link.ofEntry entry = .reference reference →
      Loads (.base document entry, draft) reference entry draft

/-- A link to another schema is loaded by the task that follows it. -/
theorem Loads.of_link? {seen : List String} {document : Document} {reference : String}
    {draft : Draft} (hseen : document.key ∉ seen)
    (hlink : document.link? = some (.reference reference)) :
    ∃ value, Loads (.unalias seen document, draft) reference value
      { draft with catalog := draft.catalog.enter document } := by
  unfold Document.link? at hlink
  split at hlink
  · rename_i inner hshape
    exact ⟨inner, .wrapper hseen hshape (Link.reference_inv (Option.some.inj hlink))⟩
  · rename_i target hshape
    obtain rfl := Link.reference.inj (Option.some.inj hlink)
    exact ⟨document.body, .link hseen hshape⟩
  · cases hlink

/-- The tasks of the steps that a draft can take. -/
inductive Begins (draft : Draft) : Task × Draft → Prop
  | intern {document} : draft.catalog.Knows document →
      Begins draft (.unalias [] document, draft)
  | drafted {id rest place} : draft.pending = id :: rest → draft.places[id]? = some place →
      Begins draft (.body ⟨place.document, draft.displayName place.document⟩,
        { draft with pending := rest, catalog := draft.catalog.enter place.document })

/-- What is seen of a task itself. -/
inductive Shows : Task × Draft → Moment → Prop
  | loads {task reference value during} : Loads task reference value during →
      Shows task (.loading reference during)
  | follows {owner path fragment reference usage draft document between} :
      PropertyShape.of fragment = .reference reference →
      LeadsTo reference draft document between → isClassLike document.body = false →
      document.key ∉ between.following →
      Shows (.type owner path fragment usage, draft)
        (.following { between with following := document.key :: between.following })

/-- What is seen of a task and of those that it starts. -/
def Seen (task : Task × Draft) (moment : Moment) : Prop :=
  ∃ last, Relation.ReflTransGen Starts task last ∧ Shows last moment

theorem Seen.head {task next : Task × Draft} {moment : Moment} (h : Starts task next)
    (k : Seen next moment) : Seen task moment := by
  obtain ⟨last, hstarts, hshows⟩ := k
  exact ⟨last, .head h hstarts, hshows⟩

end Task

/-- What is seen of the tasks of steps that a draft can take. -/
def SeenFrom (draft : Draft) (moment : Moment) : Prop :=
  ∃ during first, Steps .known draft during ∧ Task.Begins during first ∧ Task.Seen first moment

variable {draft : Draft} {depth : Nat} {seen : Moment → Prop}

section

variable {document : Document} {link : Link} {passed : List String}

theorem target_sees (hpassed : document.key ∉ passed) (hlink : document.link? = some link) :
    Sees (target document link) (target document link) draft
      (Task.Seen (.unalias passed document, draft)) := by
  cases link with
  | reference reference =>
    obtain ⟨value, hloads⟩ := Task.Loads.of_link? hpassed hlink
    exact .inContext (.load ⟨_, .refl, .loads hloads⟩)
  | entry body => exact .bind (.onCatalog _) fun _ => .pure _

theorem unaliasFrom_sees (depth : Nat) (passed : List String) (document : Document)
    (draft : Draft) :
    Sees (unaliasFrom depth passed document) (unaliasFrom depth passed document) draft
      (Task.Seen (.unalias passed document, draft)) := by
  induction depth generalizing passed document draft with
  | zero => exact .outOfDepth
  | succ depth ih =>
    simp only [unaliasFrom]
    split
    · exact .bind (.onCatalog _) fun _ => .pure _
    · rename_i hpassed
      cases hlink : document.link? with
      | none => exact .pure _
      | some link =>
        refine .bind (target_sees hpassed hlink) fun {found between} htarget => ?_
        cases found with
        | none => exact .pure none
        | some next => exact (ih _ next between).mono fun _ => .head (.link hpassed hlink htarget)

theorem intern_sees (depth : Nat) (document : Document) (draft : Draft) :
    Sees (intern depth document) (intern depth document) draft
      (Task.Seen (.unalias [] document, draft)) := by
  unfold intern
  refine .bind (unaliasFrom_sees depth [] document draft) fun {own between} _ => ?_
  cases own with
  | none => exact .pure none
  | some own =>
    refine .get_bind ?_
    cases between.idOf? own.key with
    | some id => exact .pure _
    | none => exact .bind (.silent rfl rfl) fun _ => .pure _

end

/-! ### Types -/

section

variable {owner : Owner} {path : String} {fragment : Json} {usage : Usage}
variable {resolve : Resolve Watched} {resolve' : Resolve Option}

theorem enumerationOf_sees {label name scope : String} {default : Option Json} :
    Sees (enumerationOf label name scope fragment default)
      (enumerationOf label name scope fragment default) draft seen := by
  unfold enumerationOf
  cases Enumeration.ofFragment name scope fragment default with
  | ok e => exact .pure _
  | error fault => exact .bind (.onCatalog _) fun _ => .pure _

theorem enumerationType_sees :
    Sees (enumerationType owner path fragment usage) (enumerationType owner path fragment usage)
      draft seen := by
  unfold enumerationType
  refine .get_bind (.bind enumerationOf_sees fun {found _} _ => ?_)
  cases found <;> exact .pure _

theorem inlineObjectType_sees {isOptional : Bool}
    (hshape : PropertyShape.of fragment = .inlineObject) :
    Sees (inlineObjectType depth owner path fragment isOptional)
      (inlineObjectType depth owner path fragment isOptional) draft
      (Task.Seen (.type owner path fragment usage, draft)) := by
  unfold inlineObjectType
  refine .bind (.get_bind (.onCatalog _)) fun {document between} hdocument => .get_bind ?_
  have hstart : Task.Starts (.type owner path fragment usage, draft)
      (.unalias [] document, between) := .inlineObject hshape hdocument
  refine .bind ((intern_sees depth document between).mono fun _ => .head hstart) fun {id _} _ => ?_
  cases id with
  | none => exact .pure _
  | some target => exact .get_bind (.pure _)

theorem classType_sees {document : Document} {className : String} {isOptional : Bool} :
    Sees (classType depth document className isOptional)
      (classType depth document className isOptional) draft
      (Task.Seen (.unalias [] document, draft)) := by
  unfold classType
  refine .get_bind (.bind (intern_sees depth document draft) fun {id _} _ => ?_)
  cases id with
  | none => exact .pure _
  | some target => exact .get_bind (.pure _)

variable (hresolve : ∀ {path fragment usage draft},
  Sees (resolve path fragment usage) (resolve' path fragment usage) draft
    (Task.Seen (.type owner path fragment usage, draft)))
include hresolve

theorem arrayType_sees {items : Option Json} (hshape : PropertyShape.of fragment = .array items) :
    Sees (arrayType resolve path items usage) (arrayType resolve' path items usage) draft
      (Task.Seen (.type owner path fragment usage, draft)) := by
  unfold arrayType
  cases items with
  | none => exact .pure _
  | some items =>
    refine .bind (hresolve.mono fun _ => .head (.items hshape)) fun {item _} _ => ?_
    cases item <;> exact .pure _

theorem dictionaryType_sees {values : Json}
    (hshape : PropertyShape.of fragment = .dictionary values) :
    Sees (dictionaryType resolve path values) (dictionaryType resolve' path values) draft
      (Task.Seen (.type owner path fragment usage, draft)) := by
  unfold dictionaryType
  split
  · exact .pure _
  · exact .bind (hresolve.mono fun _ => .head (.values hshape ‹_›)) fun _ => .pure _

theorem followedType_sees {reference : String} {document : Document} {between : Draft}
    (hshape : PropertyShape.of fragment = .reference reference)
    (hleads : LeadsTo reference draft document between)
    (hclass : isClassLike document.body = false) :
    Sees (followedType resolve owner path reference document usage)
      (followedType resolve' owner path reference document usage) between
      (Task.Seen (.type owner path fragment usage, draft)) := by
  unfold followedType
  refine .get_bind ?_
  split
  · exact .bind (.onCatalog _) fun _ => .pure _
  · rename_i hnew
    have hstarts : Task.Starts (.type owner path fragment usage, draft) _ :=
      .followed hshape hleads hclass hnew
    have hinner := hresolve.mono fun _ => Task.Seen.head hstarts
    refine .bind (.whileFollowing ?_ (.inContext hinner)) fun _ => .pure _
    exact ⟨_, .refl, .follows hshape hleads hclass hnew⟩

theorem referenceType_sees {reference : String}
    (hshape : PropertyShape.of fragment = .reference reference) :
    Sees (referenceType depth resolve owner path reference usage)
      (referenceType depth resolve' owner path reference usage) draft
      (Task.Seen (.type owner path fragment usage, draft)) := by
  unfold referenceType
  refine .bind (.load ⟨_, .refl, .loads (.type hshape)⟩) fun {found between} hload => ?_
  cases found with
  | none => exact .bind (.onCatalog _) fun _ => .pure _
  | some document =>
    dsimp only
    split
    · exact .pure _
    · refine .get_bind ?_
      split
      · exact .pure _
      · have hleads : LeadsTo reference draft document between := ⟨hload, ‹_›, ‹_›⟩
        split
        · exact classType_sees.mono fun _ => .head (.reference hshape hleads ‹_›)
        · exact followedType_sees hresolve hshape hleads (Bool.eq_false_iff.mpr ‹_›)

omit hresolve

/-- Whatever is seen while the type of a fragment is found is seen of the task of finding it. -/
theorem fragmentType_sees (owner : Owner) (depth : Nat) (path : String) (fragment : Json)
    (usage : Usage) (draft : Draft) :
    Sees (fragmentType owner depth path fragment usage)
      (fragmentType owner depth path fragment usage) draft
      (Task.Seen (.type owner path fragment usage, draft)) := by
  induction depth generalizing path fragment usage draft with
  | zero => exact .outOfDepth
  | succ depth ih =>
    simp only [fragmentType]
    cases hshape : PropertyShape.of fragment <;> dsimp only <;> refine .bind ?_ fun _ => .pure _
    case empty | scalar => exact .pure _
    case enumeration => exact .map _ enumerationType_sees
    case array => exact arrayType_sees (ih _ _ _ _) hshape
    case inlineObject => exact .map _ (inlineObjectType_sees hshape)
    case dictionary => exact .map _ (dictionaryType_sees (ih _ _ _ _) hshape)
    case reference => exact .map _ (referenceType_sees (ih _ _ _ _) hshape)
    case composite => exact (ih _ _ _ _).mono fun _ => .head (.inner hshape)
    case unsupported => exact .onCatalog _

end

/-! ### Classes -/

section

variable {owner : Owner}

theorem baseClass_sees {document : Document} {entry : Json} :
    Sees (baseClass depth document entry) (baseClass depth document entry) draft
      (Task.Seen (.base document entry, draft)) := by
  unfold baseClass
  cases hlink : Link.ofEntry entry with
  | reference reference =>
    refine .bind (.load ⟨_, .refl, .loads (.base hlink)⟩) fun {found between} hload => ?_
    cases found with
    | none => exact .pure none
    | some base =>
      exact (intern_sees depth base between).mono fun _ => .head (.baseReference hlink hload)
  | entry body =>
    refine .bind (.map some (.onCatalog _)) fun {found between} hfound => ?_
    obtain ⟨base, hinsert, rfl⟩ := map_inv hfound
    exact (intern_sees depth base between).mono fun _ => .head (.baseWritten hlink hinsert)

theorem baseOf_sees (hshape : SchemaShape.of owner.document.body = .object) :
    Sees (baseOf depth owner.document owner.typeName) (baseOf depth owner.document owner.typeName)
      draft (Task.Seen (.body owner, draft)) := by
  unfold baseOf
  split
  · rename_i first rest hentries
    cases rest with
    | nil => exact baseClass_sees.mono fun _ => .head (.onlyBase hshape hentries)
    | cons second rest =>
      refine .bind (.onCatalog _) fun hwarn => ?_
      obtain rfl := warn_inv hwarn
      exact baseClass_sees.mono fun _ => .head (.firstBase hshape hentries)
  · exact .pure none

theorem propertiesOf_sees (declared : List (String × Json)) (draft : Draft) :
    Sees (propertiesOf depth owner declared) (propertiesOf depth owner declared) draft
      (Task.Seen (.members owner declared, draft)) := by
  induction declared generalizing draft with
  | nil => exact .pure []
  | cons entry rest ih =>
    obtain ⟨name, fragment⟩ := entry
    simp only [propertiesOf]
    split
    · exact (ih draft).mono fun _ => .head (.implied ‹_›)
    · rename_i hname
      have htype := fragmentType_sees owner depth name fragment
        ⟨owner.document.requires name, fragment.get? "default"⟩ draft
      refine .bind (htype.mono fun _ => .head (.member hname)) fun {type between} hends => ?_
      have hrest := (ih between).mono fun _ =>
        Task.Seen.head (.rest hname (fragmentType_types hends))
      cases type with
      | none => exact hrest
      | some type => exact .bind hrest fun _ => .pure _

theorem objectBody_sees (hshape : SchemaShape.of owner.document.body = .object) :
    Sees (objectBody depth owner) (objectBody depth owner) draft
      (Task.Seen (.body owner, draft)) := by
  unfold objectBody
  refine .bind (baseOf_sees hshape) fun {base between} hbase => ?_
  refine .bind ((propertiesOf_sees _ between).mono fun _ => ?_) fun _ => .pure _
  exact .head (.properties hshape (baseOf_derives hbase))

theorem enumerationBody_sees {listsItems : Bool} :
    Sees (enumerationBody owner listsItems) (enumerationBody owner listsItems) draft seen := by
  unfold enumerationBody
  refine .get_bind (.bind enumerationOf_sees fun {found _} _ => ?_)
  cases found with
  | none => exact .pure _
  | some e =>
    dsimp only
    split
    · exact .bind (.onCatalog _) fun _ => .pure _
    · exact .pure _

theorem valueBody_sees (hshape : SchemaShape.of owner.document.body = .array ∨
      ∃ kind, SchemaShape.of owner.document.body = .scalar kind) :
    Sees (valueBody depth owner) (valueBody depth owner) draft
      (Task.Seen (.body owner, draft)) := by
  unfold valueBody
  have htype := fragmentType_sees owner depth owner.typeName owner.document.body
    ⟨true, owner.document.body.get? "default"⟩ draft
  refine .bind (htype.mono fun _ => .head (.value hshape)) fun {type _} _ => ?_
  cases type <;> exact .pure _

theorem bodyOf_sees (depth : Nat) (owner : Owner) (draft : Draft) :
    Sees (bodyOf depth owner) (bodyOf depth owner) draft (Task.Seen (.body owner, draft)) := by
  unfold bodyOf
  cases hshape : SchemaShape.of owner.document.body <;> simp only [hshape]
  case object => exact objectBody_sees hshape
  case scalar kind => exact valueBody_sees (.inr ⟨kind, hshape⟩)
  case array => exact valueBody_sees (.inl hshape)
  case anyOf | enumeration =>
    split
    · exact enumerationBody_sees
    · exact .bind (.onCatalog _) fun _ => .pure _
  all_goals exact .bind (.onCatalog _) fun _ => .pure _

theorem classOf_sees {document : Document} :
    Sees (classOf depth document) (classOf depth document) draft
      (Task.Seen (.body ⟨document, draft.displayName document⟩, draft)) := by
  unfold classOf
  refine .get_bind (.bind (bodyOf_sees depth _ draft) fun _ => ?_)
  exact .get_bind (.pure _)

end

/-! ### Calls -/

section

variable {id : ClassId} {rest : List ClassId}

theorem SeenFrom.steps {after : Draft} {moment : Moment} (h : Steps .known draft after)
    (k : SeenFrom after moment) : SeenFrom draft moment := by
  obtain ⟨during, first, hsteps, hbegins, hseen⟩ := k
  exact ⟨during, first, h.trans hsteps, hbegins, hseen⟩

theorem draftAt_sees (hpending : draft.pending = id :: rest) :
    Sees (draftAt depth id) (draftAt depth id) { draft with pending := rest } (SeenFrom draft) := by
  unfold draftAt
  refine .get_bind ?_
  cases hplace : draft.places[id]? with
  | none => exact .pure ()
  | some place =>
    refine .bind (.inContext (classOf_sees.mono fun moment hseen => ?_)) fun _ => .modify _
    exact ⟨draft, _, .refl, .drafted hpending hplace, hseen⟩

theorem drain_sees (depth : Nat) (draft : Draft) :
    Sees (drain depth) (drain depth) draft (SeenFrom draft) := by
  induction depth generalizing draft with
  | zero => exact .outOfDepth
  | succ depth ih =>
    simp only [drain]
    refine .get_bind ?_
    cases hpending : draft.pending with
    | nil => exact .pure ()
    | cons id rest =>
      refine .bind (.modify _) fun hpop => ?_
      obtain rfl := modify_inv hpop
      refine .bind (draftAt_sees hpending) fun {_ next} hdrafted => ?_
      exact (ih next).mono fun _ => .steps (draftAt_steps hpending hdrafted)

/-- The reference of a call is loaded as it is called; whatever else is seen belongs to a task. -/
theorem resolve_sees (depth : Nat) (reference : String) (draft : Draft) :
    Sees (resolve depth reference) (resolve depth reference) draft
      fun moment => moment = .loading reference draft ∨ SeenFrom draft moment := by
  unfold resolve
  refine .get_bind ?_
  cases Ordered.get? draft.resolved reference with
  | some id => exact .pure _
  | none =>
    refine .bind (.load (.inl rfl)) fun {found loaded} hload => ?_
    cases found with
    | none => exact .pure none
    | some document =>
      have hloaded : Steps .known draft loaded := (load_looks hload).steps
      have known := load_knows hload
      refine .bind ((intern_sees depth document loaded).mono fun _ hseen => .inr ?_)
        fun {id interned} hid => ?_
      · exact ⟨loaded, _, hloaded, .intern known, hseen⟩
      cases id with
      | none => exact .pure none
      | some id =>
        have hinterned := hloaded.tail (.intern (.inr known) (intern_interns hid))
        refine .bind ((drain_sees depth interned).mono fun _ hseen => .inr ?_) fun _ => ?_
        · exact hseen.steps hinterned
        · exact .bind (.modify _) fun _ => .pure _

theorem resolveExtension_sees (depth : Nat) {document : Document} (names : ExtensionNames)
    (known : draft.catalog.Knows document) :
    Sees (resolveExtension depth document names) (resolveExtension depth document names) draft
      (SeenFrom draft) := by
  unfold resolveExtension
  refine .bind (.modify _) fun {_ named} hname => ?_
  obtain rfl := modify_inv hname
  have hnamed : Steps .known draft { draft with
      extensionNames := Ordered.put draft.extensionNames document.key names } :=
    .single (.name (.inr known) trivial)
  refine .bind ((intern_sees depth document _).mono fun _ hseen => ?_) fun {id interned} hid => ?_
  · exact ⟨_, _, hnamed, .intern known, hseen⟩
  cases id with
  | none => exact .pure none
  | some id =>
    have hinterned := hnamed.tail (.intern (.inr known) (intern_interns hid))
    exact .bind ((drain_sees depth interned).mono fun _ => .steps hinterned) fun _ => .pure _

end

end SchemaClasses.Drafting
