import SchemaClasses.Proofs.ClassTable.Renumbering
import SchemaClasses.Proofs.Drafting.Hosts

/-!
# Drafts that agree on a class

Two drafts of the same files agree on a class when they know the same of what is declared in it, and
have the same places for that. Whatever else they know, drafting the class takes both to drafts that
agree on it again, and turns its schema into the same class, up to the numbers of other classes.
-/

namespace SchemaClasses

namespace Draft

def documentsIn (home : List (List Char)) (draft : Draft) : List Document :=
  (draft.places.map (·.document)).filter fun document => Location.host document.key = home

/-- The same is known and has places of what is declared in a class, in the same surroundings. -/
structure Agree (home : List (List Char)) (draft other : Draft) : Prop where
  texts : draft.catalog.SameTexts other.catalog
  searchPaths : other.catalog.searchPaths = draft.catalog.searchPaths
  context : other.catalog.context = draft.catalog.context
  settings : other.settings = draft.settings
  naming : other.naming = draft.naming
  following : other.following = draft.following
  extensionNames : other.extensionNames = draft.extensionNames
  declared : ∀ key, Location.IsInline key → Location.host key = home →
    other.catalog.document? key = draft.catalog.document? key
  documents : other.documentsIn home = draft.documentsIn home

/-- Classes with the same key have the same number. -/
def NumberAlike (number number' : ClassId → ClassId) (draft other : Draft) : Prop :=
  ∀ ⦃id id' key⦄, draft.Holds id key → other.Holds id' key → number id = number' id'

variable {home : List (List Char)} {draft other after after' : Draft}

theorem NumberAlike.before {number number' : ClassId → ClassId}
    (h : NumberAlike number number' after after') (within : draft.Within after)
    (within' : other.Within after') : NumberAlike number number' draft other :=
  fun _ _ _ holds holds' => h (within.holds holds) (within'.holds holds')

theorem mem_documentsIn {document : Document} : document ∈ draft.documentsIn home ↔
    (∃ place ∈ draft.places, place.document = document) ∧ Location.host document.key = home := by
  simp [documentsIn]

theorem documentsIn_append (home : List (List Char)) (draft : Draft) (own : Document) :
    (draft.append own).documentsIn home =
      draft.documentsIn home ++ if Location.host own.key = home then [own] else [] := by
  simp only [documentsIn, append, List.map_append, List.filter_append]
  by_cases h : Location.host own.key = home <;> simp [h]

theorem Holds.mem_keys {id : ClassId} {key : String} (h : draft.Holds id key) :
    key ∈ draft.keys := by
  obtain ⟨place, hplace, rfl⟩ := Option.map_eq_some_iff.mp h
  exact List.mem_map.mpr ⟨place, List.mem_of_getElem? hplace, rfl⟩

theorem mem_keys {key : String} :
    key ∈ draft.keys ↔ ∃ place ∈ draft.places, place.document.key = key := List.mem_map

namespace Agree

theorem mem_keys (h : draft.Agree home other) {key : String} (hhost : Location.host key = home) :
    key ∈ other.keys ↔ key ∈ draft.keys := by
  have hdocuments (some : Draft) : key ∈ some.keys ↔
      ∃ document ∈ some.documentsIn home, document.key = key := by
    rw [Draft.mem_keys]
    constructor
    · rintro ⟨place, hplace, rfl⟩
      exact ⟨place.document, mem_documentsIn.mpr ⟨⟨place, hplace, rfl⟩, hhost⟩, rfl⟩
    · rintro ⟨document, hdocument, rfl⟩
      obtain ⟨⟨place, hplace, rfl⟩, -⟩ := mem_documentsIn.mp hdocument
      exact ⟨place, hplace, rfl⟩
  rw [hdocuments, hdocuments, h.documents]

theorem displayName (h : draft.Agree home other) (document : Document) :
    other.displayName document = draft.displayName document := by
  unfold Draft.displayName
  rw [h.extensionNames, h.settings]

/-- Surroundings stay the same while drafts grow. -/
theorem of_grows (h : draft.Agree home other) (grows : draft.Grows after)
    (grows' : other.Grows after')
    (declared : ∀ key, Location.IsInline key → Location.host key = home →
      after'.catalog.document? key = after.catalog.document? key)
    (documents : after'.documentsIn home = after.documentsIn home) :
    after.Agree home after' where
  texts := h.texts.of_grows grows.catalog grows'.catalog
  searchPaths := by rw [grows'.catalog.searchPaths, grows.catalog.searchPaths, h.searchPaths]
  context := by rw [grows'.catalog.context, grows.catalog.context, h.context]
  settings := by rw [grows'.settings, grows.settings, h.settings]
  naming := by rw [grows'.naming, grows.naming, h.naming]
  following := by rw [grows'.following, grows.following, h.following]
  extensionNames := by rw [grows'.extensionNames, grows.extensionNames, h.extensionNames]
  declared := declared
  documents := documents

theorem of_learns {catalog catalog' : Catalog} (h : draft.Agree home other)
    (grows : draft.catalog.Grows catalog) (grows' : other.catalog.Grows catalog')
    (declared : ∀ key, Location.IsInline key → Location.host key = home →
      catalog'.document? key = catalog.document? key) :
    Agree home { draft with catalog := catalog } { other with catalog := catalog' } :=
  h.of_grows (.of_catalog grows) (.of_catalog grows') declared h.documents

theorem warn (h : draft.Agree home other) (warning : Warning) :
    Agree home { draft with catalog := draft.catalog.warn warning }
      { other with catalog := other.catalog.warn warning } :=
  h.of_learns (draft.catalog.warn_grows _) (other.catalog.warn_grows _) h.declared

theorem enter (h : draft.Agree home other) (document : Document) :
    Agree home { draft with catalog := draft.catalog.enter document }
      { other with catalog := other.catalog.enter document } where
  texts := ⟨h.texts.files, h.texts.downloads⟩
  searchPaths := h.searchPaths
  context := congrArg (document.source :: ·) h.context
  settings := h.settings
  naming := h.naming
  following := h.following
  extensionNames := h.extensionNames
  declared := h.declared
  documents := h.documents

theorem leave (h : draft.Agree home other) :
    Agree home { draft with catalog := draft.catalog.leave }
      { other with catalog := other.catalog.leave } where
  texts := ⟨h.texts.files, h.texts.downloads⟩
  searchPaths := h.searchPaths
  context := congrArg List.tail h.context
  settings := h.settings
  naming := h.naming
  following := h.following
  extensionNames := h.extensionNames
  declared := h.declared
  documents := h.documents

theorem follow (h : draft.Agree home other) (f : List String → List String) :
    Agree home { draft with following := f draft.following }
      { other with following := f other.following } where
  texts := h.texts
  searchPaths := h.searchPaths
  context := h.context
  settings := h.settings
  naming := h.naming
  following := congrArg f h.following
  extensionNames := h.extensionNames
  declared := h.declared
  documents := h.documents

end Agree

end Draft

namespace Catalog

variable {catalog other : Catalog} {home : List (List Char)} {document : Document}

/-- Where the same is known of a class, inserting a document leads to the same again. -/
theorem insert_same
    (h : ∀ key, Location.IsInline key → Location.host key = home →
      other.document? key = catalog.document? key)
    (hinline : Location.IsInline document.key) (hhost : Location.host document.key = home) :
    (other.insert document).1 = (catalog.insert document).1 ∧
      ∀ key, Location.IsInline key → Location.host key = home →
        (other.insert document).2.document? key = (catalog.insert document).2.document? key := by
  unfold insert
  rw [h document.key hinline hhost]
  split
  · exact ⟨rfl, h⟩
  · refine ⟨rfl, fun key hkey hhome => ?_⟩
    have hsame := h key hkey hhome
    unfold document? at hsame ⊢
    simp only [add, List.find?_cons, hsame]

end Catalog

namespace Drafting

variable {home : List (List Char)} {draft other after after' : Draft}
variable {number number' : ClassId → ClassId}

theorem load_agree {reference : String} {found found' : Option Document}
    (agree : draft.Agree home other) (sound : draft.catalog.Sound) (sound' : other.catalog.Sound)
    (plain : Location.IsPlain reference) (h : load reference draft = some (found, after))
    (h' : load reference other = some (found', after')) :
    found' = found ∧ after.Agree home after' := by
  obtain ⟨rfl, rfl⟩ := load_inv h
  obtain ⟨rfl, rfl⟩ := load_inv h'
  refine ⟨sound.load_found sound' agree.texts agree.searchPaths agree.context plain, ?_⟩
  refine agree.of_learns (draft.catalog.load_finds reference).grows
    (other.catalog.load_finds reference).grows fun key hkey hhost => ?_
  rw [(sound.load_learns plain).inline key hkey, (sound'.load_learns plain).inline key hkey]
  exact agree.declared key hkey hhost

theorem insert_agree {document known known' : Document} (agree : draft.Agree home other)
    (sound : draft.catalog.Sound) (sound' : other.catalog.Sound)
    (seen : Location.SeenFrom home document.key)
    (part : ¬Location.IsInline document.key →
      draft.catalog.PartOf document ∧ other.catalog.PartOf document)
    (h : insert document draft = some (known, after))
    (h' : insert document other = some (known', after')) :
    known' = known ∧ after.Agree home after' := by
  obtain ⟨rfl, rfl⟩ := insert_inv h
  obtain ⟨rfl, rfl⟩ := insert_inv h'
  have hgrows := (draft.catalog.insert_finds document).grows
  have hgrows' := (other.catalog.insert_finds document).grows
  by_cases hinline : Location.IsInline document.key
  · obtain ⟨hknown, hdeclared⟩ := Catalog.insert_same agree.declared hinline
      (seen.resolve_left fun hnot => hnot hinline)
    exact ⟨hknown, agree.of_learns hgrows hgrows' hdeclared⟩
  · obtain ⟨hpart, hpart'⟩ := part hinline
    have hlearns := Catalog.LearnsParts.insert sound.coherent hinline hpart
    have hlearns' := Catalog.LearnsParts.insert sound'.coherent hinline hpart'
    refine ⟨?_, agree.of_learns hgrows hgrows' fun key hkey hhost => ?_⟩
    · rw [sound.insert_part hpart hinline, sound'.insert_part hpart' hinline]
    · rw [hlearns.inline key hkey, hlearns'.inline key hkey]
      exact agree.declared key hkey hhost

theorem firstEntry_agree {document known known' : Document} {body : Json} {rest : List Json}
    (agree : draft.Agree home other) (sound : draft.catalog.Sound) (sound' : other.catalog.Sound)
    (hknown : draft.catalog.Knows document) (hknown' : other.catalog.Knows document)
    (seen : Location.SeenFrom home document.key)
    (hentries : document.body.array? "allOf" = some (body :: rest))
    (h : insert (document.firstEntry body) draft = some (known, after))
    (h' : insert (document.firstEntry body) other = some (known', after')) :
    known' = known ∧ after.Agree home after' := by
  have hseen : Location.SeenFrom home (document.firstEntry body).key := seen.firstEntry
  refine insert_agree agree sound sound' hseen (fun hinline => ?_) h h'
  have hdocument : ¬Location.IsInline document.key := fun hdocument =>
    hinline ((Location.host_firstEntry document.key).1.mpr hdocument)
  exact ⟨(sound.coherent document hknown hdocument).firstEntry hentries,
    (sound'.coherent document hknown' hdocument).firstEntry hentries⟩

theorem target_agree {document : Document} {link : Link} {found found' : Option Document}
    (agree : draft.Agree home other) (sound : draft.catalog.Sound) (sound' : other.catalog.Sound)
    (known : draft.catalog.Knows document) (known' : other.catalog.Knows document)
    (seen : Location.SeenFrom home document.key) (hlink : document.link? = some link)
    (h : target document link draft = some (found, after))
    (h' : target document link other = some (found', after')) :
    found' = found ∧ after.Agree home after' := by
  cases link with
  | reference reference =>
    obtain ⟨inner, hload, rfl⟩ := inContext_inv h
    obtain ⟨inner', hload', rfl⟩ := inContext_inv h'
    have plain := (sound.sourced.reads_enter known).isPlain_of_link? (sound.enter _) hlink
    obtain ⟨hfound, hinner⟩ := load_agree (agree.enter document) (sound.enter document)
      (sound'.enter document) plain hload hload'
    exact ⟨hfound, hinner.leave⟩
  | entry body =>
    obtain ⟨next, between, hinsert, h⟩ := bind_inv h
    obtain ⟨rfl, rfl⟩ := pure_inv h
    obtain ⟨next', between', hinsert', h'⟩ := bind_inv h'
    obtain ⟨rfl, rfl⟩ := pure_inv h'
    obtain ⟨rfl, hagree⟩ := firstEntry_agree agree sound sound' known known' seen
      (array?_of_onlyBase? (Document.link?_entry_inv hlink)) hinsert hinsert'
    exact ⟨rfl, hagree⟩

theorem Unaliases.agree {seen : List String} {document : Document}
    {found found' : Option Document} (h : Unaliases seen document draft found after)
    (h' : Unaliases seen document other found' after') (agree : draft.Agree home other)
    (sound : draft.catalog.Sound) (sound' : other.catalog.Sound)
    (known : draft.catalog.Knows document) (known' : other.catalog.Knows document)
    (seenFrom : Location.SeenFrom home document.key) :
    found' = found ∧ after.Agree home after' := by
  induction h generalizing other found' after' with
  | circle hseen =>
    cases h' with
    | circle => exact ⟨rfl, agree.warn _⟩
    | itself hnot | lost hnot | next hnot => exact absurd hseen hnot
  | itself hseen hlink =>
    cases h' with
    | circle hseen' => exact absurd hseen' hseen
    | itself => exact ⟨rfl, agree⟩
    | lost _ hlink' | next _ hlink' => simp [hlink] at hlink'
  | lost hseen hlink htarget =>
    cases h' with
    | circle hseen' => exact absurd hseen' hseen
    | itself _ hlink' => simp [hlink] at hlink'
    | lost _ hlink' htarget' =>
      obtain rfl := Option.some.inj (hlink.symm.trans hlink')
      exact target_agree agree sound sound' known known' seenFrom hlink htarget htarget'
    | next _ hlink' htarget' =>
      obtain rfl := Option.some.inj (hlink.symm.trans hlink')
      obtain ⟨hfound, -⟩ :=
        target_agree agree sound sound' known known' seenFrom hlink htarget htarget'
      cases hfound
  | next hseen hlink htarget _ ih =>
    cases h' with
    | circle hseen' => exact absurd hseen' hseen
    | itself _ hlink' => simp [hlink] at hlink'
    | lost _ hlink' htarget' =>
      obtain rfl := Option.some.inj (hlink.symm.trans hlink')
      obtain ⟨hfound, -⟩ :=
        target_agree agree sound sound' known known' seenFrom hlink htarget htarget'
      cases hfound
    | next _ hlink' htarget' hrest' =>
      obtain rfl := Option.some.inj (hlink.symm.trans hlink')
      obtain ⟨hfound, hagree⟩ :=
        target_agree agree sound sound' known known' seenFrom hlink htarget htarget'
      obtain rfl := Option.some.inj hfound
      obtain ⟨hstays, hnext⟩ := target_staysIn sound known seenFrom hlink htarget
      have hstays' := (target_staysIn sound' known' seenFrom hlink htarget').1
      exact ih hrest' hagree hstays.sound hstays'.sound (target_knows htarget)
        (target_knows htarget') (hnext _ rfl)

/-- A document that is interned gets a place unless it has one. -/
theorem Interns.places {document : Document} {id : ClassId}
    (h : Interns document draft (some id) after) (home : List (List Char)) :
    ∃ own between, Unaliases [] document draft (some own) between ∧ between.Grows after ∧
      after.catalog = between.catalog ∧ after.Holds id own.key ∧
      after.documentsIn home = between.documentsIn home ++
        if Location.host own.key = home ∧ own.key ∉ between.keys then [own] else [] := by
  cases h with
  | @known own _ _ hown hid =>
    have holds := Draft.holds_of_idOf? hid
    refine ⟨own, after, hown, .refl after, rfl, holds, ?_⟩
    rw [if_neg, List.append_nil]
    exact fun hnew => hnew.2 holds.mem_keys
  | @added own between hown hnew =>
    refine ⟨own, between, hown, Draft.append_grows hnew hown.link?, rfl, Draft.append_holds _ _, ?_⟩
    have hkey := Draft.not_mem_keys hnew
    simp only [Draft.documentsIn_append, hkey, not_false_eq_true, and_true]

/-- Whether a document gets a place in one draft only makes no difference to a class in which it is
not declared. -/
theorem Interns.agree {document : Document} {id id' : Option ClassId}
    (h : Interns document draft id after) (h' : Interns document other id' after')
    (agree : draft.Agree home other) (sound : draft.catalog.Sound)
    (sound' : other.catalog.Sound) (known : draft.catalog.Knows document)
    (known' : other.catalog.Knows document) (seenFrom : Location.SeenFrom home document.key)
    (alike : Draft.NumberAlike number number' after after') :
    id'.map number' = id.map number ∧ after.Agree home after' := by
  have hown {found found' : Option Document} {between between' : Draft}
      (k : Unaliases [] document draft found between)
      (k' : Unaliases [] document other found' between') :
      found' = found ∧ between.Agree home between' :=
    k.agree k' agree sound sound' known known' seenFrom
  cases id with
  | none =>
    obtain ⟨k⟩ := h
    cases id' with
    | none =>
      obtain ⟨k'⟩ := h'
      exact ⟨rfl, (hown k k').2⟩
    | some id' =>
      obtain ⟨own', between', k', -⟩ := h'.places home
      cases (hown k k').1
  | some id =>
    obtain ⟨own, between, k, grows, hcatalog, holds, hdocuments⟩ := h.places home
    cases id' with
    | none =>
      obtain ⟨k'⟩ := h'
      cases (hown k k').1
    | some id' =>
      obtain ⟨own', between', k', grows', hcatalog', holds', hdocuments'⟩ := h'.places home
      obtain ⟨heq, hagree⟩ := hown k k'
      obtain rfl := Option.some.inj heq
      refine ⟨congrArg some (alike holds holds').symm, hagree.of_grows grows grows' ?_ ?_⟩
      · rw [hcatalog, hcatalog']
        exact hagree.declared
      · have hplace : (Location.host own'.key = home ∧ own'.key ∉ between'.keys) ↔
            Location.host own'.key = home ∧ own'.key ∉ between.keys :=
          and_congr_right fun hhost => not_congr (hagree.mem_keys hhost)
        simp only [hdocuments, hdocuments', hagree.documents, hplace]

section

variable {owner : Owner} {path : String} {fragment : Json} {usage : Usage} {depth depth' : Nat}

theorem enumerationOf_agree {label name scope : String} {default : Option Json}
    {found found' : Option Enumeration} (agree : draft.Agree home other)
    (h : enumerationOf label name scope fragment default draft = some (found, after))
    (h' : enumerationOf label name scope fragment default other = some (found', after')) :
    found' = found ∧ after.Agree home after' := by
  obtain ⟨e, hread, rfl, rfl⟩ | ⟨fault, hread, rfl, rfl⟩ := enumerationOf_inv h <;>
    obtain ⟨e', hread', rfl, rfl⟩ | ⟨fault', hread', rfl, rfl⟩ := enumerationOf_inv h' <;>
    cases hread.symm.trans hread'
  · exact ⟨rfl, agree⟩
  · exact ⟨rfl, agree.warn _⟩

theorem enumerationType_agree {type type' : Descriptor} (agree : draft.Agree home other)
    (h : enumerationType owner path fragment usage draft = some (type, after))
    (h' : enumerationType owner path fragment usage other = some (type', after')) :
    type'.renumbered number' = type.renumbered number ∧ after.Agree home after' := by
  unfold enumerationType at h h'
  rw [get_bind] at h h'
  rw [agree.naming] at h'
  obtain ⟨found, between, hread, hnext⟩ := bind_inv h
  obtain ⟨found', between', hread', hnext'⟩ := bind_inv h'
  obtain ⟨rfl, hagree⟩ := enumerationOf_agree agree hread hread'
  cases found' <;> obtain ⟨rfl, rfl⟩ := pure_inv hnext <;>
    obtain ⟨rfl, rfl⟩ := pure_inv hnext' <;> exact ⟨rfl, hagree⟩

theorem inlineObjectType_agree {isOptional : Bool} {type type' : Descriptor}
    (agree : draft.Agree home other) (sound : draft.catalog.Sound) (sound' : other.catalog.Sound)
    (reads : draft.catalog.Reads fragment) (reads' : other.catalog.Reads fragment)
    (habsolute : Location.isAbsolute owner.document.key = true)
    (hhost : Location.host owner.document.key = home)
    (alike : Draft.NumberAlike number number' after after')
    (h : inlineObjectType depth owner path fragment isOptional draft = some (type, after))
    (h' : inlineObjectType depth' owner path fragment isOptional other = some (type', after')) :
    type'.renumbered number' = type.renumbered number ∧ after.Agree home after' := by
  obtain ⟨document, between, id, hdocument, hid, rfl⟩ := inlineObjectType_inv h
  obtain ⟨document', between', id', hdocument', hid', rfl⟩ := inlineObjectType_inv h'
  obtain ⟨hstays, hseen⟩ := inlineDocument_staysIn sound reads habsolute hhost hdocument
  obtain ⟨hstays', -⟩ := inlineDocument_staysIn sound' reads' habsolute hhost hdocument'
  have hinsert := inlineDocument_inv hdocument
  have hinsert' := inlineDocument_inv hdocument'
  obtain ⟨hown, hinline⟩ := Location.host_inline owner.document.key path
  have htop : other.catalog.contextTop? = draft.catalog.contextTop? := by
    rw [Catalog.contextTop?, Catalog.contextTop?, agree.context]
  rw [htop] at hinsert'
  obtain ⟨rfl, hagree⟩ : document' = document ∧ between.Agree home between' := by
    refine insert_agree agree sound sound' ?_ ?_ hinsert hinsert'
    · exact .inr (hown.trans hhost)
    · exact fun hnot => absurd hinline hnot
  obtain ⟨hids, hafter⟩ := hid.agree hid' hagree hstays.sound hstays'.sound (insert_knows hinsert)
    (insert_knows hinsert') hseen alike
  refine ⟨?_, hafter⟩
  rw [hafter.naming, hagree.displayName, Descriptor.renumbered_getD_map fun _ => rfl,
    Descriptor.renumbered_getD_map fun _ => rfl, hids]

/-- Two ways of finding types find the same type of a fragment that both drafts read, up to numbers,
when the drafts agree on a class. -/
def Resolve.Agree (home : List (List Char)) (number number' : ClassId → ClassId)
    (resolve resolve' : Resolve Option) : Prop :=
  ∀ ⦃path fragment usage draft other type type' after after'⦄,
    resolve path fragment usage draft = some (type, after) →
    resolve' path fragment usage other = some (type', after') →
    draft.Agree home other → draft.catalog.Sound → other.catalog.Sound →
    draft.catalog.Reads fragment → other.catalog.Reads fragment →
    Draft.NumberAlike number number' after after' →
    type'.map (·.renumbered number') = type.map (·.renumbered number) ∧ after.Agree home after'

theorem arrayType_agree {resolve resolve' : Resolve Option} {items : Option Json}
    {type type' : Option Descriptor} (hresolve : Resolve.Agree home number number' resolve resolve')
    (agree : draft.Agree home other) (sound : draft.catalog.Sound) (sound' : other.catalog.Sound)
    (reads : ∀ item, items = some item → draft.catalog.Reads item)
    (reads' : ∀ item, items = some item → other.catalog.Reads item)
    (alike : Draft.NumberAlike number number' after after')
    (h : arrayType resolve path items usage draft = some (type, after))
    (h' : arrayType resolve' path items usage other = some (type', after')) :
    type'.map (·.renumbered number') = type.map (·.renumbered number) ∧
      after.Agree home after' := by
  obtain ⟨rfl, rfl, rfl⟩ | ⟨fragment, item, rfl, hitem, rfl⟩ := arrayType_inv h
  · obtain ⟨-, rfl, rfl⟩ | ⟨fragment, item, hsome, -⟩ := arrayType_inv h'
    · exact ⟨rfl, agree⟩
    · cases hsome
  · obtain ⟨hnone, -⟩ | ⟨fragment', item', heq, hitem', rfl⟩ := arrayType_inv h'
    · cases hnone
    · obtain rfl := Option.some.inj heq
      obtain ⟨hitems, hagree⟩ := hresolve hitem hitem' agree sound sound' (reads _ rfl)
        (reads' _ rfl) alike
      refine ⟨?_, hagree⟩
      have harray := congrArg (Option.map (Descriptor.arrayOf · usage.default)) hitems
      simpa only [Option.map_map, Function.comp_def, Descriptor.renumbered_arrayOf] using harray

theorem dictionaryType_agree {resolve resolve' : Resolve Option} {values : Json}
    {type type' : Descriptor} (hresolve : Resolve.Agree home number number' resolve resolve')
    (agree : draft.Agree home other) (sound : draft.catalog.Sound) (sound' : other.catalog.Sound)
    (reads : draft.catalog.Reads values) (reads' : other.catalog.Reads values)
    (alike : Draft.NumberAlike number number' after after')
    (h : dictionaryType resolve path values draft = some (type, after))
    (h' : dictionaryType resolve' path values other = some (type', after')) :
    type'.renumbered number' = type.renumbered number ∧ after.Agree home after' := by
  obtain ⟨hany, rfl, rfl⟩ | ⟨hany, value, hvalue, rfl⟩ := dictionaryType_inv h
  · obtain ⟨-, rfl, rfl⟩ | ⟨hnot, -⟩ := dictionaryType_inv h'
    · exact ⟨rfl, agree⟩
    · exact absurd hany hnot
  · obtain ⟨hany', -⟩ | ⟨-, value', hvalue', rfl⟩ := dictionaryType_inv h'
    · exact absurd hany' hany
    · obtain ⟨hvalues, hagree⟩ := hresolve hvalue hvalue' agree sound sound' reads reads' alike
      refine ⟨?_, hagree⟩
      rw [Descriptor.renumbered_dictionaryOf, Descriptor.renumbered_dictionaryOf,
        Descriptor.renumbered_getD, Descriptor.renumbered_getD, hvalues]

theorem classType_agree {document : Document} {className : String} {isOptional : Bool}
    {type type' : Descriptor} (agree : draft.Agree home other) (sound : draft.catalog.Sound)
    (sound' : other.catalog.Sound) (known : draft.catalog.Knows document)
    (known' : other.catalog.Knows document) (seenFrom : Location.SeenFrom home document.key)
    (alike : Draft.NumberAlike number number' after after')
    (h : classType depth document className isOptional draft = some (type, after))
    (h' : classType depth' document className isOptional other = some (type', after')) :
    type'.renumbered number' = type.renumbered number ∧ after.Agree home after' := by
  obtain ⟨id, hid, rfl⟩ := classType_inv h
  obtain ⟨id', hid', rfl⟩ := classType_inv h'
  obtain ⟨hids, hafter⟩ := hid.agree hid' agree sound sound' known known' seenFrom alike
  refine ⟨?_, hafter⟩
  have hreference (number : ClassId → ClassId) (target : ClassId) :=
    Descriptor.renumbered_reference (σ := number) after.naming target className
      ((document.title?.map draft.settings.isAsset).getD false) isOptional
  rw [hafter.naming, agree.settings, Descriptor.renumbered_getD_map (hreference number'),
    Descriptor.renumbered_getD_map (hreference number), hids]

theorem followedType_agree {resolve resolve' : Resolve Option} {reference : String}
    {document : Document} {type type' : Descriptor}
    (hresolve : Resolve.Agree home number number' resolve resolve')
    (agree : draft.Agree home other) (sound : draft.catalog.Sound) (sound' : other.catalog.Sound)
    (known : draft.catalog.Knows document) (known' : other.catalog.Knows document)
    (alike : Draft.NumberAlike number number' after after')
    (h : followedType resolve owner path reference document usage draft = some (type, after))
    (h' : followedType resolve' owner path reference document usage other = some (type', after')) :
    type'.renumbered number' = type.renumbered number ∧ after.Agree home after' := by
  have hfollowing := agree.following
  obtain ⟨hmem, rfl, rfl⟩ | ⟨hnot, inner, last, hinner, rfl, rfl⟩ := followedType_inv h
  · obtain ⟨-, rfl, rfl⟩ | ⟨hnot', -⟩ := followedType_inv h'
    · exact ⟨rfl, agree.warn _⟩
    · exact absurd (hfollowing ▸ hmem) hnot'
  · obtain ⟨hmem', -⟩ | ⟨-, inner', last', hinner', rfl, rfl⟩ := followedType_inv h'
    · exact absurd (hfollowing ▸ hmem') hnot
    · have hentered := (agree.enter document).follow (document.key :: ·)
      obtain ⟨htypes, hlast⟩ := hresolve hinner hinner' hentered (sound.enter document)
        (sound'.enter document) (sound.sourced.reads_enter known)
        (sound'.sourced.reads_enter known') alike
      refine ⟨?_, hlast.leave.follow List.tail⟩
      rw [Descriptor.renumbered_getD, Descriptor.renumbered_getD, htypes]

theorem referenceType_agree {resolve resolve' : Resolve Option} {reference : String}
    {type type' : Descriptor} (hresolve : Resolve.Agree home number number' resolve resolve')
    (agree : draft.Agree home other) (sound : draft.catalog.Sound) (sound' : other.catalog.Sound)
    (plain : Location.IsPlain reference) (alike : Draft.NumberAlike number number' after after')
    (h : referenceType depth resolve owner path reference usage draft = some (type, after))
    (h' : referenceType depth' resolve' owner path reference usage other = some (type', after')) :
    type'.renumbered number' = type.renumbered number ∧ after.Agree home after' := by
  unfold referenceType at h h'
  obtain ⟨found, between, hload, h⟩ := bind_inv h
  obtain ⟨found', between', hload', h'⟩ := bind_inv h'
  obtain ⟨rfl, hagree⟩ := load_agree agree sound sound' plain hload hload'
  cases found' with
  | none =>
    obtain ⟨rfl, rfl⟩ := warn_pure_inv h
    obtain ⟨rfl, rfl⟩ := warn_pure_inv h'
    exact ⟨rfl, hagree.warn _⟩
  | some document =>
    have hstays := load_staysIn home sound plain hload
    have hstays' := load_staysIn home sound' plain hload'
    have known := load_knows hload
    have known' := load_knows hload'
    dsimp only at h h'
    by_cases hindex : document.title? = some indexTitle
    · rw [if_pos hindex] at h h'
      obtain ⟨rfl, rfl⟩ := pure_inv h
      obtain ⟨rfl, rfl⟩ := pure_inv h'
      exact ⟨rfl, hagree⟩
    · rw [if_neg hindex, get_bind] at h h'
      rw [hagree.displayName] at h'
      by_cases hjson : between.displayName document = Naming.jsonValue
      · rw [if_pos hjson] at h h'
        obtain ⟨rfl, rfl⟩ := pure_inv h
        obtain ⟨rfl, rfl⟩ := pure_inv h'
        exact ⟨rfl, hagree⟩
      · rw [if_neg hjson] at h h'
        by_cases hclass : isClassLike document.body = true
        · rw [if_pos hclass] at h h'
          exact classType_agree hagree hstays.sound hstays'.sound known known'
            (load_seenFrom sound plain hload) alike h h'
        · rw [if_neg hclass] at h h'
          exact followedType_agree hresolve hagree hstays.sound hstays'.sound known known' alike
            h h'

theorem documented_same {bare bare' : Option Descriptor} (doc : Documentation)
    (h : bare'.map (·.renumbered number') = bare.map (·.renumbered number)) :
    (bare'.map (·.documented doc)).map (·.renumbered number') =
      (bare.map (·.documented doc)).map (·.renumbered number) := by
  have hdocumented := congrArg (Option.map (·.documented doc)) h
  simpa only [Option.map_map, Function.comp_def, Descriptor.renumbered_documented]
    using hdocumented

theorem fragmentType_agree (habsolute : Location.isAbsolute owner.document.key = true)
    (hhost : Location.host owner.document.key = home) :
    Resolve.Agree home number number' (fragmentType owner depth) (fragmentType owner depth') := by
  induction depth generalizing depth' with
  | zero => intro _ _ _ _ _ _ _ _ _ h; cases h
  | succ depth ih =>
    intro path fragment usage draft other type type' after after' h h' agree sound sound' reads
      reads' alike
    cases depth' with
    | zero => cases h'
    | succ depth' =>
      have hresolve : Resolve.Agree home number number' (fragmentType owner depth)
          (fragmentType owner depth') := ih
      rw [fragmentType] at h h'
      cases hshape : PropertyShape.of fragment <;> simp only [hshape] at h h' <;>
        obtain ⟨bare, between, hbare, h⟩ := bind_inv h <;>
        obtain ⟨bare', between', hbare', h'⟩ := bind_inv h'
      case unsupported =>
        obtain rfl := warn_inv hbare
        obtain rfl := warn_inv hbare'
        obtain ⟨rfl, rfl⟩ := pure_inv h
        obtain ⟨rfl, rfl⟩ := pure_inv h'
        exact ⟨rfl, agree.warn _⟩
      all_goals
        obtain ⟨rfl, rfl⟩ := pure_inv h
        obtain ⟨rfl, rfl⟩ := pure_inv h'
        refine And.imp_left (documented_same (.ofFragment fragment)) ?_
      case empty =>
        obtain ⟨rfl, rfl⟩ := pure_inv hbare
        obtain ⟨rfl, rfl⟩ := pure_inv hbare'
        exact ⟨rfl, agree⟩
      case enumeration =>
        obtain ⟨type, htype, rfl⟩ := map_inv hbare
        obtain ⟨type', htype', rfl⟩ := map_inv hbare'
        obtain ⟨heq, hagree⟩ := enumerationType_agree agree htype htype'
        exact ⟨congrArg some heq, hagree⟩
      case array =>
        have hitems := PropertyShape.array_inv hshape
        exact arrayType_agree hresolve agree sound sound'
          (fun item hitem => reads.further (hitems.trans hitem) (by decide) .self)
          (fun item hitem => reads'.further (hitems.trans hitem) (by decide) .self) alike hbare
          hbare'
      case scalar =>
        obtain ⟨rfl, rfl⟩ := pure_inv hbare
        obtain ⟨rfl, rfl⟩ := pure_inv hbare'
        exact ⟨by simp, agree⟩
      case inlineObject =>
        obtain ⟨type, htype, rfl⟩ := map_inv hbare
        obtain ⟨type', htype', rfl⟩ := map_inv hbare'
        obtain ⟨heq, hagree⟩ := inlineObjectType_agree agree sound sound' reads reads' habsolute
          hhost alike htype htype'
        exact ⟨congrArg some heq, hagree⟩
      case dictionary =>
        obtain ⟨type, htype, rfl⟩ := map_inv hbare
        obtain ⟨type', htype', rfl⟩ := map_inv hbare'
        have hvalues := PropertyShape.dictionary_inv hshape
        obtain ⟨heq, hagree⟩ := dictionaryType_agree hresolve agree sound sound'
          (reads.further hvalues (by decide) .self) (reads'.further hvalues (by decide) .self) alike
          htype htype'
        exact ⟨congrArg some heq, hagree⟩
      case reference =>
        obtain ⟨type, htype, rfl⟩ := map_inv hbare
        obtain ⟨type', htype', rfl⟩ := map_inv hbare'
        obtain ⟨heq, hagree⟩ := referenceType_agree hresolve agree sound sound'
          (reads.isPlain sound (PropertyShape.reference_inv hshape)) alike htype htype'
        exact ⟨congrArg some heq, hagree⟩
      case composite =>
        have hbase := PropertyShape.composite_inv hshape
        exact hresolve hbare hbare' agree sound sound' (reads.onlyBase? hbase)
          (reads'.onlyBase? hbase) alike

theorem Names.agree {document : Document} {entry : Json} {rest : List Json}
    {id id' : Option ClassId} (h : Names document entry draft id after)
    (h' : Names document entry other id' after') (agree : draft.Agree home other)
    (sound : draft.catalog.Sound) (sound' : other.catalog.Sound)
    (known : draft.catalog.Knows document) (known' : other.catalog.Knows document)
    (reads : draft.catalog.Reads document.body) (seen : Location.SeenFrom home document.key)
    (hentries : document.body.array? "allOf" = some (entry :: rest))
    (alike : Draft.NumberAlike number number' after after') :
    id'.map number' = id.map number ∧ after.Agree home after' := by
  have hplain {reference : String} (hlink : Link.ofEntry entry = .reference reference) :
      Location.IsPlain reference := reads.isPlain_of_entry sound hentries hlink
  cases h with
  | missing hlink hload =>
    cases h' with
    | missing hlink' hload' =>
      obtain rfl := Link.reference.inj (hlink.symm.trans hlink')
      exact ⟨rfl, (load_agree agree sound sound' (hplain hlink) hload hload').2⟩
    | reference hlink' hload' =>
      obtain rfl := Link.reference.inj (hlink.symm.trans hlink')
      cases (load_agree agree sound sound' (hplain hlink) hload hload').1
    | written hlink' => cases hlink.symm.trans hlink'
  | reference hlink hload hid =>
    cases h' with
    | missing hlink' hload' =>
      obtain rfl := Link.reference.inj (hlink.symm.trans hlink')
      cases (load_agree agree sound sound' (hplain hlink) hload hload').1
    | reference hlink' hload' hid' =>
      obtain rfl := Link.reference.inj (hlink.symm.trans hlink')
      obtain ⟨heq, hagree⟩ := load_agree agree sound sound' (hplain hlink) hload hload'
      obtain rfl := Option.some.inj heq
      exact hid.agree hid' hagree (load_staysIn home sound (hplain hlink) hload).sound
        (load_staysIn home sound' (hplain hlink) hload').sound (load_knows hload)
        (load_knows hload') (load_seenFrom sound (hplain hlink) hload) alike
    | written hlink' => cases hlink.symm.trans hlink'
  | written hlink hinsert hid =>
    cases h' with
    | missing hlink' | reference hlink' => cases hlink.symm.trans hlink'
    | written hlink' hinsert' hid' =>
      obtain rfl := Link.entry_inv hlink
      obtain rfl := Link.entry_inv hlink'
      obtain ⟨rfl, hagree⟩ :=
        firstEntry_agree agree sound sound' known known' seen hentries hinsert hinsert'
      obtain ⟨hstays, hseen⟩ := firstEntry_staysIn sound known seen hentries hinsert
      have hstays' := (firstEntry_staysIn sound' known' seen hentries hinsert').1
      exact hid.agree hid' hagree hstays.sound hstays'.sound (insert_knows hinsert)
        (insert_knows hinsert') hseen alike

theorem baseOf_agree {document : Document} {typeName : String} {id id' : Option ClassId}
    (agree : draft.Agree home other) (sound : draft.catalog.Sound) (sound' : other.catalog.Sound)
    (known : draft.catalog.Knows document) (known' : other.catalog.Knows document)
    (reads : draft.catalog.Reads document.body) (seen : Location.SeenFrom home document.key)
    (alike : Draft.NumberAlike number number' after after')
    (h : baseOf depth document typeName draft = some (id, after))
    (h' : baseOf depth' document typeName other = some (id', after')) :
    id'.map number' = id.map number ∧ after.Agree home after' := by
  unfold baseOf at h h'
  cases hentries : document.body.array? "allOf" with
  | none =>
    simp only [hentries] at h h'
    obtain ⟨rfl, rfl⟩ := pure_inv h
    obtain ⟨rfl, rfl⟩ := pure_inv h'
    exact ⟨rfl, agree⟩
  | some entries =>
    simp only [hentries] at h h'
    match entries, hentries, h, h' with
    | [], _, h, h' =>
      obtain ⟨rfl, rfl⟩ := pure_inv h
      obtain ⟨rfl, rfl⟩ := pure_inv h'
      exact ⟨rfl, agree⟩
    | [first], hentries, h, h' =>
      exact (baseClass_names h).agree (baseClass_names h') agree sound sound' known known' reads
        seen hentries alike
    | first :: second :: rest, hentries, h, h' =>
      obtain ⟨_, between, hwarn, h⟩ := bind_inv h
      obtain ⟨_, between', hwarn', h'⟩ := bind_inv h'
      obtain rfl := warn_inv hwarn
      obtain rfl := warn_inv hwarn'
      exact (baseClass_names h).agree (baseClass_names h') (agree.warn _) (sound.tell _)
        (sound'.tell _) known known' (reads.mono (draft.catalog.warn_grows _)) seen hentries alike

theorem propertiesOf_cons_inv {name : String} {rest : List (String × Json)}
    {members : List Property} (himplied : name ∉ impliedProperties)
    (h : propertiesOf depth owner ((name, fragment) :: rest) draft = some (members, after)) :
    ∃ type between tail,
      fragmentType owner depth name fragment
        ⟨owner.document.requires name, fragment.get? "default"⟩ draft = some (type, between) ∧
      propertiesOf depth owner rest between = some (tail, after) ∧
      members = (type.map fun type =>
        ⟨name, Naming.memberName name, type, owner.document.requires name⟩).toList ++ tail := by
  rw [propertiesOf, if_neg himplied] at h
  obtain ⟨type, between, htype, h⟩ := bind_inv h
  cases type with
  | none => exact ⟨none, between, members, htype, h, rfl⟩
  | some type =>
    obtain ⟨tail, last, hrest, h⟩ := bind_inv h
    obtain ⟨rfl, rfl⟩ := pure_inv h
    exact ⟨some type, between, tail, htype, hrest, rfl⟩

theorem propertiesOf_agree {declared : List (String × Json)} {members members' : List Property}
    (agree : draft.Agree home other) (sound : draft.catalog.Sound) (sound' : other.catalog.Sound)
    (reads : ∀ entry ∈ declared, draft.catalog.Reads entry.2)
    (reads' : ∀ entry ∈ declared, other.catalog.Reads entry.2)
    (habsolute : Location.isAbsolute owner.document.key = true)
    (hhost : Location.host owner.document.key = home)
    (alike : Draft.NumberAlike number number' after after')
    (h : propertiesOf depth owner declared draft = some (members, after))
    (h' : propertiesOf depth' owner declared other = some (members', after')) :
    members'.map (·.renumbered number') = members.map (·.renumbered number) ∧
      after.Agree home after' := by
  induction declared generalizing draft other members members' with
  | nil =>
    obtain ⟨rfl, rfl⟩ := pure_inv h
    obtain ⟨rfl, rfl⟩ := pure_inv h'
    exact ⟨rfl, agree⟩
  | cons entry rest ih =>
    obtain ⟨name, fragment⟩ := entry
    have hrest : ∀ entry ∈ rest, draft.catalog.Reads entry.2 :=
      fun entry hentry => reads entry (List.mem_cons_of_mem _ hentry)
    have hrest' : ∀ entry ∈ rest, other.catalog.Reads entry.2 :=
      fun entry hentry => reads' entry (List.mem_cons_of_mem _ hentry)
    by_cases himplied : name ∈ impliedProperties
    · rw [propertiesOf, if_pos himplied] at h h'
      exact ih agree sound sound' hrest hrest' h h'
    · obtain ⟨type, between, tail, htype, htail, rfl⟩ := propertiesOf_cons_inv himplied h
      obtain ⟨type', between', tail', htype', htail', rfl⟩ := propertiesOf_cons_inv himplied h'
      have hderived := fragmentType_types htype
      have hderived' := fragmentType_types htype'
      have hread := reads _ List.mem_cons_self
      have hread' := reads' _ List.mem_cons_self
      have hstays := hderived.staysIn sound hread habsolute hhost
      have hstays' := hderived'.staysIn sound' hread' habsolute hhost
      have halike := alike.before (propertiesOf_members htail).grows.within
        (propertiesOf_members htail').grows.within
      obtain ⟨htypes, hagree⟩ := fragmentType_agree habsolute hhost htype htype' agree sound
        sound' hread hread' halike
      obtain ⟨htails, hafter⟩ := ih hagree hstays.sound hstays'.sound
        (fun entry hentry => (hrest entry hentry).mono hderived.grows.catalog)
        (fun entry hentry => (hrest' entry hentry).mono hderived'.grows.catalog) htail htail'
      refine ⟨?_, hafter⟩
      rw [List.map_append, List.map_append, htails]
      cases type with
      | none =>
        obtain rfl := Option.map_eq_none_iff.mp htypes
        rfl
      | some type =>
        obtain ⟨type', rfl, heq⟩ := Option.map_eq_some_iff.mp htypes
        simp [Property.renumbered, heq]

theorem objectBody_agree {body body' : DraftBody} (agree : draft.Agree home other)
    (sound : draft.catalog.Sound) (sound' : other.catalog.Sound)
    (known : draft.catalog.Knows owner.document) (known' : other.catalog.Knows owner.document)
    (reads : draft.catalog.Reads owner.document.body)
    (reads' : other.catalog.Reads owner.document.body)
    (hhost : Location.host owner.document.key = home)
    (alike : Draft.NumberAlike number number' after after')
    (h : objectBody depth owner draft = some (body, after))
    (h' : objectBody depth' owner other = some (body', after')) :
    body'.renumbered number' = body.renumbered number ∧ after.Agree home after' := by
  obtain ⟨schema, comes⟩ := sound.sourced owner.document known
  obtain ⟨base, between, hbase, h⟩ := bind_inv h
  obtain ⟨members, last, hmembers, h⟩ := bind_inv h
  obtain ⟨rfl, rfl⟩ := pure_inv h
  obtain ⟨base', between', hbase', h'⟩ := bind_inv h'
  obtain ⟨members', last', hmembers', h'⟩ := bind_inv h'
  obtain ⟨rfl, rfl⟩ := pure_inv h'
  have hderived := baseOf_derives hbase
  have hderived' := baseOf_derives hbase'
  have hstays := hderived.staysIn sound known reads (.inr hhost)
  have hstays' := hderived'.staysIn sound' known' reads' (.inr hhost)
  have halike := alike.before (propertiesOf_members hmembers).grows.within
    (propertiesOf_members hmembers').grows.within
  obtain ⟨hbases, hagree⟩ := baseOf_agree agree sound sound' known known' reads (.inr hhost) halike
    hbase hbase'
  obtain ⟨hsame, hafter⟩ := propertiesOf_agree hagree hstays.sound hstays'.sound
    (fun entry hentry => (reads_properties reads entry hentry).mono hderived.grows.catalog)
    (fun entry hentry => (reads_properties reads' entry hentry).mono hderived'.grows.catalog)
    (comes.rooted sound.offline) hhost alike hmembers hmembers'
  refine ⟨?_, hafter⟩
  simp only [DraftBody.renumbered, hbases, hsame]

theorem enumerationBody_agree {listsItems : Bool} {body body' : DraftBody}
    (agree : draft.Agree home other)
    (h : enumerationBody owner listsItems draft = some (body, after))
    (h' : enumerationBody owner listsItems other = some (body', after')) :
    body'.renumbered number' = body.renumbered number ∧ after.Agree home after' := by
  unfold enumerationBody at h h'
  rw [get_bind] at h h'
  rw [agree.naming] at h'
  obtain ⟨found, between, hread, hnext⟩ := bind_inv h
  obtain ⟨found', between', hread', hnext'⟩ := bind_inv h'
  obtain ⟨rfl, hagree⟩ := enumerationOf_agree agree hread hread'
  cases found' with
  | none =>
    obtain ⟨rfl, rfl⟩ := pure_inv hnext
    obtain ⟨rfl, rfl⟩ := pure_inv hnext'
    exact ⟨rfl, hagree⟩
  | some type =>
    dsimp only at hnext hnext'
    split at hnext
    · rw [if_pos ‹_›] at hnext'
      obtain ⟨rfl, rfl⟩ := warn_pure_inv hnext
      obtain ⟨rfl, rfl⟩ := warn_pure_inv hnext'
      exact ⟨rfl, hagree.warn _⟩
    · rw [if_neg ‹_›] at hnext'
      obtain ⟨rfl, rfl⟩ := pure_inv hnext
      obtain ⟨rfl, rfl⟩ := pure_inv hnext'
      exact ⟨rfl, hagree⟩

theorem valueBody_agree {body body' : DraftBody} (agree : draft.Agree home other)
    (sound : draft.catalog.Sound) (sound' : other.catalog.Sound)
    (reads : draft.catalog.Reads owner.document.body)
    (reads' : other.catalog.Reads owner.document.body)
    (habsolute : Location.isAbsolute owner.document.key = true)
    (hhost : Location.host owner.document.key = home)
    (alike : Draft.NumberAlike number number' after after')
    (h : valueBody depth owner draft = some (body, after))
    (h' : valueBody depth' owner other = some (body', after')) :
    body'.renumbered number' = body.renumbered number ∧ after.Agree home after' := by
  obtain ⟨type, htype, rfl⟩ := valueBody_inv h
  obtain ⟨type', htype', rfl⟩ := valueBody_inv h'
  obtain ⟨htypes, hagree⟩ := fragmentType_agree habsolute hhost htype htype' agree sound
    sound' reads reads' alike
  refine ⟨?_, hagree⟩
  cases type with
  | none =>
    obtain rfl := Option.map_eq_none_iff.mp htypes
    rfl
  | some type =>
    obtain ⟨type', rfl, heq⟩ := Option.map_eq_some_iff.mp htypes
    exact congrArg DraftBody.value heq

theorem unsupportedBody_agree {warning : Warning} {body body' : DraftBody}
    (agree : draft.Agree home other)
    (h : unsupportedBody warning draft = some (body, after))
    (h' : unsupportedBody warning other = some (body', after')) :
    body'.renumbered number' = body.renumbered number ∧ after.Agree home after' := by
  obtain ⟨rfl, rfl⟩ := warn_pure_inv h
  obtain ⟨rfl, rfl⟩ := warn_pure_inv h'
  exact ⟨rfl, agree.warn _⟩

theorem bodyOf_agree {body body' : DraftBody} (agree : draft.Agree home other)
    (sound : draft.catalog.Sound) (sound' : other.catalog.Sound)
    (known : draft.catalog.Knows owner.document) (known' : other.catalog.Knows owner.document)
    (reads : draft.catalog.Reads owner.document.body)
    (reads' : other.catalog.Reads owner.document.body)
    (hhost : Location.host owner.document.key = home)
    (alike : Draft.NumberAlike number number' after after')
    (h : bodyOf depth owner draft = some (body, after))
    (h' : bodyOf depth' owner other = some (body', after')) :
    body'.renumbered number' = body.renumbered number ∧ after.Agree home after' := by
  obtain ⟨schema, comes⟩ := sound.sourced owner.document known
  unfold bodyOf at h h'
  cases hshape : SchemaShape.of owner.document.body <;> simp only [hshape] at h h'
  case object =>
    exact objectBody_agree agree sound sound' known known' reads reads' hhost alike h h'
  case anyOf | enumeration =>
    split at h
    · rw [if_pos ‹_›] at h'
      exact enumerationBody_agree agree h h'
    · rw [if_neg ‹_›] at h'
      exact unsupportedBody_agree agree h h'
  case scalar | array =>
    exact valueBody_agree agree sound sound' reads reads'
      (comes.rooted sound.offline) hhost alike h h'
  all_goals exact unsupportedBody_agree agree h h'

/-- The class of a document is the same, up to numbers, in drafts that agree on it. -/
theorem classOf_agree {document : Document} {drafted drafted' : DraftClass}
    (agree : draft.Agree home other) (sound : draft.catalog.Sound) (sound' : other.catalog.Sound)
    (known : draft.catalog.Knows document) (known' : other.catalog.Knows document)
    (reads : draft.catalog.Reads document.body) (reads' : other.catalog.Reads document.body)
    (hhost : Location.host document.key = home)
    (alike : Draft.NumberAlike number number' after after')
    (h : classOf depth document draft = some (drafted, after))
    (h' : classOf depth' document other = some (drafted', after')) :
    drafted'.renumbered number' = drafted.renumbered number ∧ after.Agree home after' := by
  unfold classOf at h h'
  rw [get_bind] at h h'
  rw [agree.displayName] at h'
  obtain ⟨body, between, hbody, h⟩ := bind_inv h
  obtain ⟨body', between', hbody', h'⟩ := bind_inv h'
  rw [get_bind] at h h'
  obtain ⟨rfl, rfl⟩ := pure_inv h
  obtain ⟨rfl, rfl⟩ := pure_inv h'
  obtain ⟨hsame, hafter⟩ := bodyOf_agree agree sound sound' known known' reads reads' hhost alike
    hbody hbody'
  refine ⟨?_, hafter⟩
  simp only [DraftClass.renumbered, hsame, hafter.extensionNames]

end

end Drafting

end SchemaClasses
