import SchemaClasses.Proofs.Drafting.Citations
import SchemaClasses.Proofs.Drafting.Origins

/-!
# Drafts covered by a stock

As long as no object is declared in a schema that is resolved inline, everything that comes up while
a reference is resolved originates from what there was at the start and from classes that have a
place already. The objects that are declared then are all at fragments of the class that is drafted.
-/

namespace SchemaClasses

namespace Drafting

/-- A task resolves a document inline: it comes to a reference to a schema that has no class and is
not being followed. -/
inductive Task.Inlines : Task × Draft → Document → Prop
  | intro {owner path fragment reference usage draft document between} :
      PropertyShape.of fragment = .reference reference →
      LeadsTo reference draft document between → isClassLike document.body = false →
      document.key ∉ between.following →
      Inlines (.type owner path fragment usage, draft) document

/-- No object is declared in a document that a task, or one that it starts, resolves inline. -/
def Task.Clear (task : Task × Draft) : Prop :=
  ∀ last document, Relation.ReflTransGen Task.Starts task last → Task.Inlines last document →
    ¬document.body.HasInlineObject

theorem Task.Clear.starts {task next : Task × Draft} (h : Task.Clear task)
    (hstarts : Task.Starts task next) : Task.Clear next :=
  fun last document hlast hinlines => h last document (.head hstarts hlast) hinlines

end Drafting

namespace Draft

variable {draft after : Draft}

theorem Grows.placed (h : draft.Grows after) : draft.placed ⊆ after.placed := by
  obtain ⟨added, hplaces, -⟩ := h.places
  rw [Draft.placed, Draft.placed, hplaces, List.map_append]
  exact List.subset_append_left _ _

theorem placed_fill (draft : Draft) (id : ClassId) (drafted : DraftClass) :
    (draft.fill id drafted).placed = draft.placed := by
  refine List.ext_getElem? fun other => ?_
  rw [placed, placed, List.getElem?_map, List.getElem?_map, fill, List.getElem?_modify]
  cases draft.places[other]? with
  | none => rfl
  | some place => by_cases heq : id = other <;> simp [heq]

theorem placed_append (draft : Draft) (own : Document) :
    (draft.append own).placed = draft.placed ++ [own] := by
  simp [placed, append]

end Draft

/-- Everything in a draft originates from a stock, and what has a place from the places before. -/
structure Stock.Covers (stock : Stock) (draft : Draft) : Prop where
  texts : stock.start.catalog.SameTexts draft.catalog
  searchPaths : draft.catalog.searchPaths = stock.start.catalog.searchPaths
  settings : draft.settings = stock.start.settings
  extensionNames : draft.extensionNames = stock.start.extensionNames
  documents : ∀ document ∈ draft.catalog.documents, stock.Originates draft.placed document
  places : ∀ (id : Nat) (document : Document), draft.placed[id]? = some document →
    stock.Originates (draft.placed.take id) document

namespace Stock

variable {stock : Stock} {draft after : Draft} {document : Document}

theorem covers_start (stock : Stock) : stock.Covers stock.start where
  texts := .refl _
  searchPaths := rfl
  settings := rfl
  extensionNames := rfl
  documents := fun _ h => .given (List.mem_append_left _ h)
  places := fun _ _ h => .given (List.mem_append_right _ (List.mem_of_getElem? h))

namespace Covers

theorem known (h : stock.Covers draft) (known : draft.catalog.Knows document) :
    stock.Originates draft.placed document :=
  h.documents document known.mem

theorem placed (h : stock.Covers draft) (hplaced : document ∈ draft.placed) :
    stock.Originates draft.placed document := by
  obtain ⟨id, hid⟩ := List.mem_iff_getElem?.mp hplaced
  exact (h.places id document hid).mono (List.take_subset _ _)

theorem displayName (h : stock.Covers draft) (document : Document) :
    draft.displayName document = stock.start.displayName document := by
  rw [Draft.displayName, Draft.displayName, h.settings, h.extensionNames]

theorem enter (h : stock.Covers draft) (document : Document) :
    stock.Covers { draft with catalog := draft.catalog.enter document } :=
  ⟨h.texts.trans ⟨rfl, rfl⟩, h.searchPaths, h.settings, h.extensionNames, h.documents, h.places⟩

theorem leave (h : stock.Covers draft) :
    stock.Covers { draft with catalog := draft.catalog.leave } :=
  ⟨h.texts.trans ⟨rfl, rfl⟩, h.searchPaths, h.settings, h.extensionNames, h.documents, h.places⟩

theorem warn (h : stock.Covers draft) (warning : Warning) :
    stock.Covers { draft with catalog := draft.catalog.warn warning } :=
  ⟨h.texts.trans ⟨rfl, rfl⟩, h.searchPaths, h.settings, h.extensionNames, h.documents, h.places⟩

theorem beside (h : stock.Covers draft) (following : List String) (pending : List ClassId)
    (resolved : List (String × ClassId)) : stock.Covers { draft with
      following := following, pending := pending, resolved := resolved } :=
  ⟨h.texts, h.searchPaths, h.settings, h.extensionNames, h.documents, h.places⟩

theorem fill (h : stock.Covers draft) (id : ClassId) (drafted : DraftClass) :
    stock.Covers (draft.fill id drafted) := by
  refine ⟨h.texts, h.searchPaths, h.settings, h.extensionNames, ?_, ?_⟩
  · rw [Draft.placed_fill]
    exact h.documents
  · rw [Draft.placed_fill]
    exact h.places

/-- A document that originates from all that has a place gets the next place. -/
theorem append (h : stock.Covers draft) (own : stock.Originates draft.placed document) :
    stock.Covers (draft.append document) := by
  refine ⟨h.texts, h.searchPaths, h.settings, h.extensionNames, fun other hother => ?_,
    fun id other hid => ?_⟩
  · rw [Draft.placed_append]
    exact (h.documents other hother).mono (List.subset_append_left _ _)
  · rw [Draft.placed_append] at hid ⊢
    rcases Nat.lt_or_ge id draft.placed.length with hlt | hge
    · rw [List.getElem?_append_left hlt] at hid
      rw [List.take_append_of_le_length (Nat.le_of_lt hlt)]
      exact h.places id other hid
    · rw [List.getElem?_append_right hge] at hid
      obtain ⟨hlt, rfl⟩ := List.getElem?_eq_some_iff.mp hid
      have hnext : id - draft.placed.length < 1 := hlt
      obtain rfl : id = draft.placed.length := by omega
      simpa using own

theorem load {reference : String} {found : Option Document} (h : stock.Covers draft)
    (hsource : draft.catalog.contextTop?.getD "" ∈ stock.sources) (htext : reference ∈ stock.texts)
    (hload : Drafting.load reference draft = some (found, after)) : stock.Covers after := by
  obtain ⟨-, rfl⟩ := Drafting.load_inv hload
  have grows := (draft.catalog.load_finds reference).grows
  refine ⟨h.texts.trans grows.sameTexts, grows.searchPaths.trans h.searchPaths, h.settings,
    h.extensionNames, fun document hdocument => ?_, h.places⟩
  have hreadable : draft.catalog.readable ⊆ stock.sources := by
    rw [h.texts.readable_eq]
    exact List.subset_cons_of_subset _ (List.subset_append_left _ _)
  have hschemas : draft.catalog.schemas ⊆ stock.schemas := by
    rw [h.texts.schemas_eq]
    exact List.subset_append_left _ _
  have hmade : ∀ known ∈ draft.catalog.documents,
      known.StemsFrom stock.sources stock.schemas := by
    intro known hknown
    obtain ⟨hsource, hstems⟩ := (h.documents known hknown).stems
    exact ⟨hsource, hstems⟩
  rcases Catalog.load_adds hreadable hschemas hmade hdocument with hbefore | ⟨hpart, hkey⟩
  · exact h.documents document hbefore
  · refine .loaded hpart ?_
    rw [Catalog.keysFrom_eq h.texts.files h.searchPaths] at hkey
    exact List.mem_flatMap.mpr ⟨_, hsource, List.mem_flatMap.mpr ⟨reference, htext, hkey⟩⟩

theorem insert {known : Document} (h : stock.Covers draft)
    (origin : stock.Originates draft.placed document)
    (hinsert : Drafting.insert document draft = some (known, after)) : stock.Covers after := by
  obtain ⟨-, rfl⟩ := Drafting.insert_inv hinsert
  have grows := (draft.catalog.insert_finds document).grows
  refine ⟨h.texts.trans grows.sameTexts, grows.searchPaths.trans h.searchPaths, h.settings,
    h.extensionNames, fun other hother => ?_, h.places⟩
  dsimp only [Catalog.insert] at hother
  split at hother
  · exact h.documents other hother
  · rcases List.mem_cons.mp hother with rfl | hother
    · exact origin
    · exact h.documents other hother

end Covers

end Stock

/-! ### Derivations within a stock -/

namespace Drafting

variable {stock : Stock} {draft after : Draft} {document : Document} {owner : Owner}

theorem link?_mem_texts {reference : String} (has : stock.Has document.body)
    (hlink : document.link? = some (.reference reference)) : reference ∈ stock.texts := by
  obtain ⟨inner, hbase, heq⟩ | ⟨target, href, heq⟩ := Document.link?_cases hlink
  · exact (has.onlyBase? hbase).mem_texts (Link.reference_inv heq.symm) (by decide)
  · obtain rfl := Link.reference.inj heq
    exact has.mem_texts href (by decide)

theorem target_covers {link : Link} {found : Option Document} (covers : stock.Covers draft)
    (known : draft.catalog.Knows document) (hlink : document.link? = some link)
    (h : target document link draft = some (found, after)) : stock.Covers after := by
  have origin := covers.known known
  cases link with
  | reference reference =>
    obtain ⟨inner, hload, rfl⟩ := inContext_inv h
    have htext := link?_mem_texts origin.stems.2 hlink
    exact ((covers.enter document).load origin.stems.1 htext hload).leave
  | entry body =>
    obtain ⟨next, between, hinsert, h⟩ := bind_inv h
    obtain ⟨-, rfl⟩ := pure_inv h
    exact covers.insert (.link origin hlink) hinsert

theorem Unaliases.covers {seen : List String} {found : Option Document}
    (h : Unaliases seen document draft found after) (covers : stock.Covers draft)
    (known : draft.catalog.Knows document) : stock.Covers after := by
  induction h with
  | circle => exact covers.warn _
  | itself => exact covers
  | lost _ hlink htarget => exact target_covers covers known hlink htarget
  | next _ hlink htarget _ ih =>
    exact ih (target_covers covers known hlink htarget) (target_knows htarget)

theorem Interns.covers {id : Option ClassId} (h : Interns document draft id after)
    (covers : stock.Covers draft) (known : draft.catalog.Knows document) : stock.Covers after := by
  cases h with
  | lost hown | known hown => exact hown.covers covers known
  | added hown =>
    have hcovers := hown.covers covers known
    exact hcovers.append (hcovers.known (hown.knows known))

/-- References are relative to one of the sources. -/
def InSources (stock : Stock) (draft : Draft) : Prop :=
  ∃ source ∈ stock.sources, draft.catalog.contextTop? = some source

theorem InSources.grows (h : InSources stock draft) (grows : draft.Grows after) :
    InSources stock after := by
  obtain ⟨source, hsource, htop⟩ := h
  refine ⟨source, hsource, ?_⟩
  rwa [Catalog.contextTop?, grows.catalog.context]

theorem InSources.getD_mem (h : InSources stock draft) :
    draft.catalog.contextTop?.getD "" ∈ stock.sources := by
  obtain ⟨source, hsource, htop⟩ := h
  rwa [htop]

/-- The class that is drafted has a place, and the name that it had at the start. -/
structure Owns (stock : Stock) (draft : Draft) (owner : Owner) : Prop where
  placed : owner.document ∈ draft.placed
  name : owner.typeName = stock.start.displayName owner.document

theorem Owns.grows (h : Owns stock draft owner) (grows : draft.Grows after) :
    Owns stock after owner :=
  ⟨grows.placed h.placed, h.name⟩

theorem inlineDocument_covers {path : String} {fragment : Json} (covers : stock.Covers draft)
    (owns : Owns stock draft owner) (inSources : InSources stock draft)
    (hat : owner.At path fragment) (hshape : PropertyShape.of fragment = .inlineObject)
    (h : inlineDocument owner path fragment draft = some (document, after)) :
    stock.Covers after := by
  obtain ⟨source, hsource, htop⟩ := inSources
  have hinsert := inlineDocument_inv h
  rw [htop, Option.getD_some, owns.name] at hinsert
  refine covers.insert (.declared (covers.placed owns.placed) owns.placed ?_ hshape hsource) hinsert
  rw [← owns.name]
  exact hat

/-- Finding the type of a fragment stays within the stock, when the fragment is one of the owner's,
or else no object is declared in it. -/
theorem Types.covers {path : String} {fragment : Json} {usage : Usage} {type : Option Descriptor}
    (h : Types owner path fragment usage draft type after) (covers : stock.Covers draft)
    (owns : Owns stock draft owner) (inSources : InSources stock draft)
    (has : stock.Has fragment) (hat : owner.At path fragment ∨ ¬fragment.HasInlineObject)
    (clear : Task.Clear (.type owner path fragment usage, draft)) : stock.Covers after := by
  have hload {draft between : Draft} {fragment : Json} {reference : String}
      {found : Option Document} (covers : stock.Covers draft) (inSources : InSources stock draft)
      (has : stock.Has fragment) (hshape : PropertyShape.of fragment = .reference reference)
      (hload : load reference draft = some (found, between)) : stock.Covers between :=
    covers.load inSources.getD_mem
      (has.mem_texts (PropertyShape.reference_inv hshape) (by decide)) hload
  induction h with
  | empty | anyItems | scalar | anyValues => exact covers
  | enumeration _ htype =>
    obtain ⟨type, -, rfl⟩ | ⟨fault, -, rfl⟩ := enumerationType_inv htype
    · exact covers
    · exact covers.warn _
  | array hshape _ ih =>
    refine ih covers owns inSources (has.further (PropertyShape.array_inv hshape) (by decide) .self)
      ?_ (clear.starts (.items hshape))
    exact hat.imp (.items · hshape) fun hnot hinner => hnot (.items hshape hinner)
  | inlineObject hshape hdocument hid =>
    have hfragment := hat.resolve_right fun hnot => hnot (.self hshape)
    exact hid.covers (inlineDocument_covers covers owns inSources hfragment hshape hdocument)
      (insert_knows (inlineDocument_inv hdocument))
  | dictionary hshape hany _ ih =>
    refine ih covers owns inSources
      (has.further (PropertyShape.dictionary_inv hshape) (by decide) .self)
      ?_ (clear.starts (.values hshape hany))
    exact hat.imp (.values · hshape) fun hnot hinner => hnot (.values hshape hany hinner)
  | missing hshape hmissing => exact (hload covers inSources has hshape hmissing).warn _
  | index hshape hfound | json hshape hfound => exact hload covers inSources has hshape hfound
  | reference hshape hleads _ hid =>
    exact hid.covers (hload covers inSources has hshape hleads.loads) (load_knows hleads.loads)
  | circular hshape hleads => exact (hload covers inSources has hshape hleads.loads).warn _
  | @followed path fragment reference usage draft document between type inner hshape hleads hclass
      hfollowing _ ih =>
    have hbetween := hload covers inSources has hshape hleads.loads
    have origin := hbetween.known (load_knows hleads.loads)
    have hclear : ¬document.body.HasInlineObject :=
      clear _ document .refl (.intro hshape hleads hclass hfollowing)
    have hentered := (hbetween.enter document).beside (document.key :: between.following)
      between.pending between.resolved
    have hinner := ih hentered ⟨(load_grows hleads.loads).placed owns.placed, owns.name⟩
      ⟨document.source, origin.stems.1, rfl⟩ origin.stems.2 (.inr hclear)
      (clear.starts (.followed hshape hleads hclass hfollowing))
    exact hinner.leave.beside inner.following.tail inner.pending inner.resolved
  | composite hshape _ ih =>
    refine ih covers owns inSources (has.onlyBase? (PropertyShape.composite_inv hshape))
      ?_ (clear.starts (.inner hshape))
    exact hat.imp (.inner · hshape) fun hnot hinner => hnot (.inner hshape hinner)
  | unsupported => exact covers.warn _

theorem Names.covers {entry : Json} {rest : List Json} {id : Option ClassId}
    (h : Names document entry draft id after) (covers : stock.Covers draft)
    (hplaced : document ∈ draft.placed) (inSources : InSources stock draft)
    (hentries : document.body.array? "allOf" = some (entry :: rest)) : stock.Covers after := by
  have origin := covers.placed hplaced
  have hload {reference : String} {found : Option Document} {between : Draft}
      (hlink : Link.ofEntry entry = .reference reference)
      (hload : load reference draft = some (found, between)) : stock.Covers between := by
    obtain ⟨entries, hget, hentry⟩ := Json.array?_inv hentries List.mem_cons_self
    have has := origin.stems.2.further hget (by decide) hentry
    exact covers.load inSources.getD_mem
      (has.mem_texts (Link.reference_inv hlink) (by decide)) hload
  cases h with
  | missing hlink hmissing => exact hload hlink hmissing
  | reference hlink hfound hid => exact hid.covers (hload hlink hfound) (load_knows hfound)
  | written hlink hinsert hid =>
    obtain rfl := Link.entry_inv hlink
    exact hid.covers (covers.insert (.base origin hplaced hentries) hinsert)
      (insert_knows hinsert)

theorem Derives.covers {id : Option ClassId} (h : Derives owner draft id after)
    (covers : stock.Covers draft) (owns : Owns stock draft owner)
    (inSources : InSources stock draft) : stock.Covers after := by
  cases h with
  | root => exact covers
  | only hentries hnames => exact hnames.covers covers owns.placed inSources hentries
  | first hentries hnames => exact hnames.covers (covers.warn _) owns.placed inSources hentries

theorem Members.covers {declared : List (String × Json)} {members : List Property}
    (h : Members owner declared draft members after) (covers : stock.Covers draft)
    (owns : Owns stock draft owner) (inSources : InSources stock draft)
    (hdeclared : declared ⊆ owner.document.properties)
    (clear : Task.Clear (.members owner declared, draft)) : stock.Covers after := by
  induction h with
  | nil => exact covers
  | implied hname _ ih =>
    exact ih covers owns inSources (List.Subset.trans (List.subset_cons_self _ _) hdeclared)
      (clear.starts (.implied hname))
  | @stub _ _ _ draft _ _ _ hname htype _ ih | @member _ _ _ draft _ _ _ _ hname htype _ ih =>
    have hat := Owner.At.property (hdeclared List.mem_cons_self)
    have has := (covers.placed owns.placed).stems.2.at_ hat
    have hbetween := htype.covers covers owns inSources has (.inl hat)
      (clear.starts (.member hname))
    exact ih hbetween (owns.grows htype.grows) (inSources.grows htype.grows)
      (List.Subset.trans (List.subset_cons_self _ _) hdeclared) (clear.starts (.rest hname htype))

theorem bodyOf_covers {depth : Nat} {body : DraftBody}
    (h : bodyOf depth owner draft = some (body, after)) (covers : stock.Covers draft)
    (owns : Owns stock draft owner) (inSources : InSources stock draft)
    (clear : Task.Clear (.body owner, draft)) : stock.Covers after := by
  have hvalue (hshape : SchemaShape.of owner.document.body = .array ∨
      ∃ kind, SchemaShape.of owner.document.body = .scalar kind)
      (h : valueBody depth owner draft = some (body, after)) : stock.Covers after := by
    obtain ⟨type, htype, -⟩ := valueBody_inv h
    exact (fragmentType_types htype).covers covers owns inSources
      (covers.placed owns.placed).stems.2 (.inl (.whole hshape)) (clear.starts (.value hshape))
  have hwarned {warning : Warning}
      (h : unsupportedBody warning draft = some (body, after)) : stock.Covers after := by
    obtain ⟨-, rfl⟩ := warn_pure_inv h
    exact covers.warn warning
  have hconstants {listsItems : Bool}
      (h : enumerationBody owner listsItems draft = some (body, after)) : stock.Covers after := by
    obtain ⟨-, rfl | ⟨warning, rfl⟩⟩ := enumerationBody_inv h
    · exact covers
    · exact covers.warn warning
  unfold bodyOf at h
  cases hshape : SchemaShape.of owner.document.body <;> simp only [hshape] at h
  case object =>
    obtain ⟨base, between, hbase, h⟩ := bind_inv h
    obtain ⟨members, last, hmembers, h⟩ := bind_inv h
    obtain ⟨-, rfl⟩ := pure_inv h
    have hderives := baseOf_derives hbase
    have hbetween := hderives.covers covers owns inSources
    exact (propertiesOf_members hmembers).covers hbetween (owns.grows hderives.grows)
      (inSources.grows hderives.grows) (List.Subset.refl _)
      (clear.starts (.properties hshape hderives))
  case anyOf | enumeration =>
    split at h
    · exact hconstants h
    · exact hwarned h
  case scalar kind => exact hvalue (.inr ⟨kind, hshape⟩) h
  case array => exact hvalue (.inl hshape) h
  all_goals exact hwarned h

/-- Drafting the class at the next place stays within the stock. -/
theorem draftAt_covers {depth : Nat} {id : ClassId} {rest : List ClassId} {u : Unit}
    (hpending : draft.pending = id :: rest) (covers : stock.Covers draft)
    (clear : ∀ task, Task.Begins draft task → Task.Clear task)
    (h : draftAt depth id { draft with pending := rest } = some (u, after)) :
    stock.Covers after := by
  have hpopped := covers.beside draft.following rest draft.resolved
  obtain ⟨-, rfl⟩ | ⟨place, drafted, inner, hplace, hclass, rfl⟩ := draftAt_inv h
  · exact hpopped
  · have hplaced : place.document ∈ draft.placed :=
      List.mem_map_of_mem (List.mem_of_getElem? hplace)
    unfold classOf at hclass
    rw [get_bind] at hclass
    obtain ⟨body, last, hbody, hclass⟩ := bind_inv hclass
    rw [get_bind] at hclass
    obtain ⟨-, rfl⟩ := pure_inv hclass
    have hlast := bodyOf_covers hbody (hpopped.enter place.document)
      ⟨hplaced, covers.displayName place.document⟩
      ⟨place.document.source, (covers.placed hplaced).stems.1, rfl⟩
      (clear _ (.drafted hpending hplace))
    exact hlast.leave.fill id _

end Drafting

end SchemaClasses
