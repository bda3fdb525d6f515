import SchemaClasses.Proofs.Drafting.Advancing
import SchemaClasses.Proofs.Drafting.Complete

/-!
# Branches of a draft

What is known of the declarations in one class and has places is a branch of a draft. A branch
unfolds by itself, whatever happens to others in between: it begins when the class gets its place,
and from then on the class at its last open place is drafted. What it unfolds to next follows from
the branch alone, so drafts with nothing pending have the same branch of every class that has a
place in both.
-/

namespace SchemaClasses

/-- The places of what is declared in a class, and the documents that are known of it. -/
@[ext]
structure Branch where
  places : List Place
  declared : String → Option Document

namespace Draft

variable {number : String → ClassId} {home : List (List Char)} {draft other : Draft}

def branch (number : String → ClassId) (home : List (List Char)) (draft : Draft) : Branch where
  places := draft.placesIn number home
  declared := fun key =>
    if Location.IsInline key ∧ Location.host key = home then draft.catalog.document? key else none

theorem declared_eq_iff :
    (other.branch number home).declared = (draft.branch number home).declared ↔
      ∀ key, Location.IsInline key → Location.host key = home →
        other.catalog.document? key = draft.catalog.document? key := by
  constructor
  · intro h key hkey hhost
    simpa [branch, hkey, hhost] using congrFun h key
  · intro h
    funext key
    by_cases hkey : Location.IsInline key ∧ Location.host key = home
    · simp [branch, hkey, h key hkey.1 hkey.2]
    · simp [branch, hkey]

theorem branch_eq (hplaces : other.placesIn number home = draft.placesIn number home)
    (hdeclared : ∀ key, Location.IsInline key → Location.host key = home →
      other.catalog.document? key = draft.catalog.document? key) :
    other.branch number home = draft.branch number home :=
  Branch.ext hplaces (declared_eq_iff.mpr hdeclared)

theorem Beside.agree_of_branch (h : draft.Beside other)
    (hbranch : other.branch number home = draft.branch number home) : draft.Agree home other := by
  refine .of_beside h (declared_eq_iff.mp (congrArg Branch.declared hbranch)) ?_
  have hplaces : other.placesIn number home = draft.placesIn number home :=
    congrArg Branch.places hbranch
  rw [documentsIn_eq number, documentsIn_eq number, hplaces]

theorem Agree.turn (h : draft.Agree home other) (document : Document)
    (later later' : List ClassId) : Agree home
      { draft with pending := later, catalog := draft.catalog.enter document }
      { other with pending := later', catalog := other.catalog.enter document } := by
  have hentered := h.enter document
  exact ⟨hentered.texts, hentered.searchPaths, hentered.context, hentered.settings,
    hentered.naming, hentered.following, hentered.extensionNames, hentered.declared,
    hentered.documents⟩

theorem numbering_fill (draft : Draft) (id : ClassId) (drafted : DraftClass) :
    (draft.fill id drafted).numbering number = draft.numbering number := by
  funext other
  rw [numbering, numbering, keys_fill]

theorem split_places {id : ClassId} {place : Place} (hplace : draft.places[id]? = some place) :
    ∃ above below, draft.places = above ++ place :: below ∧ above.length = id := by
  obtain ⟨above, found, below, hplaces, hlength, -⟩ :=
    List.exists_of_modify (fun place => place) (List.getElem?_eq_some_iff.mp hplace).choose
  have hfound : found = place := by simpa [hplaces, ← hlength] using hplace
  exact ⟨above, below, hfound ▸ hplaces, hlength⟩

/-- The places of a class after one of a draft's places has been filled. -/
theorem placesIn_fill {above below : List Place} {place : Place} {drafted : DraftClass}
    (hplaces : draft.places = above ++ place :: below) :
    (draft.fill above.length drafted).placesIn number home =
      Place.declaredIn home (draft.numbering number) above ++
        ((if Location.host place.document.key = home then
          [⟨place.document, some (drafted.renumbered (draft.numbering number))⟩] else []) ++
          Place.declaredIn home (draft.numbering number) below) := by
  have hfill : (draft.fill above.length drafted).places =
      above ++ { place with drafted := some drafted } :: below := by
    have hlt : above.length < (above ++ place :: below).length := by simp
    change draft.places.modify above.length _ = _
    rw [hplaces, List.modify_eq_take_cons_drop hlt]
    simp
  rw [placesIn, numbering_fill, hfill, Place.declaredIn_append, Place.declaredIn_cons]
  rfl

theorem placesIn_fill_elsewhere {id : ClassId} {place : Place} {drafted : DraftClass}
    (hplace : draft.places[id]? = some place) (hhost : Location.host place.document.key ≠ home) :
    (draft.fill id drafted).placesIn number home = draft.placesIn number home := by
  obtain ⟨above, below, hplaces, rfl⟩ := split_places hplace
  rw [placesIn_fill hplaces, placesIn, hplaces, Place.declaredIn_append, Place.declaredIn_cons,
    if_neg hhost, if_neg hhost]

/-- Of documents with distinct keys one at most is that of a given class itself. -/
theorem filter_host {added : List Document} (distinct : (added.map (·.key)).Nodup)
    (own : ∀ document ∈ added, Location.host document.key = home →
      Location.parts document.key = home) :
    (added.filter fun document => Location.host document.key = home) = [] ∨
      ∃ document ∈ added, Location.host document.key = home ∧
        (added.filter fun document => Location.host document.key = home) = [document] := by
  have hmem (document : Document)
      (h : document ∈ added.filter fun document => Location.host document.key = home) :
      document ∈ added ∧ Location.host document.key = home := by simpa using h
  have hfound : ((added.filter fun document => Location.host document.key = home).map
      (·.key)).Nodup := distinct.sublist (List.filter_sublist.map _)
  cases hfilter : added.filter fun document => Location.host document.key = home with
  | nil => exact .inl rfl
  | cons document more =>
    obtain ⟨hin, hhost⟩ := hmem document (by simp [hfilter])
    refine .inr ⟨document, hin, hhost, ?_⟩
    cases more with
    | nil => rfl
    | cons other more =>
      obtain ⟨hother, hotherHost⟩ := hmem other (by simp [hfilter])
      have heq : document.key = other.key :=
        Location.parts_injective ((own _ hin hhost).trans (own _ hother hotherHost).symm)
      rw [hfilter] at hfound
      simp [heq] at hfound

/-- The documents with new places that are declared in a class, when another one is drafted: that of
the class itself at most, and only before there are others. -/
theorem new_elsewhere (number : String → ClassId) {after : Draft}
    {elsewhere : List (List Char)} {added : List Document}
    (hplaces : after.places = draft.places ++ added.map (⟨·, none⟩)) (distinct : after.keys.Nodup)
    (hosted : draft.Hosted)
    (seen : ∀ key ∈ after.keys, key ∈ draft.keys ∨ Location.SeenFrom elsewhere key)
    (hhome : home ≠ elsewhere) :
    (added.filter fun document => Location.host document.key = home) = [] ∨
      draft.placesIn number home = [] ∧ ∃ own ∈ added,
        ¬Location.IsInline own.key ∧ Location.parts own.key = home ∧
          (added.filter fun document => Location.host document.key = home) = [own] := by
  have hkeys : after.keys = draft.keys ++ added.map (·.key) := by
    simp [keys, hplaces, Function.comp_def]
  rw [hkeys, List.nodup_append] at distinct
  obtain ⟨-, hadded, hnew⟩ := distinct
  have hown (own : Document) (hmem : own ∈ added) (hhost : Location.host own.key = home) :
      Location.parts own.key = home := by
    have hkey : own.key ∈ added.map (·.key) := List.mem_map_of_mem hmem
    rcases seen own.key (hkeys ▸ List.mem_append_right _ hkey) with hbefore | hnot | helse
    · exact absurd rfl (hnew own.key hbefore own.key hkey)
    · rw [← hhost]
      exact (not_not.mp hnot).symm
    · exact absurd (hhost.symm.trans helse) hhome
  rcases filter_host hadded hown with hnone | ⟨own, hin, hhost, hone⟩
  · exact .inl hnone
  · have hparts := hown own hin hhost
    refine .inr ⟨?_, own, hin, not_not.mpr (hhost.trans hparts.symm), hparts, hone⟩
    rw [List.eq_nil_iff_forall_not_mem]
    intro found hplace
    obtain ⟨place, hplace, hhost, -⟩ := Place.mem_declaredIn.mp hplace
    obtain ⟨key, hkey, hkeyParts⟩ := hosted _ (List.mem_map_of_mem hplace)
    have heq : key = own.key := Location.parts_injective (by rw [hkeyParts, hhost, hparts])
    exact hnew key hkey own.key (List.mem_map_of_mem hin) heq

end Draft

namespace Drafting

variable {start draft other after : Draft} {references : List String}
variable {number : String → ClassId} {home : List (List Char)}

/-- How a branch unfolds. -/
inductive Unfolds (start : Draft) (number : String → ClassId) (home : List (List Char)) :
    Branch → Branch → Prop
  | begins {branch own} : branch.places = [] → Location.parts own.key = home →
      start.catalog.PartOf own →
      Unfolds start number home branch ⟨[⟨own, none⟩], branch.declared⟩
  | drafted {branch draft id later place depth drafted inner} : AtRest start draft →
      branch = draft.branch number home → draft.pending = id :: later →
      draft.places[id]? = some place → Location.host place.document.key = home →
      classOf depth place.document
        { draft with pending := later, catalog := draft.catalog.enter place.document } =
          some (drafted, inner) →
      Unfolds start number home branch
        (({ inner with catalog := inner.catalog.leave }.fill id drafted).branch number home)

/-- While another class is drafted a branch stays as it is, or it begins. -/
theorem unfolds_elsewhere {busy : List ClassId} {elsewhere : List (List Char)}
    (orderly : draft.Orderly busy) (hosted : draft.Hosted) (grows : draft.Grows after)
    (stays : draft.StaysIn elsewhere after) (documented : after.Documented)
    (htexts : start.catalog.SameTexts after.catalog)
    (hhome : home ≠ elsewhere) :
    after.branch number home = draft.branch number home ∨
      Unfolds start number home (draft.branch number home) (after.branch number home) := by
  obtain ⟨added, hplaces, -, -⟩ := grows.places
  have hgrown : after.placesIn number home = _ := orderly.placesIn_grows grows hplaces
  have hdeclared : ∀ key, Location.IsInline key → Location.host key = home →
      after.catalog.document? key = draft.catalog.document? key := by
    intro key hkey hhost
    exact stays.elsewhere key hkey (hhost ▸ hhome)
  obtain hnone | ⟨hempty, own, hown, hinline, hparts, hone⟩ := Draft.new_elsewhere number hplaces
    (grows.keys orderly.distinct) hosted stays.keys hhome
  · left
    rw [hnone, List.map_nil, List.append_nil] at hgrown
    exact Draft.branch_eq hgrown hdeclared
  · right
    rw [hempty, hone, List.map_singleton, List.nil_append] at hgrown
    have hmem : (⟨own, none⟩ : Place) ∈ after.places := by
      rw [hplaces]
      exact List.mem_append_right _ (List.mem_map_of_mem hown)
    have hpart := stays.sound.coherent own (documented _ hmem) hinline
    have hbranch : after.branch number home =
        ⟨[⟨own, none⟩], (draft.branch number home).declared⟩ :=
      Branch.ext hgrown (Draft.declared_eq_iff.mpr hdeclared)
    rw [hbranch]
    exact .begins hempty hparts (hpart.of_same htexts.symm)

/-- The last open place of a list is determined. -/
theorem last_open_unique {above below above' below' : List Place} {place place' : Place}
    (h : above ++ place :: below = above' ++ place' :: below')
    (hopen : place.drafted = none) (hopen' : place'.drafted = none)
    (hbelow : ∀ other ∈ below, other.drafted ≠ none)
    (hbelow' : ∀ other ∈ below', other.drafted ≠ none) :
    above = above' ∧ place = place' ∧ below = below' := by
  rcases List.append_eq_append_iff.mp h with ⟨between, hextends, hrest⟩ | ⟨between, hextends, hrest⟩
  · cases between with
    | nil => simp_all
    | cons first between =>
      obtain ⟨-, rfl⟩ := List.cons.inj hrest
      exact absurd hopen' (hbelow place' (by simp))
  · cases between with
    | nil => simp_all
    | cons first between =>
      obtain ⟨-, rfl⟩ := List.cons.inj hrest
      exact absurd hopen (hbelow' place (by simp))

namespace AtRest

variable {id : ClassId} {later : List ClassId} {place : Place}

/-- The place on top of the pending ones is the last open one. -/
theorem last_open (rest : AtRest start draft) (hpending : draft.pending = id :: later)
    (hplace : draft.places[id]? = some place) :
    place.drafted = none ∧ ∃ above below, draft.places = above ++ place :: below ∧
      above.length = id ∧ ∀ other ∈ below, other.drafted ≠ none := by
  have hopen := ((rest.orderly.pending id).mp (hpending ▸ List.mem_cons_self)).1
  rw [Draft.IsOpen, hplace] at hopen
  obtain ⟨above, below, hplaces, hlength⟩ := Draft.split_places hplace
  refine ⟨Option.some.inj hopen, above, below, hplaces, hlength, ?_⟩
  intro other hother hnone
  obtain ⟨offset, hoffset⟩ := List.mem_iff_getElem?.mp hother
  have hat : draft.places[id + 1 + offset]? = some other := by
    rw [hplaces, ← hlength, List.getElem?_append_right (by omega)]
    have hindex : above.length + 1 + offset - above.length = offset + 1 := by omega
    rw [hindex, List.getElem?_cons_succ, hoffset]
  have hmem : id + 1 + offset ∈ draft.pending :=
    (rest.orderly.pending _).mpr ⟨by simp [Draft.IsOpen, hat, hnone], List.not_mem_nil⟩
  have stacked := rest.stacked
  rw [hpending, List.pairwise_cons] at stacked
  rw [hpending, List.mem_cons] at hmem
  have hlt : id < id + 1 + offset :=
    Nat.lt_of_lt_of_le (Nat.lt_succ_self id) (Nat.le_add_right _ offset)
  rcases hmem with heq | hlater
  · exact absurd heq (Nat.ne_of_gt hlt)
  · exact absurd (stacked.1 _ hlater) (Nat.not_lt.mpr (Nat.le_of_lt hlt))

/-- What drafting a class does to the places of the class in which it is declared. -/
theorem places_drafted {depth : Nat} {drafted : DraftClass} {inner : Draft}
    (number : String → ClassId) (rest : AtRest start draft) (hpending : draft.pending = id :: later)
    (hplace : draft.places[id]? = some place) (hhost : Location.host place.document.key = home)
    (hclass : classOf depth place.document
      { draft with pending := later, catalog := draft.catalog.enter place.document } =
        some (drafted, inner)) :
    ∃ above below added,
      draft.placesIn number home = above ++ ⟨place.document, none⟩ :: below ∧
      (∀ other ∈ below, other.drafted ≠ none) ∧
      inner.documentsIn home = draft.documentsIn home ++ added ∧
      ({ inner with catalog := inner.catalog.leave }.fill id drafted).placesIn number home =
        above ++ ⟨place.document, some (drafted.renumbered (inner.numbering number))⟩ ::
          (below ++ added.map (⟨·, none⟩)) := by
  obtain ⟨hopen, above, below, hplaces, rfl, hbelow⟩ := rest.last_open hpending hplace
  have grows : Draft.Grows { draft with pending := later }
      { inner with catalog := inner.catalog.leave } := .leave (classOf_classes hclass).grows
  have orderly := rest.orderly.pop hpending
  obtain ⟨added, hadded, -, -⟩ := grows.places
  have hfilled : inner.places = above ++ place :: (below ++ added.map (⟨·, none⟩)) := by
    have hadded : inner.places = draft.places ++ added.map (⟨·, none⟩) := hadded
    rw [hadded, hplaces, List.append_assoc, List.cons_append]
  have hsame (places : List Place) (hmem : ∀ other ∈ places, other ∈ draft.places) :
      Place.declaredIn home (inner.numbering number) places =
        Place.declaredIn home (draft.numbering number) places :=
    orderly.declaredIn_within grows.within hmem
  refine ⟨Place.declaredIn home (draft.numbering number) above,
    Place.declaredIn home (draft.numbering number) below,
    added.filter fun document => Location.host document.key = home, ?_, ?_, ?_, ?_⟩
  · rw [Draft.placesIn, hplaces, Place.declaredIn_append, Place.declaredIn_cons, if_pos hhost]
    simp [Place.renumbered, hopen]
  · intro other hother
    obtain ⟨found, hfound, -, rfl⟩ := Place.mem_declaredIn.mp hother
    simpa [Place.renumbered] using hbelow found hfound
  · exact Draft.documentsIn_grows hadded
  · have hfill : (Draft.fill { inner with catalog := inner.catalog.leave } above.length
        drafted).placesIn number home = _ := Draft.placesIn_fill hfilled
    rw [hfill, if_pos hhost, Place.declaredIn_append, Place.declaredIn_new]
    have habove := hsame above fun other hother => by simp [hplaces, hother]
    have hbelow := hsame below fun other hother => by simp [hplaces, hother]
    rw [List.singleton_append, ← habove, ← hbelow]
    rfl

end AtRest

/-- Every step leaves a branch as it is or unfolds it. -/
theorem Advances.unfolds (h : Advances start references draft after)
    (plain : ∀ reference ∈ references, Location.IsPlain reference) (rest : AtRest start draft)
    (hhome : home ≠ []) :
    after.branch number home = draft.branch number home ∨
      Unfolds start number home (draft.branch number home) (after.branch number home) := by
  have hrest := h.atRest plain rest
  cases h with
  | lost hmem hload =>
    exact unfolds_elsewhere rest.orderly rest.hosted (load_grows hload)
      (load_staysIn [] rest.sound (plain _ hmem) hload) hrest.documented hrest.beside.texts hhome
  | called hmem hload hid =>
    have hstays := load_staysIn [] rest.sound (plain _ hmem) hload
    have hseen : Location.SeenFrom [] _ := load_seenFrom rest.sound (plain _ hmem) hload
    exact unfolds_elsewhere rest.orderly rest.hosted ((load_grows hload).trans hid.grows)
      (hstays.trans (hid.staysIn hstays.sound (load_knows hload) hseen)) hrest.documented
      hrest.beside.texts hhome
  | @drafted id later place depth drafted inner hpending hplace hclass =>
    by_cases hhost : Location.host place.document.key = home
    · exact .inr (.drafted rest rfl hpending hplace hhost hclass)
    · have hclasses := classOf_classes hclass
      have orderly : Draft.Orderly [id]
          { draft with pending := later, catalog := draft.catalog.enter place.document } :=
        (rest.orderly.pop hpending).surroundings fun known => known
      have hinner : start.catalog.SameTexts inner.catalog :=
        ⟨hrest.beside.texts.files, hrest.beside.texts.downloads⟩
      have helsewhere : inner.branch number home =
            Draft.branch number home
              { draft with pending := later, catalog := draft.catalog.enter place.document } ∨
          Unfolds start number home
            (Draft.branch number home
              { draft with pending := later, catalog := draft.catalog.enter place.document })
            (inner.branch number home) :=
        unfolds_elsewhere orderly rest.hosted hclasses.grows (rest.drafted hplace hclass)
          (hclasses.documented rest.documented) hinner (Ne.symm hhost)
      have hin : inner.places[id]? = some place := hclasses.grows.getElem? hplace
      have hfill : (Draft.fill { inner with catalog := inner.catalog.leave } id
          drafted).branch number home = inner.branch number home :=
        Branch.ext (Draft.placesIn_fill_elsewhere hin hhost) rfl
      rw [hfill]
      exact helsewhere
  | noted => exact .inl rfl

/-- Drafting the class at the last open place of a branch leads to the same branch in every draft
that has it. -/
theorem AtRest.branch_drafted {id id' : ClassId} {later later' : List ClassId}
    {place place' : Place} {depth depth' : Nat} {drafted drafted' : DraftClass}
    {inner inner' : Draft} (rest : AtRest start draft) (rest' : AtRest start other)
    (hsame : other.branch number home = draft.branch number home)
    (hpending : draft.pending = id :: later) (hpending' : other.pending = id' :: later')
    (hplace : draft.places[id]? = some place) (hplace' : other.places[id']? = some place')
    (hhost : Location.host place.document.key = home)
    (hhost' : Location.host place'.document.key = home)
    (hclass : classOf depth place.document
      { draft with pending := later, catalog := draft.catalog.enter place.document } =
        some (drafted, inner))
    (hclass' : classOf depth' place'.document
      { other with pending := later', catalog := other.catalog.enter place'.document } =
        some (drafted', inner')) :
    ({ inner with catalog := inner.catalog.leave }.fill id drafted).branch number home =
      ({ inner' with catalog := inner'.catalog.leave }.fill id' drafted').branch number home := by
  obtain ⟨above, below, added, hplaces, hbelow, hdocuments, hafter⟩ :=
    rest.places_drafted number hpending hplace hhost hclass
  obtain ⟨above', below', added', hplaces', hbelow', hdocuments', hafter'⟩ :=
    rest'.places_drafted number hpending' hplace' hhost' hclass'
  have hlists : other.placesIn number home = draft.placesIn number home :=
    congrArg Branch.places hsame
  rw [hplaces, hplaces'] at hlists
  obtain ⟨rfl, htop, rfl⟩ := last_open_unique hlists rfl rfl hbelow' hbelow
  have hdocument : place'.document = place.document := (Place.mk.inj htop).1
  rw [hdocument] at hclass' hafter'
  have agree : draft.Agree home other := (rest.beside.common rest'.beside).agree_of_branch hsame
  have known := rest.documented place (List.mem_of_getElem? hplace)
  have known' := rest'.documented place' (List.mem_of_getElem? hplace')
  rw [hdocument] at known'
  obtain ⟨hdrafted, hinner⟩ := classOf_agree (agree.turn place.document later later')
    (rest.sound.enter _) (rest'.sound.enter _) known known'
    (rest.sound.sourced.reads_enter known) (rest'.sound.sourced.reads_enter known') hhost
    (Draft.numberAlike number inner inner') hclass hclass'
  have hadded : added' = added := by
    have hnew := hinner.documents
    rw [hdocuments, hdocuments', agree.documents] at hnew
    exact List.append_cancel_left hnew
  refine Draft.branch_eq ?_ fun key hkey hhost => (hinner.declared key hkey hhost).symm
  rw [hafter, hafter', hdrafted, hadded]

theorem AtRest.begun {id : ClassId} {later : List ClassId} {place : Place}
    (rest : AtRest start draft) (hpending : draft.pending = id :: later)
    (hplace : draft.places[id]? = some place) (hhost : Location.host place.document.key = home) :
    (⟨place.document, none⟩ : Place) ∈ draft.placesIn number home :=
  Place.mem_declaredIn.mpr ⟨place, List.mem_of_getElem? hplace, hhost, by
    simp [Place.renumbered, (rest.last_open hpending hplace).1]⟩

/-- What a branch unfolds to next follows from the branch. -/
theorem unfolds_rightUnique (start : Draft) (number : String → ClassId)
    (home : List (List Char)) : Relator.RightUnique (Unfolds start number home) := by
  intro branch next next' h h'
  cases h with
  | begins hempty hparts hpart =>
    cases h' with
    | begins _ hparts' hpart' =>
      have hkey := Location.parts_injective (hparts.trans hparts'.symm)
      rw [hpart.unique hpart' (.refl _) hkey]
    | drafted rest hbranch hpending hplace hhost =>
      have hbegun : _ ∈ Draft.placesIn number home _ := rest.begun hpending hplace hhost
      have hnone : Draft.placesIn number home _ = [] := hbranch ▸ hempty
      exact absurd hbegun (hnone ▸ List.not_mem_nil)
  | drafted rest hbranch hpending hplace hhost hclass =>
    cases h' with
    | begins hempty =>
      have hbegun : _ ∈ Draft.placesIn number home _ := rest.begun hpending hplace hhost
      have hnone : Draft.placesIn number home _ = [] := hbranch ▸ hempty
      exact absurd hbegun (hnone ▸ List.not_mem_nil)
    | drafted rest' hbranch' hpending' hplace' hhost' hclass' =>
      exact rest.branch_drafted rest' (hbranch'.symm.trans hbranch) hpending hpending' hplace
        hplace' hhost hhost' hclass hclass'

theorem unfolds_of_advances
    (h : Relation.ReflTransGen (Advances start references) draft after)
    (plain : ∀ reference ∈ references, Location.IsPlain reference) (rest : AtRest start draft)
    (hhome : home ≠ []) :
    Relation.ReflTransGen (Unfolds start number home) (draft.branch number home)
      (after.branch number home) := by
  induction h with
  | refl => exact .refl
  | tail hsteps step ih =>
    rcases step.unfolds plain (rest.run plain hsteps) hhome with hsame | hunfolds
    · rw [hsame]
      exact ih
    · exact ih.tail hunfolds

/-- With nothing pending no branch unfolds further, once it has begun. -/
theorem AtRest.not_unfolds (rest : AtRest start draft) (hpending : draft.pending = [])
    (hbegun : draft.placesIn number home ≠ []) (next : Branch) :
    ¬Unfolds start number home (draft.branch number home) next := by
  intro h
  cases h with
  | begins hempty => exact hbegun hempty
  | @drafted earlier _ _ place _ _ _ rest' hbranch hpending' hplace hhost =>
    have hsame : draft.placesIn number home = earlier.placesIn number home :=
      congrArg Branch.places hbranch
    have hopen : (⟨place.document, none⟩ : Place) ∈ draft.placesIn number home :=
      hsame ▸ rest'.begun hpending' hplace hhost
    obtain ⟨found, hfound, -, heq⟩ := Place.mem_declaredIn.mp hopen
    obtain ⟨drafted, hdrafted⟩ := (rest.orderly.complete hpending).filled found hfound
    have hnone := congrArg Place.drafted heq
    simp [Place.renumbered, hdrafted] at hnone

/-- Drafts that have advanced from the same one until nothing is pending have the same branch of
every class that has begun in both. -/
theorem branch_unique (plain : ∀ reference ∈ references, Location.IsPlain reference)
    (rest : AtRest start start)
    (h : Relation.ReflTransGen (Advances start references) start draft)
    (h' : Relation.ReflTransGen (Advances start references) start other)
    (hpending : draft.pending = []) (hpending' : other.pending = []) (hhome : home ≠ [])
    (hbegun : draft.placesIn number home ≠ []) (hbegun' : other.placesIn number home ≠ []) :
    other.branch number home = draft.branch number home := by
  have hbranch : Relation.ReflTransGen (Unfolds start number home) _ (draft.branch number home) :=
    unfolds_of_advances h plain rest hhome
  have hbranch' : Relation.ReflTransGen (Unfolds start number home) _ (other.branch number home) :=
    unfolds_of_advances h' plain rest hhome
  rcases Relation.ReflTransGen.total_of_right_unique (unfolds_rightUnique start number home)
    hbranch hbranch' with hahead | hahead
  · rcases Relation.ReflTransGen.cases_head hahead with heq | ⟨next, hnext, -⟩
    · exact heq.symm
    · exact absurd hnext ((rest.run plain h).not_unfolds hpending hbegun next)
  · rcases Relation.ReflTransGen.cases_head hahead with heq | ⟨next, hnext, -⟩
    · exact heq
    · exact absurd hnext ((rest.run plain h').not_unfolds hpending' hbegun' next)

end Drafting

end SchemaClasses
