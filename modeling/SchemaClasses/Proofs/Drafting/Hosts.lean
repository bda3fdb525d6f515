import SchemaClasses.Proofs.Catalog.Parts
import SchemaClasses.Proofs.Drafting.Sources

/-!
# What drafting a class leaves alone

While a class is drafted, documents are found that are parts of files, and documents are made that
are declared in the class itself or in the class that it is declared in. Nothing is added to what is
declared in any other class, and all places that are added are for documents of these two kinds.
-/

namespace SchemaClasses

namespace Catalog

variable {catalog : Catalog} {value : Json} {reference : String}

theorem Reads.isPlain (h : catalog.Reads value) (sound : catalog.Sound)
    (href : value.string? "$ref" = some reference) : Location.IsPlain reference := by
  obtain ⟨key, schema, -, hloaded, hstems⟩ := h
  obtain ⟨part, hpart, hreference, -⟩ := hstems.string? href (by decide)
  have hpath := hloaded.isPath sound.offline
  have hreads := hloaded.reads
  rw [readBody?_path hpath] at hreads
  exact sound.plain.references hpath hreads hpart hreference

theorem Reads.isPlain_of_link? {document : Document} (h : catalog.Reads document.body)
    (sound : catalog.Sound) (hlink : document.link? = some (.reference reference)) :
    Location.IsPlain reference := by
  obtain ⟨inner, hbase, heq⟩ | ⟨target, href, heq⟩ := Document.link?_cases hlink
  · exact (h.onlyBase? hbase).isPlain sound (Link.reference_inv heq.symm)
  · obtain rfl := Link.reference.inj heq
    exact h.isPlain sound href

theorem Reads.isPlain_of_entry {entry : Json} {rest : List Json} (h : catalog.Reads value)
    (sound : catalog.Sound) (hentries : value.array? "allOf" = some (entry :: rest))
    (hlink : Link.ofEntry entry = .reference reference) : Location.IsPlain reference := by
  obtain ⟨entries, hget, hentry⟩ := Json.array?_inv hentries List.mem_cons_self
  exact (h.further hget (by decide) hentry).isPlain sound (Link.reference_inv hlink)

theorem Sound.enter (h : catalog.Sound) (document : Document) : (catalog.enter document).Sound :=
  ⟨h.sourced.enter document, h.coherent.of_same ⟨rfl, rfl⟩ rfl, h.plain, h.offline⟩

theorem Sound.leave (h : catalog.Sound) : catalog.leave.Sound :=
  ⟨h.sourced.leave, h.coherent.of_same ⟨rfl, rfl⟩ rfl, h.plain, h.offline⟩

theorem Sound.tell (h : catalog.Sound) (messages : List Message) : (catalog.tell messages).Sound :=
  h.mono (catalog.tell_grows messages) (h.sourced.tell messages)
    (LearnsParts.tell h.coherent messages).coherent

end Catalog

theorem array?_of_onlyBase? {schema inner : Json} (h : onlyBase? schema = some inner) :
    schema.array? "allOf" = some [inner] := by
  obtain ⟨entries, hget, honly⟩ := Option.bind_eq_some_iff.mp h
  unfold Json.only? at honly
  split at honly
  · obtain rfl := Option.some.inj honly
    simp [Json.array?, hget, Json.asArray?]
  · cases honly

namespace Draft

/-- What is added is a part of a file or is declared in the class with the given host. -/
structure StaysIn (home : List (List Char)) (before after : Draft) : Prop where
  sound : after.catalog.Sound
  elsewhere : ∀ key, Location.IsInline key → Location.host key ≠ home →
    after.catalog.document? key = before.catalog.document? key
  keys : ∀ key ∈ after.keys, key ∈ before.keys ∨ Location.SeenFrom home key

namespace StaysIn

variable {home : List (List Char)} {draft after : Draft}

theorem refl (sound : draft.catalog.Sound) : draft.StaysIn home draft :=
  ⟨sound, fun _ _ _ => rfl, fun _ hkey => .inl hkey⟩

theorem trans {between : Draft} (h : draft.StaysIn home between)
    (k : between.StaysIn home after) : draft.StaysIn home after := by
  refine ⟨k.sound, fun key hkey hhost => ?_, fun key hkey => ?_⟩
  · exact (k.elsewhere key hkey hhost).trans (h.elsewhere key hkey hhost)
  · rcases k.keys key hkey with hbetween | hseen
    · exact h.keys key hbetween
    · exact .inr hseen

theorem of_catalog {catalog : Catalog} (sound : catalog.Sound)
    (h : draft.catalog.LearnsIn home catalog) :
    draft.StaysIn home { draft with catalog := catalog } :=
  ⟨sound, h.elsewhere, fun _ hkey => .inl hkey⟩

theorem warn (sound : draft.catalog.Sound) (warning : Warning) :
    draft.StaysIn home { draft with catalog := draft.catalog.warn warning } :=
  ⟨sound.tell _, fun _ _ _ => rfl, fun _ hkey => .inl hkey⟩

/-- What is added in the context of a document, while some schemas are being followed, is added
outside of it. -/
theorem leave {document : Document} {inner : Draft} {following following' : List String}
    (h : StaysIn home
      { draft with following := following, catalog := draft.catalog.enter document } inner) :
    draft.StaysIn home { inner with following := following', catalog := inner.catalog.leave } :=
  ⟨h.sound.leave, h.elsewhere, h.keys⟩

end StaysIn

end Draft

namespace Drafting

variable {home : List (List Char)} {draft after : Draft}

theorem load_staysIn (home : List (List Char)) {reference : String} {found : Option Document}
    (sound : draft.catalog.Sound) (plain : Location.IsPlain reference)
    (h : load reference draft = some (found, after)) : draft.StaysIn home after := by
  obtain ⟨-, rfl⟩ := load_inv h
  exact .of_catalog (sound.load plain) (.of_parts (sound.load_learns plain))

theorem load_seenFrom {reference : String} {document : Document}
    (sound : draft.catalog.Sound) (plain : Location.IsPlain reference)
    (h : load reference draft = some (some document, after)) :
    Location.SeenFrom home document.key := by
  obtain ⟨hfound, -⟩ := load_inv h
  exact .inl (sound.load_not_isInline plain hfound.symm)

theorem firstEntry_staysIn {document known : Document} {body : Json} {rest : List Json}
    (sound : draft.catalog.Sound) (hknown : draft.catalog.Knows document)
    (seen : Location.SeenFrom home document.key)
    (hentries : document.body.array? "allOf" = some (body :: rest))
    (h : insert (document.firstEntry body) draft = some (known, after)) :
    draft.StaysIn home after ∧ Location.SeenFrom home known.key := by
  obtain ⟨entries, hget, hbody⟩ := Json.array?_inv hentries List.mem_cons_self
  have hsourced := firstEntry_lasts Catalog.sourced_lasting sound.sourced hknown hget hbody h
  obtain ⟨rfl, rfl⟩ := insert_inv h
  have hlearns : draft.catalog.LearnsIn home (draft.catalog.insert (document.firstEntry body)).2 :=
    .insert sound.coherent seen.firstEntry fun hinline =>
      (sound.coherent document hknown fun hdocument =>
        hinline ((Location.host_firstEntry document.key).1.mpr hdocument)).firstEntry hentries
  have grows := (draft.catalog.insert_finds (document.firstEntry body)).grows
  refine ⟨.of_catalog (sound.mono grows hsourced hlearns.coherent) hlearns, ?_⟩
  rw [Catalog.insert_key]
  exact seen.firstEntry

theorem target_staysIn {document : Document} {link : Link} {found : Option Document}
    (sound : draft.catalog.Sound) (known : draft.catalog.Knows document)
    (seen : Location.SeenFrom home document.key) (hlink : document.link? = some link)
    (h : target document link draft = some (found, after)) :
    draft.StaysIn home after ∧ ∀ next, found = some next → Location.SeenFrom home next.key := by
  cases link with
  | reference reference =>
    obtain ⟨inner, hload, rfl⟩ := inContext_inv h
    have hentered := sound.enter document
    have plain := (sound.sourced.reads_enter known).isPlain_of_link? hentered hlink
    have hstays : Draft.StaysIn home
        { draft with catalog := draft.catalog.enter document } inner :=
      load_staysIn home hentered plain hload
    refine ⟨hstays.leave, ?_⟩
    rintro next rfl
    exact load_seenFrom hentered plain hload
  | entry body =>
    obtain ⟨known', between, hinsert, h⟩ := bind_inv h
    obtain ⟨rfl, rfl⟩ := pure_inv h
    obtain ⟨hstays, hseen⟩ := firstEntry_staysIn sound known seen
      (array?_of_onlyBase? (Document.link?_entry_inv hlink)) hinsert
    refine ⟨hstays, ?_⟩
    rintro next ⟨⟩
    exact hseen

theorem Unaliases.staysIn {seen : List String} {document : Document} {found : Option Document}
    (h : Unaliases seen document draft found after) (sound : draft.catalog.Sound)
    (known : draft.catalog.Knows document) (seenFrom : Location.SeenFrom home document.key) :
    draft.StaysIn home after ∧ ∀ own, found = some own → Location.SeenFrom home own.key := by
  induction h with
  | circle => exact ⟨.warn sound _, by simp⟩
  | itself =>
    refine ⟨.refl sound, ?_⟩
    rintro own ⟨⟩
    exact seenFrom
  | lost _ hlink htarget => exact ⟨(target_staysIn sound known seenFrom hlink htarget).1, by simp⟩
  | next _ hlink htarget _ ih =>
    obtain ⟨hstays, hseen⟩ := target_staysIn sound known seenFrom hlink htarget
    obtain ⟨hrest, hown⟩ := ih hstays.sound (target_knows htarget) (hseen _ rfl)
    exact ⟨hstays.trans hrest, hown⟩

theorem Interns.staysIn {document : Document} {id : Option ClassId}
    (h : Interns document draft id after) (sound : draft.catalog.Sound)
    (known : draft.catalog.Knows document) (seenFrom : Location.SeenFrom home document.key) :
    draft.StaysIn home after := by
  cases h with
  | lost hown => exact (hown.staysIn sound known seenFrom).1
  | known hown => exact (hown.staysIn sound known seenFrom).1
  | @added own between hown =>
    obtain ⟨hstays, hseen⟩ := hown.staysIn sound known seenFrom
    refine hstays.trans ⟨hstays.sound, fun _ _ _ => rfl, fun key hkey => ?_⟩
    have hkeys : (between.append own).keys = between.keys ++ [own.key] := by
      simp [Draft.keys, Draft.append]
    rw [hkeys, List.mem_append, List.mem_singleton] at hkey
    rcases hkey with hkey | rfl
    · exact .inl hkey
    · exact .inr (hseen own rfl)

section

variable {owner : Owner}

theorem inlineDocument_staysIn {path : String} {fragment : Json} {document : Document}
    (sound : draft.catalog.Sound) (reads : draft.catalog.Reads fragment)
    (habsolute : Location.isAbsolute owner.document.key = true)
    (hhost : Location.host owner.document.key = home)
    (h : inlineDocument owner path fragment draft = some (document, after)) :
    draft.StaysIn home after ∧ Location.SeenFrom home document.key := by
  have hsourced := inlineDocument_lasts Catalog.sourced_lasting sound.sourced reads
    (fun _ => habsolute) h
  obtain ⟨hown, hinline⟩ := Location.host_inline owner.document.key path
  obtain ⟨rfl, rfl⟩ := insert_inv (inlineDocument_inv h)
  have hlearns : draft.catalog.LearnsIn home (draft.catalog.insert {
      key := owner.document.key ++ "#inline/" ++ path
      source := draft.catalog.contextTop?.getD owner.document.source
      body := fragment.titled (Naming.inlineTitle owner.typeName path) }).2 :=
    .insert sound.coherent (.inr (hown.trans hhost)) fun hnot => absurd hinline hnot
  have hsound := sound.mono (draft.catalog.insert_finds _).grows hsourced hlearns.coherent
  refine ⟨.of_catalog hsound hlearns, ?_⟩
  rw [Catalog.insert_key]
  exact .inr (hown.trans hhost)

theorem Types.staysIn {path : String} {fragment : Json} {usage : Usage}
    {type : Option Descriptor} (h : Types owner path fragment usage draft type after)
    (sound : draft.catalog.Sound) (reads : draft.catalog.Reads fragment)
    (habsolute : Location.isAbsolute owner.document.key = true)
    (hhost : Location.host owner.document.key = home) : draft.StaysIn home after := by
  induction h with
  | empty | anyItems | scalar | anyValues => exact .refl sound
  | enumeration _ htype =>
    obtain ⟨type, -, rfl⟩ | ⟨fault, -, rfl⟩ := enumerationType_inv htype
    · exact .refl sound
    · exact .warn sound _
  | array hshape _ ih =>
    exact ih sound (reads.further (PropertyShape.array_inv hshape) (by decide) .self)
  | inlineObject _ hdocument hid =>
    obtain ⟨hstays, hseen⟩ := inlineDocument_staysIn sound reads habsolute hhost hdocument
    exact hstays.trans
      (hid.staysIn hstays.sound (insert_knows (inlineDocument_inv hdocument)) hseen)
  | dictionary hshape _ _ ih =>
    exact ih sound (reads.further (PropertyShape.dictionary_inv hshape) (by decide) .self)
  | missing hshape hload =>
    have plain := reads.isPlain sound (PropertyShape.reference_inv hshape)
    have hstays := load_staysIn home sound plain hload
    exact hstays.trans (.warn hstays.sound _)
  | index hshape hload | json hshape hload =>
    have plain := reads.isPlain sound (PropertyShape.reference_inv hshape)
    exact load_staysIn home sound plain hload
  | reference hshape hleads _ hid =>
    have plain := reads.isPlain sound (PropertyShape.reference_inv hshape)
    have hstays := load_staysIn home sound plain hleads.loads
    exact hstays.trans (hid.staysIn hstays.sound (load_knows hleads.loads)
      (load_seenFrom sound plain hleads.loads))
  | circular hshape hleads =>
    have plain := reads.isPlain sound (PropertyShape.reference_inv hshape)
    have hstays := load_staysIn home sound plain hleads.loads
    exact hstays.trans (.warn hstays.sound _)
  | followed hshape hleads _ _ _ ih =>
    have plain := reads.isPlain sound (PropertyShape.reference_inv hshape)
    have hstays := load_staysIn home sound plain hleads.loads
    have hinner := ih (hstays.sound.enter _)
      (hstays.sound.sourced.reads_enter (load_knows hleads.loads))
    exact hstays.trans hinner.leave
  | composite hshape _ ih => exact ih sound (reads.onlyBase? (PropertyShape.composite_inv hshape))
  | unsupported => exact .warn sound _

theorem Names.staysIn {document : Document} {entry : Json} {rest : List Json}
    {id : Option ClassId} (h : Names document entry draft id after) (sound : draft.catalog.Sound)
    (known : draft.catalog.Knows document) (reads : draft.catalog.Reads document.body)
    (seen : Location.SeenFrom home document.key)
    (hentries : document.body.array? "allOf" = some (entry :: rest)) :
    draft.StaysIn home after := by
  have hplain {reference : String} (hlink : Link.ofEntry entry = .reference reference) :
      Location.IsPlain reference := reads.isPlain_of_entry sound hentries hlink
  cases h with
  | missing hlink hload => exact load_staysIn home sound (hplain hlink) hload
  | reference hlink hload hid =>
    have hstays := load_staysIn home sound (hplain hlink) hload
    exact hstays.trans (hid.staysIn hstays.sound (load_knows hload)
      (load_seenFrom sound (hplain hlink) hload))
  | written hlink hinsert hid =>
    obtain rfl := Link.entry_inv hlink
    obtain ⟨hstays, hseen⟩ := firstEntry_staysIn sound known seen hentries hinsert
    exact hstays.trans (hid.staysIn hstays.sound (insert_knows hinsert) hseen)

theorem Derives.staysIn {id : Option ClassId} (h : Derives owner draft id after)
    (sound : draft.catalog.Sound) (known : draft.catalog.Knows owner.document)
    (reads : draft.catalog.Reads owner.document.body)
    (seen : Location.SeenFrom home owner.document.key) : draft.StaysIn home after := by
  cases h with
  | root => exact .refl sound
  | only hentries hnames => exact hnames.staysIn sound known reads seen hentries
  | @first _ _ rest _ _ hentries hnames =>
    have hwarned : draft.StaysIn home
        { draft with
          catalog := draft.catalog.warn (.severalBases owner.typeName (rest.length + 2)) } :=
      .warn sound _
    exact hwarned.trans (hnames.staysIn hwarned.sound known
      (reads.mono (draft.catalog.warn_grows _)) seen hentries)

theorem Members.staysIn {declared : List (String × Json)} {members : List Property}
    (h : Members owner declared draft members after) (sound : draft.catalog.Sound)
    (reads : ∀ entry ∈ declared, draft.catalog.Reads entry.2)
    (habsolute : Location.isAbsolute owner.document.key = true)
    (hhost : Location.host owner.document.key = home) : draft.StaysIn home after := by
  induction h with
  | nil => exact .refl sound
  | implied _ _ ih => exact ih sound fun entry h => reads entry (List.mem_cons_of_mem _ h)
  | stub _ htype _ ih | member _ htype _ ih =>
    have hstays := htype.staysIn sound (reads _ List.mem_cons_self) habsolute hhost
    refine hstays.trans (ih hstays.sound fun entry h => ?_)
    exact (reads entry (List.mem_cons_of_mem _ h)).mono htype.grows.catalog

theorem Bodies.staysIn {body : DraftBody} (h : Bodies owner draft body after)
    (sound : draft.catalog.Sound) (known : draft.catalog.Knows owner.document)
    (reads : draft.catalog.Reads owner.document.body)
    (hhost : Location.host owner.document.key = home) : draft.StaysIn home after := by
  obtain ⟨schema, comes⟩ := sound.sourced owner.document known
  cases h with
  | object _ hbase hmembers =>
    have hstays := hbase.staysIn sound known reads (.inr hhost)
    refine hstays.trans
      (hmembers.staysIn hstays.sound (fun entry hentry => ?_) (comes.rooted sound.offline) hhost)
    exact (reads_properties reads entry hentry).mono hbase.grows.catalog
  | constants _ hbody =>
    obtain ⟨-, rfl | ⟨warning, rfl⟩⟩ := enumerationBody_inv hbody
    · exact .refl sound
    · exact .warn sound _
  | value _ htype | untyped _ htype =>
    exact htype.staysIn sound reads (comes.rooted sound.offline) hhost
  | unsupported => exact .warn sound _

end

end Drafting

end SchemaClasses
