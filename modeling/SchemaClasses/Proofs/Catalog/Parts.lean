import SchemaClasses.Proofs.Catalog.Plain

/-!
# Parts of files

The key of a document that is its own host says all about it: the file and the fragments to select
in it, one after another. As long as no path has a `#` and nothing is downloaded, plain references
add only such documents, so what is loaded does not depend on what has been loaded before. What is
declared inline is different: its key says where it was declared, and the first one with the key is
kept.
-/

namespace SchemaClasses

namespace Catalog

/-- The value that the parts of a key lead to. -/
def part? (catalog : Catalog) (key : String) : Option Json :=
  match Location.parts key with
  | [] => none
  | file :: fragments =>
    (catalog.readBody? (String.ofList file)).bind fun body =>
      fragments.foldlM (fun value fragment => value.pointer? (String.ofList fragment)) body

/-- A document is what its key says. -/
structure PartOf (catalog : Catalog) (document : Document) : Prop where
  source : (Location.parts document.key).head? = some document.source.toList
  body : catalog.part? document.key = some document.body

/-- Every known document that is not declared inline is what its key says. -/
def Coherent (catalog : Catalog) : Prop :=
  ∀ document, catalog.Knows document → ¬Location.IsInline document.key → catalog.PartOf document

variable {catalog after : Catalog} {document other : Document}

theorem SameTexts.part?_eq (h : catalog.SameTexts after) (key : String) :
    after.part? key = catalog.part? key := by
  unfold part?
  split
  · rfl
  · rw [h.readBody?_eq]

theorem part?_append {key fragment : String} (hsingle : '#' ∉ fragment.toList) :
    catalog.part? (key ++ "#" ++ fragment) =
      (catalog.part? key).bind fun value => value.pointer? fragment := by
  obtain ⟨file, rest, hparts⟩ := Location.exists_parts_eq_cons key
  have happend : Location.parts (key ++ "#" ++ fragment) = file :: (rest ++ [fragment.toList]) := by
    rw [Location.parts_append, hparts, Location.parts_of_not_mem hsingle, List.cons_append]
  unfold part?
  rw [happend, hparts]
  simp [Option.bind_assoc, List.foldlM_append]

namespace PartOf

theorem of_same (h : catalog.PartOf document) (htexts : catalog.SameTexts after) :
    after.PartOf document :=
  ⟨h.source, (htexts.part?_eq _).trans h.body⟩

theorem unique (h : catalog.PartOf document) (k : after.PartOf other)
    (htexts : catalog.SameTexts after) (hkey : document.key = other.key) :
    document = other := by
  have hsource := h.source
  have hbody := h.body
  rw [hkey, k.source] at hsource
  rw [hkey, ← htexts.part?_eq, k.body] at hbody
  have hsource := String.toList_injective (Option.some.inj hsource)
  have hbody := Option.some.inj hbody
  cases document
  cases other
  simp_all

theorem file {key : String} {body : Json} (hread : catalog.readBody? key = some body)
    (hkey : '#' ∉ key.toList) : catalog.PartOf ⟨key, key, body⟩ where
  source := by rw [Location.parts_of_not_mem hkey]; rfl
  body := by simp [part?, Location.parts_of_not_mem hkey, hread]

theorem fragment (h : catalog.PartOf document) {fragment : String} {body : Json}
    (hsingle : '#' ∉ fragment.toList) (hbody : document.body.pointer? fragment = some body) :
    catalog.PartOf ⟨document.key ++ "#" ++ fragment, document.source, body⟩ where
  source := by
    obtain ⟨file, rest, hparts⟩ := Location.exists_parts_eq_cons document.key
    have hsource := h.source
    rw [hparts] at hsource
    rw [Location.parts_append, hparts]
    exact hsource
  body := by rw [part?_append hsingle, h.body, Option.bind_some, hbody]

end PartOf

/-- The first entry of `allOf` is what a pointer to it leads to. -/
theorem pointer?_allOf {body entry : Json} {rest : List Json}
    (h : body.array? "allOf" = some (entry :: rest)) : body.pointer? "/allOf/0" = some entry := by
  obtain ⟨entries, hget, hentries⟩ := Option.bind_eq_some_iff.mp h
  obtain ⟨fields, hfields, hget⟩ := Option.bind_eq_some_iff.mp hget
  have hbody : body = .obj fields := by
    cases body with
    | obj own => rw [Option.some.inj hfields]
    | null | bool | num | str | arr => cases hfields
  have harray : entries = .arr (entry :: rest) := by
    cases entries with
    | arr own => rw [Option.some.inj hentries]
    | null | bool | num | str | obj => cases hentries
  have htokens : Json.pointerTokens? "/allOf/0" = some ["allOf".toList, ['0']] := by decide
  rw [Json.pointer?, htokens, hbody]
  simp [Json.child?, hget, harray]
  rfl

theorem PartOf.firstEntry {entry : Json} {rest : List Json} (h : catalog.PartOf document)
    (hentries : document.body.array? "allOf" = some (entry :: rest)) :
    catalog.PartOf (document.firstEntry entry) := by
  have hpart : catalog.PartOf ⟨document.key ++ "#" ++ "/allOf/0", document.source, entry⟩ :=
    h.fragment (by decide) (pointer?_allOf hentries)
  rwa [String.append_assoc] at hpart

theorem Coherent.of_same (h : catalog.Coherent) (htexts : catalog.SameTexts after)
    (hdocuments : after.documents = catalog.documents) : after.Coherent := by
  intro document known hinline
  rw [Knows, document?_eq hdocuments] at known
  exact (h document known hinline).of_same htexts

/-- A catalog that has learned only parts of files. -/
structure LearnsParts (before after : Catalog) : Prop where
  coherent : after.Coherent
  inline : ∀ key, Location.IsInline key → after.document? key = before.document? key

namespace LearnsParts

theorem refl (h : catalog.Coherent) : catalog.LearnsParts catalog := ⟨h, fun _ _ => rfl⟩

theorem trans {between : Catalog} (h : catalog.LearnsParts between)
    (k : between.LearnsParts after) : catalog.LearnsParts after :=
  ⟨k.coherent, fun key hkey => (k.inline key hkey).trans (h.inline key hkey)⟩

theorem of_same (h : catalog.Coherent) (htexts : catalog.SameTexts after)
    (hdocuments : after.documents = catalog.documents) : catalog.LearnsParts after :=
  ⟨h.of_same htexts hdocuments, fun key _ => document?_eq hdocuments key⟩

theorem tell (h : catalog.Coherent) (messages : List Message) :
    catalog.LearnsParts (catalog.tell messages) :=
  .of_same h ⟨rfl, rfl⟩ rfl

end LearnsParts

theorem document?_add {key : String} (hkey : document.key ≠ key) :
    (catalog.add document).document? key = catalog.document? key := by
  simp [document?, add, hkey]

theorem Coherent.add (h : catalog.Coherent)
    (part : ¬Location.IsInline document.key → catalog.PartOf document) :
    (catalog.add document).Coherent := by
  intro other known hinline
  rcases knows_add known with rfl | hbefore
  · exact (part hinline).of_same ⟨rfl, rfl⟩
  · exact (h other hbefore hinline).of_same ⟨rfl, rfl⟩

namespace LearnsParts

theorem add (h : catalog.Coherent) (hinline : ¬Location.IsInline document.key)
    (part : catalog.PartOf document) : catalog.LearnsParts (catalog.add document) := by
  refine ⟨h.add fun _ => part, fun key hkey => document?_add ?_⟩
  rintro rfl
  exact hinline hkey

theorem insert (h : catalog.Coherent) (hinline : ¬Location.IsInline document.key)
    (part : catalog.PartOf document) : catalog.LearnsParts (catalog.insert document).2 := by
  unfold Catalog.insert
  split
  · exact .refl h
  · exact .add h hinline part

theorem giveTitle (h : catalog.Coherent) (document : Document) (title : String) :
    catalog.LearnsParts (catalog.giveTitle document title) := by
  unfold Catalog.giveTitle
  split
  · split
    · exact .of_same h ⟨rfl, rfl⟩ rfl
    · exact .of_same h ⟨rfl, rfl⟩ rfl
  · exact .of_same h ⟨rfl, rfl⟩ rfl

theorem addFile (h : catalog.Coherent) (hinline : ¬Location.IsInline document.key)
    (part : catalog.PartOf document) : catalog.LearnsParts (catalog.addFile document) := by
  have hadd := add h hinline part
  unfold Catalog.addFile
  split
  · exact hadd.trans (giveTitle hadd.coherent _ _)
  · exact hadd

theorem loadLocation (h : catalog.Coherent) (paths : ¬catalog.files.HashInPath)
    (offline : catalog.downloads = []) (location : String) :
    catalog.LearnsParts (catalog.loadLocation location).2 := by
  unfold Catalog.loadLocation
  split
  · exact .of_same h ⟨rfl, rfl⟩ rfl
  · rename_i key hkey
    split
    · exact .refl h
    · split
      · exact .refl h
      · rename_i body hread
        have hpath := (isLocated_of_keyOf? hkey).isPath hread offline
        have hmem : '#' ∉ key.toList := fun hmem => paths ⟨key, hpath, hmem⟩
        exact .addFile h (Location.not_isInline_of_not_mem hmem) (.file hread hmem)

theorem loadFirst (h : catalog.Coherent) (paths : ¬catalog.files.HashInPath)
    (offline : catalog.downloads = []) (locations : List String) :
    catalog.LearnsParts (catalog.loadFirst locations).2 := by
  induction locations generalizing catalog with
  | nil => exact .refl h
  | cons location rest ih =>
    have hlocation := loadLocation h paths offline location
    have hgrows := (catalog.loadLocation_finds location).grows
    rw [Catalog.loadFirst]
    split
    · rename_i document between heq
      rwa [heq] at hlocation
    · rename_i between heq
      rw [heq] at hlocation hgrows
      refine hlocation.trans (ih hlocation.coherent ?_ (hgrows.downloads.trans offline))
      rwa [hgrows.files]

theorem select {fragment : String} (h : catalog.Coherent) (part : catalog.PartOf document)
    (hinline : ¬Location.IsInline document.key) (hsingle : '#' ∉ fragment.toList)
    (hfragment : fragment = "" ∨ Location.isFragment fragment.toList = true) :
    catalog.LearnsParts (catalog.select document fragment).2 := by
  unfold Catalog.select
  split
  · exact .refl h
  · rename_i hwhole
    dsimp only
    split
    · exact .refl h
    · split
      · exact .tell h _
      · rename_i body hbody
        have hstarts := hfragment.resolve_left fun hempty => hwhole (.inl hempty)
        exact .add h (Location.not_isInline_append hinline hstarts hsingle)
          (part.fragment hsingle hbody)

end LearnsParts

/-- A catalog that learns nothing that is declared inside of other classes than one with the given
host. -/
structure LearnsIn (home : List (List Char)) (before after : Catalog) : Prop where
  coherent : after.Coherent
  elsewhere : ∀ key, Location.IsInline key → Location.host key ≠ home →
    after.document? key = before.document? key

namespace LearnsIn

variable {home : List (List Char)}

theorem of_parts (h : catalog.LearnsParts after) : catalog.LearnsIn home after :=
  ⟨h.coherent, fun key hkey _ => h.inline key hkey⟩

theorem insert (h : catalog.Coherent) (seen : Location.SeenFrom home document.key)
    (part : ¬Location.IsInline document.key → catalog.PartOf document) :
    catalog.LearnsIn home (catalog.insert document).2 := by
  unfold Catalog.insert
  split
  · exact ⟨h, fun _ _ _ => rfl⟩
  · refine ⟨h.add part, fun key hkey hhost => document?_add ?_⟩
    rintro rfl
    exact seen.elim (fun hnot => hnot hkey) hhost

end LearnsIn

/-- All documents stem from their sources, those that are not declared inline are what their keys
say, and nothing that can be read looks like a key of another kind. -/
structure Sound (catalog : Catalog) : Prop where
  sourced : catalog.Sourced
  coherent : catalog.Coherent
  plain : catalog.files.IsPlain
  offline : catalog.downloads = []

namespace Sound

theorem not_hashInKey (h : catalog.Sound) : ¬catalog.HashInKey :=
  Catalog.not_hashInKey h.plain.paths h.offline

theorem mono (h : catalog.Sound) (grows : catalog.Grows after) (sourced : after.Sourced)
    (coherent : after.Coherent) : after.Sound where
  sourced := sourced
  coherent := coherent
  plain := by
    rw [grows.files]
    exact h.plain
  offline := grows.downloads.trans h.offline

theorem loadLocation_found (h : catalog.Sound) (location : String) :
    (catalog.loadLocation location).1 = (catalog.keyOf? location).bind fun key =>
      (catalog.readBody? key).map fun body => ⟨key, key, body⟩ := by
  cases hkey : catalog.keyOf? location with
  | none => simp [loadLocation, hkey]
  | some key =>
    cases hknown : catalog.document? key with
    | none => cases hread : catalog.readBody? key <;> simp [loadLocation, hkey, hknown, hread]
    | some document =>
      have known := knows_of_document? hknown
      have hfound : (catalog.loadLocation location).1 = some document := by
        simp [loadLocation, hkey, hknown]
      have hlocation := loadLocation_key hfound
      obtain ⟨body, hread, hdocument⟩ :=
        h.sourced.file h.not_hashInKey known (isLocated_of_keyOf? hlocation)
      obtain rfl : document.key = key := Option.some.inj (hlocation.symm.trans hkey)
      rw [hfound, Option.bind_some, hread, Option.map_some, ← hdocument]

theorem loadLocation (h : catalog.Sound) (location : String) :
    (catalog.loadLocation location).2.Sound :=
  h.mono (catalog.loadLocation_finds location).grows (h.sourced.loadLocation location)
    (LearnsParts.loadLocation h.coherent h.plain.paths h.offline location).coherent

theorem loadFirst_cons (catalog : Catalog) (location : String) (rest : List String) :
    (catalog.loadFirst (location :: rest)).1 =
      (catalog.loadLocation location).1.or
        ((catalog.loadLocation location).2.loadFirst rest).1 := by
  rw [loadFirst]
  split <;> rename_i heq <;> simp [heq]

/-- What is found first does not depend on what is known. -/
theorem loadFirst_found (h : catalog.Sound) (k : after.Sound)
    (htexts : catalog.SameTexts after) (locations : List String) :
    (after.loadFirst locations).1 = (catalog.loadFirst locations).1 := by
  induction locations generalizing catalog after with
  | nil => rfl
  | cons location rest ih =>
    have hkey (location : String) : after.keyOf? location = catalog.keyOf? location := by
      unfold keyOf?
      rw [htexts.files]
    have hlocation : (after.loadLocation location).1 = (catalog.loadLocation location).1 := by
      rw [h.loadLocation_found, k.loadLocation_found, hkey]
      congr 1
      funext key
      rw [htexts.readBody?_eq]
    have hrest := ih (h.loadLocation location) (k.loadLocation location)
      (htexts.of_grows (catalog.loadLocation_finds location).grows
        (after.loadLocation_finds location).grows)
    rw [loadFirst_cons, loadFirst_cons, hlocation, hrest]

theorem select_found {fragment : String} (h : catalog.Coherent) (part : catalog.PartOf document)
    (hinline : ¬Location.IsInline document.key) (hsingle : '#' ∉ fragment.toList)
    (hfragment : fragment = "" ∨ Location.isFragment fragment.toList = true) :
    (catalog.select document fragment).1 =
      if fragment = "" ∨ fragment = "/" then some document
      else (document.body.pointer? fragment).map fun body =>
        ⟨document.key ++ "#" ++ fragment, document.source, body⟩ := by
  unfold select
  split
  · rfl
  · rename_i hwhole
    have hstarts := hfragment.resolve_left fun hempty => hwhole (.inl hempty)
    dsimp only
    cases hknown : catalog.document? (document.key ++ "#" ++ fragment) with
    | none => cases document.body.pointer? fragment <;> rfl
    | some known =>
      have hkey : known.key = document.key ++ "#" ++ fragment := by
        simpa using List.find?_some hknown
      have hnot := Location.not_isInline_append hinline hstarts hsingle
      have hpart := h known (knows_of_document? hknown) (hkey ▸ hnot)
      have hbody := hpart.body
      rw [hkey, part?_append hsingle, part.body, Option.bind_some] at hbody
      rw [hbody, Option.map_some, (part.fragment hsingle hbody).unique hpart ⟨rfl, rfl⟩ hkey.symm]

theorem loadFirst (h : catalog.Sound) (locations : List String) :
    (catalog.loadFirst locations).2.Sound :=
  loadFirst_keeps loadLocation h locations

theorem loadFirst_part (h : catalog.Sound) {locations : List String}
    (hfound : (catalog.loadFirst locations).1 = some document) :
    (catalog.loadFirst locations).2.PartOf document ∧ ¬Location.IsInline document.key := by
  have between := h.loadFirst locations
  have known := (catalog.loadFirst_finds locations).knows document hfound
  have located := (((catalog.loadFirst_finds locations).grows.sameTexts).isLocated_iff _).mpr
    (loadFirst_isLocated hfound)
  have hpath := between.sourced.isPath_of_located known located between.offline
  have hmem : '#' ∉ document.key.toList := fun hmem => between.plain.paths ⟨_, hpath, hmem⟩
  have hinline := Location.not_isInline_of_not_mem hmem
  exact ⟨between.coherent document known hinline, hinline⟩

section

variable {reference : String}

theorem loadFrom_learns (h : catalog.Sound) (plain : Location.IsPlain reference)
    (locations : List String) :
    catalog.LearnsParts
      (catalog.loadFrom reference locations (Location.splitReference reference).2).2 := by
  have hfirst := LearnsParts.loadFirst h.coherent h.plain.paths h.offline locations
  unfold loadFrom
  split
  · rename_i document between heq
    have hfound : (catalog.loadFirst locations).1 = some document := by rw [heq]
    obtain ⟨part, hinline⟩ := h.loadFirst_part hfound
    rw [heq] at hfirst part
    exact hfirst.trans (.select hfirst.coherent part hinline plain.single plain.fragment)
  · rename_i between heq
    rw [heq] at hfirst
    exact hfirst.trans (.tell hfirst.coherent _)

theorem loadFrom_fst (catalog : Catalog) (reference : String) (locations : List String)
    (fragment : String) :
    (catalog.loadFrom reference locations fragment).1 =
      (catalog.loadFirst locations).1.bind fun document =>
        ((catalog.loadFirst locations).2.select document fragment).1 := by
  unfold loadFrom
  split <;> rename_i heq <;> simp [heq]

theorem loadFrom_found (h : catalog.Sound) (k : after.Sound)
    (htexts : catalog.SameTexts after) (plain : Location.IsPlain reference)
    (locations : List String) :
    (after.loadFrom reference locations (Location.splitReference reference).2).1 =
      (catalog.loadFrom reference locations (Location.splitReference reference).2).1 := by
  have hfirst := h.loadFirst_found k htexts locations
  rw [loadFrom_fst, loadFrom_fst, hfirst]
  cases hfound : (catalog.loadFirst locations).1 with
  | none => rfl
  | some document =>
    rw [hfound] at hfirst
    obtain ⟨part, hinline⟩ := h.loadFirst_part hfound
    obtain ⟨part', -⟩ := k.loadFirst_part hfirst
    have hselect := select_found (h.loadFirst locations).coherent part hinline plain.single
      plain.fragment
    have hselect' := select_found (k.loadFirst locations).coherent part' hinline plain.single
      plain.fragment
    rw [Option.bind_some, Option.bind_some, hselect, hselect']

/-- Loading a plain reference adds parts of files only. -/
theorem load_learns (h : catalog.Sound) (plain : Location.IsPlain reference) :
    catalog.LearnsParts (catalog.load reference).2 := by
  unfold load
  dsimp only
  split
  · split
    · exact h.loadFrom_learns plain _
    · exact .tell h.coherent _
  · exact h.loadFrom_learns plain _

theorem load (h : catalog.Sound) (plain : Location.IsPlain reference) :
    (catalog.load reference).2.Sound :=
  h.mono (catalog.load_finds reference).grows (h.sourced.load reference)
    (h.load_learns plain).coherent

/-- What a plain reference means does not depend on what is known. -/
theorem load_found (h : catalog.Sound) (k : after.Sound) (htexts : catalog.SameTexts after)
    (hpaths : after.searchPaths = catalog.searchPaths)
    (hcontext : after.context = catalog.context) (plain : Location.IsPlain reference) :
    (after.load reference).1 = (catalog.load reference).1 := by
  have htop : after.contextTop? = catalog.contextTop? := by rw [contextTop?, contextTop?, hcontext]
  unfold Catalog.load
  dsimp only
  split
  · rw [htop]
    split
    · exact h.loadFrom_found k htexts plain _
    · rfl
  · rw [locations, locations, htop, hpaths]
    exact h.loadFrom_found k htexts plain _

/-- What a plain reference means is not declared inline. -/
theorem load_not_isInline (h : catalog.Sound) (plain : Location.IsPlain reference)
    (hfound : (catalog.load reference).1 = some document) : ¬Location.IsInline document.key := by
  have hfrom (locations : List String) (hfound : (catalog.loadFrom reference locations
      (Location.splitReference reference).2).1 = some document) :
      ¬Location.IsInline document.key := by
    rw [loadFrom_fst] at hfound
    obtain ⟨first, hfirst, hselect⟩ := Option.bind_eq_some_iff.mp hfound
    obtain ⟨part, hinline⟩ := h.loadFirst_part hfirst
    rw [select_found (h.loadFirst locations).coherent part hinline plain.single plain.fragment]
      at hselect
    split at hselect
    · obtain rfl := Option.some.inj hselect
      exact hinline
    · rename_i hwhole
      obtain ⟨body, -, rfl⟩ := Option.map_eq_some_iff.mp hselect
      have hstarts := plain.fragment.resolve_left fun hempty => hwhole (.inl hempty)
      exact Location.not_isInline_append hinline hstarts plain.single
  unfold Catalog.load at hfound
  dsimp only at hfound
  split at hfound
  · split at hfound
    · exact hfrom _ hfound
    · cases hfound
  · exact hfrom _ hfound

end

theorem insert_part (h : catalog.Sound) (part : catalog.PartOf document)
    (hinline : ¬Location.IsInline document.key) : (catalog.insert document).1 = document := by
  unfold Catalog.insert
  split
  · rename_i known hknown
    have hkey : known.key = document.key := by simpa using List.find?_some hknown
    have hpart := h.coherent known (knows_of_document? hknown) (hkey ▸ hinline)
    exact hpart.unique part ⟨rfl, rfl⟩ hkey
  · rfl

end Sound

end Catalog

end SchemaClasses
