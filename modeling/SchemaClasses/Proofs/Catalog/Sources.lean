import SchemaClasses.Proofs.Catalog.Growth
import SchemaClasses.Proofs.FileTree
import SchemaClasses.Proofs.Json.Occurs

/-!
# Where documents come from

Every document of a catalog has a file as its source and stems from the schema in it. Finding
documents keeps this so: a new document is a file, or what a pointer leads to in a known one. A file
whose key has a `#` may be found under the key of another document, and then the title that this was
given can be pointed at; without such keys every document is a part of its file, but for its title.
Paths in a tree may be free of `#`, but nothing is said of the URLs that are asked for.
-/

namespace SchemaClasses

namespace Location

theorem isAbsolute_append {key : String} (h : isAbsolute key = true) (rest : String) :
    isAbsolute (key ++ rest) = true := by
  unfold isAbsolute at h ⊢
  cases hkey : key.toList with
  | nil => simp [hkey] at h
  | cons c rest => simpa [hkey] using h

theorem isAbsolute_of_isUrl {url : String} (h : isUrl url = true) : isAbsolute url = false := by
  unfold isUrl at h
  rw [Bool.or_eq_true] at h
  unfold isAbsolute
  rcases h with h | h
  · obtain ⟨rest, hrest⟩ := List.isPrefixOf_iff_prefix.mp h
    simp [← hrest]
  · obtain ⟨rest, hrest⟩ := List.isPrefixOf_iff_prefix.mp h
    simp [← hrest]

theorem scheme_normalizeUrl {url : String} {scheme rest : List Char}
    (h : cutScheme url.toList = some (scheme, rest)) :
    (scheme ++ "://".toList) <+: (normalizeUrl url).toList := by
  unfold normalizeUrl
  simp only [h, Option.getD_some, String.toList_ofList]
  simp [List.append_assoc]

/-- A normalized URL is one. -/
theorem isUrl_normalizeUrl {url : String} (h : isUrl url = true) :
    isUrl (normalizeUrl url) = true := by
  unfold isUrl at h ⊢
  rw [Bool.or_eq_true] at h ⊢
  rcases h with h | h
  · obtain ⟨rest, hrest⟩ := List.isPrefixOf_iff_prefix.mp h
    have hcut : cutScheme url.toList = some ("http".toList, rest) := by
      rw [← hrest]
      rfl
    exact .inl (List.isPrefixOf_iff_prefix.mpr (scheme_normalizeUrl hcut))
  · obtain ⟨rest, hrest⟩ := List.isPrefixOf_iff_prefix.mp h
    have hcut : cutScheme url.toList = some ("https".toList, rest) := by
      rw [← hrest]
      rfl
    exact .inr (List.isPrefixOf_iff_prefix.mpr (scheme_normalizeUrl hcut))

end Location

namespace FileTree

/-- A path is the canonical one of something in the tree. -/
def IsPath (files : FileTree) (key : String) : Prop :=
  ∃ location, files.canonical? location = some key

/-- A path in the tree looks like that of a file with a fragment. -/
def HashInPath (files : FileTree) : Prop := ∃ key, files.IsPath key ∧ '#' ∈ key.toList

theorem IsPath.absolute {files : FileTree} {key : String} (h : files.IsPath key) :
    Location.isAbsolute key = true := by
  obtain ⟨location, h⟩ := h
  obtain ⟨place, -, rfl⟩ := canonical?_inv h
  exact isAbsolute_spell place

end FileTree

namespace Catalog

/-- A key is that of a URL or the path of something. -/
def IsLocated (catalog : Catalog) (key : String) : Prop :=
  Location.isUrl key = true ∨ catalog.files.IsPath key

/-- The key of a location may look like that of a file with a fragment. -/
def HashInKey (catalog : Catalog) : Prop := catalog.files.HashInPath ∨ catalog.downloads ≠ []

/-- Without downloads a key is that of something in the tree. -/
def IsRooted (catalog : Catalog) (key : String) : Prop :=
  catalog.downloads = [] → Location.isAbsolute key = true

/-- The file with a key has been loaded, with a schema in it. -/
structure HasLoaded (catalog : Catalog) (key : String) (schema : Json) : Prop where
  located : catalog.IsLocated key
  reads : catalog.readBody? key = some schema
  knows : catalog.Knows ⟨key, key, schema⟩

/-- A document stems from the schema in the file that is its source. It is that file, or its key has
a `#`. -/
structure ComesFrom (catalog : Catalog) (document : Document) (schema : Json) : Prop where
  loaded : catalog.HasLoaded document.source schema
  stems : schema.Stems catalog.HashInKey document.body
  rooted : catalog.IsRooted document.key
  key : document.key = document.source ∨ '#' ∈ document.key.toList

/-- Every document that is known stems from the schema in its source. -/
def Sourced (catalog : Catalog) : Prop :=
  ∀ document, catalog.Knows document → ∃ schema, catalog.ComesFrom document schema

variable {catalog after : Catalog} {document : Document} {schema : Json}

namespace SameTexts

theorem readBody?_eq (h : catalog.SameTexts after) (key : String) :
    after.readBody? key = catalog.readBody? key := by
  unfold readBody? readText?
  rw [h.files, h.downloads]

theorem isLocated_iff (h : catalog.SameTexts after) (key : String) :
    after.IsLocated key ↔ catalog.IsLocated key := by
  unfold IsLocated
  rw [h.files]

theorem hashInKey_iff (h : catalog.SameTexts after) : after.HashInKey ↔ catalog.HashInKey := by
  unfold HashInKey
  rw [h.files, h.downloads]

theorem isRooted_iff (h : catalog.SameTexts after) (key : String) :
    after.IsRooted key ↔ catalog.IsRooted key := by
  unfold IsRooted
  rw [h.downloads]

theorem comesFrom (h : catalog.SameTexts after) (comes : catalog.ComesFrom document schema)
    (knows : after.Knows ⟨document.source, document.source, schema⟩) :
    after.ComesFrom document schema where
  loaded := ⟨(h.isLocated_iff _).mpr comes.loaded.located,
    (h.readBody?_eq _).trans comes.loaded.reads, knows⟩
  stems := by
    rw [h.hashInKey_iff]
    exact comes.stems
  rooted := (h.isRooted_iff _).mpr comes.rooted
  key := comes.key

end SameTexts

theorem HasLoaded.mono {key : String} (h : catalog.HasLoaded key schema)
    (grows : catalog.Grows after) : after.HasLoaded key schema where
  located := (grows.sameTexts.isLocated_iff key).mpr h.located
  reads := (grows.sameTexts.readBody?_eq key).trans h.reads
  knows := h.knows.mono grows

theorem ComesFrom.mono (h : catalog.ComesFrom document schema) (grows : catalog.Grows after) :
    after.ComesFrom document schema :=
  grows.sameTexts.comesFrom h (h.loaded.knows.mono grows)

theorem IsRooted.mono {key : String} (h : catalog.IsRooted key) (grows : catalog.Grows after) :
    after.IsRooted key :=
  (grows.sameTexts.isRooted_iff key).mpr h

theorem IsRooted.append {key : String} (h : catalog.IsRooted key) (rest : String) :
    catalog.IsRooted (key ++ rest) :=
  fun offline => Location.isAbsolute_append (h offline) rest

theorem isLocated_of_keyOf? {location key : String} (h : catalog.keyOf? location = some key) :
    catalog.IsLocated key := by
  unfold keyOf? at h
  split at h
  · obtain rfl := Option.some.inj h
    exact .inl (Location.isUrl_normalizeUrl ‹_›)
  · exact .inr ⟨location, h⟩

theorem not_hashInKey (paths : ¬catalog.files.HashInPath) (offline : catalog.downloads = []) :
    ¬catalog.HashInKey :=
  not_or.mpr ⟨paths, not_not_intro offline⟩

theorem IsLocated.isPath {key : String} (h : catalog.IsLocated key)
    (hread : catalog.readBody? key = some schema) (offline : catalog.downloads = []) :
    catalog.files.IsPath key := by
  refine h.resolve_left fun hurl => ?_
  rw [readBody?, readText?, if_pos hurl, offline] at hread
  cases hread

theorem IsLocated.rooted {key : String} (h : catalog.IsLocated key)
    (hread : catalog.readBody? key = some schema) : catalog.IsRooted key :=
  fun offline => (h.isPath hread offline).absolute

theorem HasLoaded.isPath {key : String} (h : catalog.HasLoaded key schema)
    (offline : catalog.downloads = []) : catalog.files.IsPath key :=
  h.located.isPath h.reads offline

theorem readBody?_path {path : String} (hpath : catalog.files.IsPath path) :
    catalog.readBody? path = (catalog.files.readText? path).bind Json.read? := by
  rw [readBody?, readText?, if_neg]
  intro hurl
  have := hpath.absolute
  rw [Location.isAbsolute_of_isUrl hurl] at this
  cases this

theorem knows_add {other : Document} (h : (catalog.add document).Knows other) :
    other = document ∨ catalog.Knows other := by
  unfold Knows document? add at h
  rw [List.find?_cons] at h
  split at h
  · exact .inl (Option.some.inj h).symm
  · exact .inr h

theorem new_sourced (files : FileTree) (searchPaths extensionPaths : List String)
    (downloads : List (String × String)) :
    (new files searchPaths extensionPaths downloads).Sourced :=
  fun document known => absurd known (not_knows_new _ _ _ _ document)

namespace Sourced

theorem of_same (h : catalog.Sourced) (htexts : catalog.SameTexts after)
    (hdocuments : after.documents = catalog.documents) : after.Sourced := by
  intro document known
  have hknown : catalog.Knows document := by
    unfold Knows document? at known ⊢
    rwa [hdocuments] at known
  obtain ⟨schema, comes⟩ := h document hknown
  have hsource : after.Knows ⟨document.source, document.source, schema⟩ := by
    have := comes.loaded.knows
    unfold Knows document? at this ⊢
    rwa [hdocuments]
  exact ⟨schema, htexts.comesFrom comes hsource⟩

theorem add (h : catalog.Sourced) (new : catalog.document? document.key = none)
    (comes : (catalog.add document).ComesFrom document schema) :
    (catalog.add document).Sourced := by
  intro other known
  rcases knows_add known with rfl | hbefore
  · exact ⟨schema, comes⟩
  · obtain ⟨schema, comes⟩ := h other hbefore
    exact ⟨schema, comes.mono (add_grows new)⟩

theorem tell (h : catalog.Sourced) (messages : List Message) : (catalog.tell messages).Sourced :=
  h.of_same ⟨rfl, rfl⟩ rfl

theorem giveTitle (h : catalog.Sourced) (document : Document) (title : String) :
    (catalog.giveTitle document title).Sourced := by
  unfold Catalog.giveTitle
  split
  · split
    · exact h.of_same ⟨rfl, rfl⟩ rfl
    · exact h.of_same ⟨rfl, rfl⟩ rfl
  · exact h.of_same ⟨rfl, rfl⟩ rfl

theorem addFile {key : String} (h : catalog.Sourced) (new : catalog.document? key = none)
    (located : catalog.IsLocated key) (hread : catalog.readBody? key = some schema) :
    (catalog.addFile ⟨key, key, schema⟩).Sourced := by
  have hcomes : (catalog.add ⟨key, key, schema⟩).ComesFrom ⟨key, key, schema⟩ schema :=
    ⟨⟨located, hread, catalog.add_knows _⟩, .part .self, located.rooted hread, .inl rfl⟩
  have hadd := h.add new hcomes
  unfold Catalog.addFile
  split
  · exact hadd.giveTitle _ _
  · exact hadd

theorem loadLocation (h : catalog.Sourced) (location : String) :
    (catalog.loadLocation location).2.Sourced := by
  unfold Catalog.loadLocation
  split
  · exact h.of_same ⟨rfl, rfl⟩ rfl
  · rename_i key hkey
    split
    · exact h
    · rename_i new
      split
      · exact h
      · exact h.addFile new (isLocated_of_keyOf? hkey) ‹_›

theorem loadFirst (h : catalog.Sourced) (locations : List String) :
    (catalog.loadFirst locations).2.Sourced :=
  loadFirst_keeps loadLocation h locations

/-- A document that is known under the key of a location is known under a path, unless something can
be downloaded. -/
theorem isPath_of_located (h : catalog.Sourced) (known : catalog.Knows document)
    (located : catalog.IsLocated document.key) (offline : catalog.downloads = []) :
    catalog.files.IsPath document.key := by
  obtain ⟨schema, comes⟩ := h document known
  refine located.resolve_left fun hurl => ?_
  have habsolute := comes.rooted offline
  rw [Location.isAbsolute_of_isUrl hurl] at habsolute
  cases habsolute

/-- A document that is known under the key of a location is the file there, unless such keys may
have a `#`. -/
theorem file (h : catalog.Sourced) (hash : ¬catalog.HashInKey) (known : catalog.Knows document)
    (located : catalog.IsLocated document.key) :
    ∃ body, catalog.readBody? document.key = some body ∧
      document = ⟨document.key, document.key, body⟩ := by
  obtain ⟨paths, online⟩ := not_or.mp hash
  have hpath := h.isPath_of_located known located (Classical.not_not.mp online)
  obtain ⟨schema, comes⟩ := h document known
  have hkey := comes.key.resolve_right fun hmem => paths ⟨_, hpath, hmem⟩
  have hloaded := comes.loaded
  rw [← hkey] at hloaded
  exact ⟨schema, hloaded.reads, known.unique hloaded.knows rfl⟩

/-- A part of a document that is found under the key of a location is a part of the file, unless
such keys may have a `#`. -/
theorem select (h : catalog.Sourced) (known : catalog.Knows document)
    (located : catalog.IsLocated document.key) (fragment : String) :
    (catalog.select document fragment).2.Sourced := by
  obtain ⟨schema, comes⟩ := h document known
  unfold Catalog.select
  split
  · exact h
  · dsimp only
    split
    · exact h
    · rename_i new
      split
      · exact h.tell _
      · rename_i body hbody
        have hstems : schema.Stems catalog.HashInKey body := by
          by_cases hash : catalog.HashInKey
          · exact Json.pointer?_inv (fun hvalue hchild => hvalue.child? hash hchild)
              comes.stems hbody
          · obtain ⟨whole, hread, hfile⟩ := h.file hash known located
            have hsource : document.source = document.key := congrArg Document.source hfile
            have hreads := comes.loaded.reads
            rw [hsource, hread] at hreads
            obtain rfl := Option.some.inj hreads
            rw [hfile] at hbody
            exact .part (Json.occurs_of_pointer? hbody)
        refine h.add new ⟨comes.loaded.mono (add_grows new), hstems, ?_, .inr (by simp)⟩
        rw [String.append_assoc]
        exact comes.rooted.append _

end Sourced

/-- What is found at a location is known under its key. -/
theorem loadLocation_key {location : String}
    (h : (catalog.loadLocation location).1 = some document) :
    catalog.keyOf? location = some document.key := by
  unfold loadLocation at h
  split at h
  · cases h
  · rename_i key hkey
    rw [hkey]
    split at h
    · rename_i known hknown
      obtain rfl := Option.some.inj h
      have : known.key = key := by simpa using List.find?_some hknown
      rw [this]
    · split at h
      · cases h
      · obtain rfl := Option.some.inj h
        rfl

theorem loadFirst_isLocated {locations : List String}
    (hfound : (catalog.loadFirst locations).1 = some document) :
    catalog.IsLocated document.key := by
  induction locations generalizing catalog with
  | nil => cases hfound
  | cons location rest ih =>
    rw [loadFirst] at hfound
    split at hfound
    · rename_i found between heq
      obtain rfl := Option.some.inj hfound
      exact isLocated_of_keyOf? (loadLocation_key (by rw [heq]))
    · rename_i between heq
      have hgrows := (catalog.loadLocation_finds location).grows
      rw [heq] at hgrows
      exact (hgrows.sameTexts.isLocated_iff _).mp (ih hfound)

theorem loadFrom_isLocated {reference : String} {locations : List String}
    (hfound : (catalog.loadFrom reference locations "").1 = some document) :
    catalog.IsLocated document.key := by
  unfold loadFrom at hfound
  split at hfound
  · rename_i file between heq
    obtain rfl : file = document := by simpa [select] using hfound
    exact loadFirst_isLocated (by rw [heq])
  · cases hfound

theorem load_isLocated {reference : String} (hwhole : (Location.splitReference reference).2 = "")
    (hfound : (catalog.load reference).1 = some document) : catalog.IsLocated document.key := by
  unfold load at hfound
  dsimp only at hfound
  rw [hwhole] at hfound
  split at hfound
  · split at hfound
    · exact loadFrom_isLocated hfound
    · cases hfound
  · exact loadFrom_isLocated hfound

namespace Sourced

theorem loadFrom (h : catalog.Sourced) (reference : String) (locations : List String)
    (fragment : String) : (catalog.loadFrom reference locations fragment).2.Sourced := by
  have hfirst := h.loadFirst locations
  have hfinds := catalog.loadFirst_finds locations
  unfold Catalog.loadFrom
  split
  · rename_i document between heq
    have hfound : (catalog.loadFirst locations).1 = some document := by rw [heq]
    have located := (hfinds.grows.sameTexts.isLocated_iff _).mpr (loadFirst_isLocated hfound)
    rw [heq] at hfirst hfinds located
    exact hfirst.select (hfinds.knows document rfl) located fragment
  · rename_i between heq
    rw [heq] at hfirst
    exact hfirst.tell _

theorem load (h : catalog.Sourced) (reference : String) : (catalog.load reference).2.Sourced := by
  unfold Catalog.load
  dsimp only
  split
  · split
    · exact h.loadFrom _ _ _
    · exact h.tell _
  · exact h.loadFrom _ _ _

/-- A document made from a part of a file, under a key that no file has but one with a `#` in its
key. -/
theorem insert (h : catalog.Sourced) (hloaded : catalog.HasLoaded document.source schema)
    (hstems : schema.Stems catalog.HashInKey document.body)
    (rooted : catalog.IsRooted document.key) (hkey : '#' ∈ document.key.toList) :
    (catalog.insert document).2.Sourced := by
  unfold Catalog.insert
  split
  · exact h
  · rename_i new
    exact h.add new ⟨hloaded.mono (add_grows new), hstems, rooted, .inr hkey⟩

theorem enter (h : catalog.Sourced) (document : Document) :
    (catalog.enter document).Sourced :=
  h.of_same ⟨rfl, rfl⟩ rfl

theorem leave (h : catalog.Sourced) : catalog.leave.Sourced := h.of_same ⟨rfl, rfl⟩ rfl

end Sourced

/-- What goes on to hold of a catalog through its operations, as long as a document is only inserted
that is made from a part of a loaded file. All documents stem from their sources then. -/
structure Lasting (kept : Catalog → Prop) : Prop where
  sourced : ∀ {catalog}, kept catalog → catalog.Sourced
  load : ∀ {catalog} (reference : String), kept catalog → kept (catalog.load reference).2
  loadExtension : ∀ {catalog} (reference : String) (hint : Option String), kept catalog →
    kept (catalog.loadExtension reference hint).2
  insert : ∀ {catalog : Catalog} {document schema}, kept catalog →
    catalog.HasLoaded document.source schema →
    schema.Stems catalog.HashInKey document.body →
    catalog.IsRooted document.key → '#' ∈ document.key.toList →
    kept (catalog.insert document).2
  tell : ∀ {catalog} (messages : List Message), kept catalog → kept (catalog.tell messages)
  enter : ∀ {catalog} (document : Document), kept catalog → kept (catalog.enter document)
  leave : ∀ {catalog}, kept catalog → kept catalog.leave

theorem Lasting.moves {kept : Catalog → Prop} {strangers : Prop} (lasting : Lasting kept)
    (strict : ¬strangers) (hkept : kept catalog) (hmoves : catalog.Moves strangers after) :
    kept after := by
  cases hmoves with
  | load reference => exact lasting.load reference hkept
  | loadExtension reference hint => exact lasting.loadExtension reference hint hkept
  | insert document hstrangers => exact absurd hstrangers strict
  | tell messages => exact lasting.tell messages hkept

theorem sourced_lasting : Lasting Sourced where
  sourced := id
  load := fun reference h => h.load reference
  loadExtension := fun _ _ h => h.loadFrom _ _ _
  insert := Sourced.insert
  tell := fun messages h => h.tell messages
  enter := fun document h => h.enter document
  leave := Sourced.leave

end Catalog

end SchemaClasses
