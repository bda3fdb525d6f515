import Mathlib.Data.List.DropRight
import SchemaClasses.Proofs.Catalog.Sources
import SchemaClasses.Proofs.Catalog.Keys

/-!
# Normal URLs

A URL has a scheme, a host and the segments of its path. Normalizing changes the segments only: what
is left of them is what was there, without dots, and whatever was to go above the first one is gone.
The URL that comes out is written in full, so it is read as it was put together, and normalizing it
again changes nothing. A name below a directory or next to a document leads to a URL with the same
host, which is its own key.
-/

namespace SchemaClasses

namespace Text

variable {s : Char} {before after cs : List Char} {parts : List (List Char)}

theorem pieces_join (hne : parts ≠ []) (h : ∀ part ∈ parts, s ∉ part) :
    pieces (· == s) (join [s] parts) = parts := by
  induction parts with
  | nil => exact absurd rfl hne
  | cons part more ih =>
    have hpart : pieces (· == s) part = [part] := by
      refine pieces_of_none fun c hc => beq_eq_false_iff_ne.mpr ?_
      rintro rfl
      exact h part List.mem_cons_self hc
    cases more with
    | nil => exact hpart
    | cons next more =>
      have hmore := ih (List.cons_ne_nil _ _) fun part hpart =>
        h part (List.mem_cons_of_mem _ hpart)
      have happend : pieces (· == s) (part ++ s :: join [s] (next :: more)) =
          pieces (· == s) part ++ pieces (· == s) (join [s] (next :: more)) :=
        pieces_append (by simp) _ _
      rw [join, List.append_assoc, List.singleton_append, happend, hpart, hmore]
      · rfl
      · exact List.cons_ne_nil _ _

theorem exists_cutLast (before after : List Char) (s : Char) :
    ∃ tail rest, cutLast [s] (before ++ s :: after) = some (before ++ tail, rest) ∧
      ∀ c ∈ tail.head?, c = s := by
  induction before with
  | nil =>
    rw [List.nil_append, cutLast]
    cases cutLast [s] after with
    | none => exact ⟨[], after, by simp, by simp⟩
    | some found => exact ⟨s :: found.1, found.2, rfl, by simp⟩
  | cons c before ih =>
    obtain ⟨tail, rest, hcut, htail⟩ := ih
    exact ⟨tail, rest, by rw [List.cons_append, cutLast, hcut]; rfl, htail⟩

theorem rdropWhile_append {sep : Char → Bool} (h : before.rdropWhile sep = before)
    (after : List Char) : (before ++ after).rdropWhile sep = before ++ after.rdropWhile sep := by
  induction after using List.reverseRecOn with
  | nil => simp [h]
  | append_singleton after c ih =>
    rw [← List.append_assoc, List.rdropWhile_concat, List.rdropWhile_concat]
    split
    · exact ih
    · exact List.append_assoc _ _ _

end Text

namespace Location

/-! ### The parts of a URL -/

/-- The parts of a URL that normalizing tells apart. A URL without a path has an empty one. -/
structure UrlParts where
  scheme : List Char
  host : List Char
  /-- What is between the slashes of the path. -/
  segments : List (List Char)

def urlParts (url : String) : UrlParts :=
  let (scheme, rest) := (cutScheme url.toList).getD ([], url.toList)
  let (host, path) := (Text.cutFirst (· == '/') rest).getD (rest, [])
  ⟨scheme, host, Text.pieces (· == '/') path⟩

def UrlParts.text (parts : UrlParts) : String :=
  String.ofList
    (parts.scheme ++ "://".toList ++ parts.host ++ '/' :: Text.join ['/'] parts.segments)

/-- A segment that stands for no place of its own. -/
def IsDots (segment : List Char) : Prop := segment = ".".toList ∨ segment = "..".toList

/-- A URL that is written in full and has no dot segments. -/
structure IsNormal (url : String) : Prop where
  full : (urlParts url).text = url
  dotless : ∀ segment ∈ (urlParts url).segments, ¬IsDots segment

def webSchemes : List (List Char) := ["http".toList, "https".toList]

/-- A web URL taken apart: what comes after its host is nothing or starts with a slash. -/
structure IsWritten (url : String) (scheme host tail : List Char) : Prop where
  text : url.toList = scheme ++ "://".toList ++ host ++ tail
  scheme : scheme ∈ webSchemes
  host : '/' ∉ host
  tail : ∀ c ∈ tail.head?, c = '/'

variable {url name : String} {scheme host tail : List Char}

theorem cutScheme_web (h : scheme ∈ webSchemes) (rest : List Char) :
    cutScheme (scheme ++ "://".toList ++ rest) = some (scheme, rest) := by
  simp only [webSchemes, List.mem_cons, List.not_mem_nil, or_false] at h
  rcases h with rfl | rfl <;> rfl

theorem isUrl_iff :
    isUrl url = true ↔ ∃ scheme ∈ webSchemes, scheme ++ "://".toList <+: url.toList := by
  simp [isUrl, webSchemes, List.isPrefixOf_iff_prefix]

theorem isUrl_iff_isWritten :
    isUrl url = true ↔ ∃ scheme host tail, IsWritten url scheme host tail := by
  rw [isUrl_iff]
  constructor
  · rintro ⟨scheme, hscheme, rest, hrest⟩
    by_cases hslash : '/' ∈ rest
    · obtain ⟨host, path, rfl, hhost⟩ := List.eq_append_cons_of_mem hslash
      exact ⟨scheme, host, '/' :: path, by simp [← hrest], hscheme, hhost, by simp⟩
    · exact ⟨scheme, rest, [], by simp [← hrest], hscheme, hslash, by simp⟩
  · rintro ⟨scheme, host, tail, h⟩
    exact ⟨scheme, h.scheme, host ++ tail, by rw [h.text, ← List.append_assoc]⟩

theorem IsWritten.isUrl (h : IsWritten url scheme host tail) : Location.isUrl url = true :=
  isUrl_iff_isWritten.mpr ⟨scheme, host, tail, h⟩

theorem IsWritten.parts (h : IsWritten url scheme host tail) :
    urlParts url = ⟨scheme, host, Text.pieces (· == '/') (tail.drop 1)⟩ := by
  unfold urlParts
  rw [h.text, List.append_assoc, cutScheme_web h.scheme]
  cases tail with
  | nil => simp [Text.cutFirst_eq_none h.host]
  | cons c path =>
    obtain rfl := h.tail c rfl
    simp [Text.cutFirst_append h.host]

theorem IsWritten.full {path : List Char} (h : IsWritten url scheme host ('/' :: path)) :
    (urlParts url).text = url := by
  apply String.toList_injective
  rw [h.parts, UrlParts.text, String.toList_ofList, h.text]
  simp [Text.join_pieces]

/-! ### Segments without dots -/

variable {segments kept : List (List Char)} {segment : List Char}

theorem mem_foldl_keepSegment (h : segment ∈ segments.foldl keepSegment kept) :
    segment ∈ kept ∨ segment ∈ segments ∧ ¬IsDots segment := by
  induction segments generalizing kept with
  | nil => exact .inl h
  | cons first rest ih =>
    rcases ih h with h | ⟨h, hdots⟩
    · unfold keepSegment at h
      split at h
      · exact .inl h
      · rename_i hdot
        split at h
        · exact .inl (List.mem_of_mem_drop h)
        · rename_i hdouble
          rcases List.mem_cons.mp h with rfl | h
          · exact .inr ⟨List.mem_cons_self, not_or.mpr ⟨hdot, hdouble⟩⟩
          · exact .inl h
    · exact .inr ⟨List.mem_cons_of_mem _ h, hdots⟩

theorem mem_normalizeSegments (h : segment ∈ normalizeSegments segments) :
    segment ∈ segments ∧ ¬IsDots segment := by
  rw [normalizeSegments, List.mem_reverse] at h
  exact (mem_foldl_keepSegment h).resolve_left List.not_mem_nil

theorem normalizeSegments_of_dotless (h : ∀ segment ∈ segments, ¬IsDots segment) :
    normalizeSegments segments = segments := by
  have hfold (kept : List (List Char)) :
      segments.foldl keepSegment kept = segments.reverse ++ kept := by
    induction segments generalizing kept with
    | nil => rfl
    | cons first rest ih =>
      obtain ⟨hdot, hdouble⟩ := not_or.mp (h first List.mem_cons_self)
      rw [List.foldl_cons, ih fun segment hsegment => h segment (List.mem_cons_of_mem _ hsegment),
        keepSegment, if_neg hdot, if_neg hdouble]
      simp
  rw [normalizeSegments, hfold, List.append_nil, List.reverse_reverse]

theorem normalizeSegments_replicate_append (n : Nat) (segments : List (List Char)) :
    normalizeSegments (List.replicate n "..".toList ++ segments) = normalizeSegments segments := by
  induction n with
  | zero => rfl
  | succ n ih => exact ih

theorem normalizeUrl_eq (url : String) :
    normalizeUrl url = UrlParts.text { urlParts url with
      segments := normalizeSegments (urlParts url).segments } :=
  rfl

theorem IsNormal.normalizeUrl (h : IsNormal url) : normalizeUrl url = url := by
  rw [normalizeUrl_eq, normalizeSegments_of_dotless h.dotless]
  exact h.full

theorem IsWritten.normalizeUrl (h : IsWritten url scheme host tail) :
    ∃ path, IsWritten (Location.normalizeUrl url) scheme host ('/' :: path) ∧
      ∀ segment ∈ Text.pieces (· == '/') path, ¬IsDots segment := by
  let kept := normalizeSegments (Text.pieces (· == '/') (tail.drop 1))
  refine ⟨Text.join ['/'] kept, ⟨?_, h.scheme, h.host, by simp⟩, fun segment hsegment => ?_⟩
  · rw [normalizeUrl_eq, h.parts, UrlParts.text, String.toList_ofList]
  · have hkept : ∀ segment ∈ kept, '/' ∉ segment ∧ ¬IsDots segment := fun segment hsegment => by
      obtain ⟨hpiece, hdots⟩ := mem_normalizeSegments hsegment
      exact ⟨Text.not_mem_of_mem_pieces hpiece, hdots⟩
    by_cases hnil : kept = []
    · rw [hnil, Text.join, Text.pieces, List.mem_singleton] at hsegment
      simp [hsegment, IsDots]
    · rw [Text.pieces_join hnil fun part hpart => (hkept part hpart).1] at hsegment
      exact (hkept segment hsegment).2

theorem isNormal_normalizeUrl (h : isUrl url = true) : IsNormal (normalizeUrl url) := by
  obtain ⟨scheme, host, tail, hwritten⟩ := isUrl_iff_isWritten.mp h
  obtain ⟨path, hnormal, hdotless⟩ := hwritten.normalizeUrl
  refine ⟨hnormal.full, ?_⟩
  rwa [hnormal.parts]

theorem urlParts_normalizeUrl (h : isUrl url = true) :
    (urlParts (normalizeUrl url)).scheme = (urlParts url).scheme ∧
      (urlParts (normalizeUrl url)).host = (urlParts url).host := by
  obtain ⟨scheme, host, tail, hwritten⟩ := isUrl_iff_isWritten.mp h
  obtain ⟨path, hnormal, -⟩ := hwritten.normalizeUrl
  rw [hwritten.parts, hnormal.parts]
  exact ⟨rfl, rfl⟩

theorem normalizeUrl_normalizeUrl (h : isUrl url = true) :
    normalizeUrl (normalizeUrl url) = normalizeUrl url :=
  (isNormal_normalizeUrl h).normalizeUrl

theorem normalizeUrl_eq_self_iff (h : isUrl url = true) :
    normalizeUrl url = url ↔ IsNormal url :=
  ⟨fun hself => hself ▸ isNormal_normalizeUrl h, IsNormal.normalizeUrl⟩

def climbing (url : String) (n : Nat) : String :=
  UrlParts.text { urlParts url with
    segments := List.replicate n "..".toList ++ (urlParts url).segments }

theorem normalizeUrl_climbing (h : isUrl url = true) (n : Nat) :
    normalizeUrl (climbing url n) = normalizeUrl url := by
  obtain ⟨scheme, host, tail, hwritten⟩ := isUrl_iff_isWritten.mp h
  let segments := Text.pieces (· == '/') (tail.drop 1)
  let climbed := List.replicate n "..".toList ++ segments
  have hclimbed : IsWritten (climbing url n) scheme host ('/' :: Text.join ['/'] climbed) := by
    refine ⟨?_, hwritten.scheme, hwritten.host, by simp⟩
    rw [climbing, hwritten.parts, UrlParts.text, String.toList_ofList]
  have hsegments : Text.pieces (· == '/') (Text.join ['/'] climbed) = climbed := by
    refine Text.pieces_join ?_ fun segment hsegment => ?_
    · exact List.append_ne_nil_of_right_ne_nil _ (Text.pieces_ne_nil _ _)
    · rcases List.mem_append.mp hsegment with hsegment | hsegment
      · rw [List.eq_of_mem_replicate hsegment]
        decide
      · exact Text.not_mem_of_mem_pieces hsegment
  rw [normalizeUrl_eq, normalizeUrl_eq, hclimbed.parts, hwritten.parts, List.drop_one,
    List.tail_cons, hsegments, normalizeSegments_replicate_append]

/-! ### Below a directory and next to a document -/

theorem IsWritten.below (h : IsWritten url scheme host tail) (name : String) :
    IsWritten (url ++ "/" ++ name) scheme host (tail ++ '/' :: name.toList) := by
  refine ⟨by simp [h.text], h.scheme, h.host, fun c hc => ?_⟩
  cases tail with
  | nil => simpa using hc.symm
  | cons first rest => exact h.tail c hc

/-- A directory with a host keeps it when the slashes at its end are left out. -/
theorem IsWritten.trimmed (h : IsWritten url scheme host tail) (hhost : host ≠ []) :
    ∃ rest, IsWritten (String.ofList (url.toList.reverse.dropWhile (· == '/')).reverse)
      scheme host rest := by
  have hkept : (scheme ++ "://".toList ++ host).rdropWhile (· == '/') =
      scheme ++ "://".toList ++ host := by
    refine List.rdropWhile_eq_self_iff.mpr fun hne hlast => h.host ?_
    rw [List.getLast_append_of_ne_nil _ hhost, beq_iff_eq] at hlast
    exact hlast ▸ List.getLast_mem hhost
  refine ⟨tail.rdropWhile (· == '/'), ?_, h.scheme, h.host, fun c hc => ?_⟩
  · rw [String.toList_ofList, h.text]
    exact Text.rdropWhile_append hkept tail
  · obtain ⟨dropped, hdropped⟩ := List.rdropWhile_prefix (· == '/') tail
    refine h.tail c ?_
    rw [← hdropped, List.head?_append, hc]
    rfl

theorem IsWritten.parent {path : List Char} (h : IsWritten url scheme host ('/' :: path)) :
    ∃ rest, IsWritten (String.ofList
      (((Text.cutLast ['/'] url.toList).map Prod.fst).getD url.toList)) scheme host rest := by
  obtain ⟨rest, after, hcut, hrest⟩ :=
    Text.exists_cutLast (scheme ++ "://".toList ++ host) path '/'
  refine ⟨rest, ?_, h.scheme, h.host, hrest⟩
  rw [h.text, hcut]
  simp

theorem IsWritten.keyOf?_below (h : IsWritten url scheme host tail) (catalog : Catalog)
    (name : String) :
    let location := Location.normalizeUrl (url ++ "/" ++ name)
    catalog.keyOf? location = some location ∧ (urlParts location).host = host := by
  have hbelow := h.below name
  obtain ⟨path, hnormal, -⟩ := hbelow.normalizeUrl
  refine ⟨?_, by rw [hnormal.parts]⟩
  rw [Catalog.keyOf?, if_pos hnormal.isUrl, normalizeUrl_normalizeUrl hbelow.isUrl]

/-- Normalizing is a projection of the web URLs onto the normal ones: it keeps the scheme and the
host, its results are the URLs that it leaves as they are, and double dots at the start of the path
are idle, however many there are. What a relative name means below a URL with a host, or next to a
normal URL, is a location with the same host that is its own key. -/
theorem normalizeUrl_projection :
    (∀ url, isUrl url = true →
      (urlParts (normalizeUrl url)).scheme = (urlParts url).scheme ∧
      (urlParts (normalizeUrl url)).host = (urlParts url).host ∧
      IsNormal (normalizeUrl url) ∧ normalizeUrl (normalizeUrl url) = normalizeUrl url ∧
      (normalizeUrl url = url ↔ IsNormal url) ∧
      ∀ n, normalizeUrl (climbing url n) = normalizeUrl url) ∧
    (∀ (catalog : Catalog) (directory name : String), isUrl directory = true →
      (urlParts directory).host ≠ [] → isUrl name = false → isAbsolute name = false →
      catalog.keyOf? (inDirectory directory name) = some (inDirectory directory name) ∧
      (urlParts (inDirectory directory name)).host = (urlParts directory).host) ∧
    ∀ (catalog : Catalog) (document name : String), isUrl document = true →
      normalizeUrl document = document → isUrl name = false → isAbsolute name = false →
      catalog.keyOf? (beside document name) = some (beside document name) ∧
      (urlParts (beside document name)).host = (urlParts document).host := by
  refine ⟨fun url hurl => ?_, fun catalog directory name hurl hhost hname habsolute => ?_,
    fun catalog document name hurl hnormal hname habsolute => ?_⟩
  · obtain ⟨hscheme, hhost⟩ := urlParts_normalizeUrl hurl
    exact ⟨hscheme, hhost, isNormal_normalizeUrl hurl, normalizeUrl_normalizeUrl hurl,
      normalizeUrl_eq_self_iff hurl, normalizeUrl_climbing hurl⟩
  · obtain ⟨scheme, host, tail, hwritten⟩ := isUrl_iff_isWritten.mp hurl
    rw [hwritten.parts] at hhost ⊢
    obtain ⟨rest, hbase⟩ := hwritten.trimmed hhost
    rw [inDirectory, if_neg (by simp [hname, habsolute]), if_pos hurl]
    exact hbase.keyOf?_below catalog name
  · obtain ⟨scheme, host, tail, hwritten⟩ := isUrl_iff_isWritten.mp hurl
    obtain ⟨path, hfull, -⟩ := hwritten.normalizeUrl
    obtain ⟨rest, hbase⟩ := (hnormal ▸ hfull).parent
    rw [hwritten.parts, beside, if_neg (by simp [hname, habsolute]), if_pos hurl]
    exact hbase.keyOf?_below catalog name

/-- Double dots lead up to the host and not above it. -/
theorem normalizeUrl_projection_climbing :
    let catalog := Catalog.new ⟨[], []⟩ ["http://h/x/"] []
    isUrl "https://h/a/../../b/." = true ∧
      normalizeUrl "https://h/a/../../b/." = "https://h/b" ∧ IsNormal "https://h/b" ∧
      inDirectory "http://h/x/" "../../a" = "http://h/a" ∧
      catalog.keyOf? "http://h/a" = some "http://h/a" ∧
      normalizeUrl "http://h/a" = "http://h/a" ∧ beside "http://h/a" "../b" = "http://h/b" ∧
      catalog.keyOf? "http://h/b" = some "http://h/b" := by
  intro catalog
  obtain ⟨hnormal, hdirectory, hdocument⟩ := normalizeUrl_projection
  have hurl : isUrl "https://h/a/../../b/." = true := by decide +kernel
  have hresult : normalizeUrl "https://h/a/../../b/." = "https://h/b" := by decide +kernel
  obtain ⟨-, -, hplain, -⟩ := hnormal _ hurl
  have hbelow : inDirectory "http://h/x/" "../../a" = "http://h/a" := by decide +kernel
  obtain ⟨hkey, -⟩ := hdirectory catalog "http://h/x/" "../../a" (by decide +kernel)
    (by decide +kernel) (by decide +kernel) (by decide +kernel)
  have hself : normalizeUrl "http://h/a" = "http://h/a" := by decide +kernel
  have hnext : beside "http://h/a" "../b" = "http://h/b" := by decide +kernel
  obtain ⟨hother, -⟩ := hdocument catalog "http://h/a" "../b" (by decide +kernel) hself
    (by decide +kernel) (by decide +kernel)
  rw [hresult] at hplain
  rw [hbelow] at hkey
  rw [hnext] at hother
  exact ⟨hurl, hresult, hplain, hbelow, hkey, hself, hnext, hother⟩

end Location

end SchemaClasses
