import SchemaClasses.Proofs.Drafting.Optionality
import SchemaClasses.Text.Digits

/-!
# Telling literals apart

A default is written as a literal unless there is `null` or an object in it. Its first character
tells what kind of value it is. A string in it ends where the reader of JSON strings ends, an
integer where no numeral goes on, and a list where its items do, so two values with one literal are
one value, whatever characters their strings hold and however their lists are nested.
-/

namespace SchemaClasses.Json

variable {json other : Json} {text same : String} {rest more : List Char}

/-! ### Strings -/

/-- How a character of a text is read from a written string: control characters without a letter of
their own are written as units. -/
def glyph (c : Char) : Glyph :=
  if c.toNat < 0x20 ∧ c ∉ ['\x08', '\x0c', '\n', '\r', '\t'] then .unit c.toNat else .char c

theorem glyph_injective : Function.Injective glyph := by
  intro c d h
  unfold glyph at h
  split at h <;> split at h
  · exact Char.toNat_inj.mp (Glyph.unit.inj h)
  · cases h
  · cases h
  · exact Glyph.char.inj h

theorem hexValue?_hexDigit {n : Nat} (h : n < 16) : Token.hexValue? (hexDigit n) = some n := by
  have hall : ∀ n < 16, Token.hexValue? (hexDigit n) = some n := by decide
  exact hall n h

theorem unit?_hexDigit {n : Nat} (h : n < 0x20) :
    Token.unit? '0' '0' (hexDigit (n / 16)) (hexDigit (n % 16)) = some (.unit n) := by
  have hzero : Token.hexValue? '0' = some 0 := rfl
  rw [Token.unit?, hzero, hexValue?_hexDigit (by omega), hexValue?_hexDigit (by omega)]
  simp only [Option.bind_eq_bind, Option.bind_some, Option.pure_def, Option.some.injEq,
    Glyph.unit.injEq]
  omega

/-- An escaped character is read as one glyph. -/
theorem scanString_escape (c : Char) (rest : List Char) :
    Token.scanString (escape c ++ rest) =
      (Token.scanString rest).map fun parts => (glyph c :: parts.1, parts.2) := by
  have hread (first : Glyph) :
      ((Token.scanString rest).bind fun parts => some (first :: parts.1, parts.2)) =
        (Token.scanString rest).map fun parts => (first :: parts.1, parts.2) := by
    cases Token.scanString rest <;> rfl
  by_cases hletter : c ∈ ['"', '\\', '\x08', '\x0c', '\n', '\r', '\t']
  · simp only [List.mem_cons, List.not_mem_nil, or_false] at hletter
    rcases hletter with rfl | rfl | rfl | rfl | rfl | rfl | rfl <;> exact hread _
  · simp only [List.mem_cons, List.not_mem_nil, or_false, not_or] at hletter
    obtain ⟨hquote, hslash, hback, hform, hline, hreturn, htab⟩ := hletter
    have hglyph : glyph c = if c.toNat < 0x20 then .unit c.toNat else .char c := by
      simp [glyph, hback, hform, hline, hreturn, htab]
    rw [hglyph, escape, if_neg hquote, if_neg hslash, if_neg hback, if_neg hform, if_neg hline,
      if_neg hreturn, if_neg htab]
    split
    · rename_i hcontrol
      simp only [List.cons_append, List.nil_append, Token.scanString, unit?_hexDigit hcontrol]
      exact hread _
    · rename_i hplain
      rw [List.singleton_append, Token.scanString, if_neg hplain]
      · exact hread _
      · exact hquote
      · exact fun _ _ _ _ _ hc => absurd hc hslash
      · exact fun _ _ hc => absurd hc hslash

theorem scanString_flatMap_escape (cs rest : List Char) :
    Token.scanString (cs.flatMap escape ++ '"' :: rest) = some (cs.map glyph, rest) := by
  induction cs with
  | nil => simp [Token.scanString]
  | cons c cs ih =>
    rw [List.flatMap_cons, List.append_assoc, scanString_escape, ih]
    rfl

/-- A quoted text tells the text and what comes after it. -/
theorem quote_append_inj {text other : String}
    (h : (quote text).toList ++ rest = (quote other).toList ++ more) :
    text = other ∧ rest = more := by
  have hquote (text : String) (rest : List Char) :
      (quote text).toList ++ rest = '"' :: (text.toList.flatMap escape ++ '"' :: rest) := by
    simp [quote]
  rw [hquote, hquote, List.cons.injEq] at h
  have hread := congrArg Token.scanString h.2
  rw [scanString_flatMap_escape, scanString_flatMap_escape, Option.some.injEq] at hread
  obtain ⟨hchars, hrest⟩ := Prod.mk.inj hread
  exact ⟨String.toList_injective (glyph_injective.list_map hchars), hrest⟩

/-! ### Integers -/

/-- A numeral does not go on with a text. -/
def EndsNumeral (rest : List Char) : Prop := ∀ c ∈ rest.head?, Token.isNumeralChar c = false

theorem isNumeralChar_of_mem_repr {value : Int} {c : Char} (h : c ∈ value.repr.toList) :
    Token.isNumeralChar c = true := by
  have hnat {n : Nat} (h : c ∈ n.repr.toList) : Token.isNumeralChar c = true := by
    simp [Token.isNumeralChar, Text.isDigit_of_mem_repr h]
  rw [Int.repr_eq_if] at h
  split at h
  · exact hnat h
  · rw [String.toList_append, List.mem_append] at h
    rcases h with h | h
    · obtain rfl := List.mem_singleton.mp h
      rfl
    · exact hnat h

theorem takeWhile_repr (value : Int) (h : EndsNumeral rest) :
    (value.repr.toList ++ rest).takeWhile Token.isNumeralChar = value.repr.toList := by
  rw [List.takeWhile_append_of_pos fun c => isNumeralChar_of_mem_repr]
  cases rest with
  | nil => simp
  | cons c rest => simp [h c rfl]

/-- An integer tells itself and what comes after it, as long as that is no part of a numeral. -/
theorem repr_append_inj {value other : Int} (hrest : EndsNumeral rest) (hmore : EndsNumeral more)
    (h : value.repr.toList ++ rest = other.repr.toList ++ more) :
    value = other ∧ rest = more := by
  have hrepr : value.repr.toList = other.repr.toList := by
    rw [← takeWhile_repr value hrest, h, takeWhile_repr other hmore]
  rw [hrepr] at h
  exact ⟨Text.signed_repr_injective (String.toList_injective hrepr), List.append_cancel_left h⟩

/-- The numbers in a value are integers. -/
def IsIntegral (json : Json) : Prop := ∀ value, ¬(num (.float value)).Occurs json

theorem IsIntegral.item {items : List Json} (h : (arr items).IsIntegral) {item : Json}
    (hitem : item ∈ items) : item.IsIntegral :=
  fun value hoccurs => h value (.item hitem hoccurs)

theorem isIntegral_arr_iff {items : List Json} :
    (arr items).IsIntegral ↔ ∀ item ∈ items, item.IsIntegral := by
  refine ⟨fun h item => h.item, fun h value hoccurs => ?_⟩
  cases hoccurs with
  | item hitem hoccurs => exact h _ hitem value hoccurs

theorem isIntegral_str (text : String) : (str text).IsIntegral := nofun

theorem isIntegral_int (n : Int) : (num (.int n)).IsIntegral := nofun

theorem IsIntegral.num_inv {value : Number} (h : (num value).IsIntegral) :
    ∃ n, value = .int n := by
  cases value with
  | int n => exact ⟨n, rfl⟩
  | float value => exact absurd .self (h value)

/-! ### Kinds -/

/-- What the first character of a literal tells. -/
inductive LiteralKind where
  | bool (value : Bool)
  | numeral
  | string
  | list
  deriving DecidableEq

def LiteralKind.ofStart? (c : Char) : Option LiteralKind :=
  if c = 't' then some (.bool true)
  else if c = 'f' then some (.bool false)
  else if c = '"' then some .string
  else if c = '\x7b' then some .list
  else if Token.isNumeralChar c then some .numeral
  else none

def literalKind? : Json → Option LiteralKind
  | .null => none
  | .bool value => some (.bool value)
  | .num _ => some .numeral
  | .str _ => some .string
  | .arr _ => some .list
  | .obj _ => none

theorem exists_start (h : json.literal? = some text) (integral : json.IsIntegral) :
    ∃ c cs, text.toList = c :: cs ∧ LiteralKind.ofStart? c = json.literalKind? ∧
      json.literalKind?.isSome := by
  cases json with
  | null | obj => cases h
  | bool value =>
    obtain rfl := Option.some.inj h
    cases value with
    | false => exact ⟨'f', "alse".toList, rfl, rfl, rfl⟩
    | true => exact ⟨'t', "rue".toList, rfl, rfl, rfl⟩
  | str value =>
    obtain rfl := Option.some.inj h
    exact ⟨'"', value.toList.flatMap escape ++ ['"'], by simp [compact, quote], rfl, rfl⟩
  | arr items =>
    obtain ⟨parts, -, rfl⟩ := Option.map_eq_some_iff.mp h
    exact ⟨'\x7b', (", ".intercalate parts ++ "\x7d").toList, by simp, rfl, rfl⟩
  | num value =>
    obtain ⟨n, rfl⟩ := integral.num_inv
    obtain rfl := Option.some.inj h
    have hne : n.repr.toList ≠ [] := by
      rw [Int.repr_eq_if]
      split <;> simp [Nat.toDigits_ne_nil]
    obtain ⟨c, cs, hcs⟩ := List.exists_cons_of_ne_nil hne
    have hc : Token.isNumeralChar c = true := isNumeralChar_of_mem_repr (hcs ▸ List.mem_cons_self)
    have hother (d : Char) (hd : Token.isNumeralChar d = false) : c ≠ d := by
      rintro rfl
      cases hc.symm.trans hd
    refine ⟨c, cs, hcs, ?_, rfl⟩
    rw [LiteralKind.ofStart?, if_neg (hother 't' rfl), if_neg (hother 'f' rfl),
      if_neg (hother '"' rfl), if_neg (hother '\x7b' rfl), if_pos hc]
    rfl

theorem literalKind?_eq (hjson : json.literal? = some text) (hother : other.literal? = some same)
    (integral : json.IsIntegral) (integral' : other.IsIntegral)
    (h : text.toList ++ rest = same.toList ++ more) :
    json.literalKind? = other.literalKind? ∧ json.literalKind?.isSome := by
  obtain ⟨c, cs, hcs, hkind, hsome⟩ := exists_start hjson integral
  obtain ⟨d, ds, hds, hkind', -⟩ := exists_start hother integral'
  rw [hcs, hds, List.cons_append, List.cons_append, List.cons.injEq] at h
  exact ⟨by rw [← hkind, ← hkind', h.1], hsome⟩

theorem literal?_ne_close (h : json.literal? = some text) (integral : json.IsIntegral) :
    text.toList ++ rest ≠ '\x7d' :: more := by
  intro heq
  obtain ⟨c, cs, hcs, hkind, hsome⟩ := exists_start h integral
  rw [hcs, List.cons_append, List.cons.injEq] at heq
  rw [← hkind, heq.1] at hsome
  cases hsome

/-! ### Lists -/

theorem literals?_cons_inv {item : Json} {items : List Json} {parts : List String}
    (h : literals? (item :: items) = some parts) :
    ∃ part others, item.literal? = some part ∧ literals? items = some others ∧
      parts = part :: others := by
  rw [literals?] at h
  obtain ⟨part, hpart, h⟩ := Option.bind_eq_some_iff.mp h
  obtain ⟨others, hothers, h⟩ := Option.bind_eq_some_iff.mp h
  exact ⟨part, others, hpart, hothers, (Option.some.inj h).symm⟩

theorem literal?_arr_inv {items : List Json} (h : (arr items).literal? = some text) :
    ∃ parts, literals? items = some parts ∧ text.toList ++ rest =
      '\x7b' :: ((", ".intercalate parts).toList ++ '\x7d' :: rest) := by
  obtain ⟨parts, hparts, rfl⟩ := Option.map_eq_some_iff.mp h
  exact ⟨parts, hparts, by simp⟩

def afterItem (parts : List String) (rest : List Char) : List Char :=
  parts.flatMap (fun part => ", ".toList ++ part.toList) ++ '\x7d' :: rest

theorem afterItem_cons (part : String) (parts : List String) (rest : List Char) :
    afterItem (part :: parts) rest = ", ".toList ++ (part.toList ++ afterItem parts rest) := by
  simp [afterItem]

theorem afterItem_endsNumeral (parts : List String) (rest : List Char) :
    EndsNumeral (afterItem parts rest) := by
  cases parts with
  | nil => simp [afterItem, EndsNumeral, Token.isNumeralChar]
  | cons part parts => simp [afterItem_cons, EndsNumeral, Token.isNumeralChar]

theorem toList_intercalate_cons (part : String) (parts : List String) (rest : List Char) :
    (", ".intercalate (part :: parts)).toList ++ '\x7d' :: rest =
      part.toList ++ afterItem parts rest := by
  induction parts generalizing part with
  | nil => simp [afterItem]
  | cons next parts ih =>
    rw [afterItem_cons, ← ih next]
    simp [String.toList_intercalate]

mutual

/-- A literal tells its value and what comes after it. The text after it must be no part of a
numeral, because only strings and lists have an end of their own. -/
theorem literal?_append_inj (json other : Json) {text same : String} {rest more : List Char}
    (hjson : json.literal? = some text) (hother : other.literal? = some same)
    (integral : json.IsIntegral) (integral' : other.IsIntegral) (hrest : EndsNumeral rest)
    (hmore : EndsNumeral more) (h : text.toList ++ rest = same.toList ++ more) :
    json = other ∧ rest = more := by
  obtain ⟨hkind, hsome⟩ := literalKind?_eq hjson hother integral integral' h
  match json, other with
  | .bool value, .bool _ =>
    cases hkind
    obtain rfl := Option.some.inj (hjson.symm.trans hother)
    exact ⟨rfl, List.append_cancel_left h⟩
  | .num value, .num _ =>
    obtain ⟨m, rfl⟩ := integral.num_inv
    obtain ⟨n, rfl⟩ := integral'.num_inv
    obtain rfl := Option.some.inj hjson
    obtain rfl := Option.some.inj hother
    obtain ⟨rfl, hafter⟩ := repr_append_inj hrest hmore h
    exact ⟨rfl, hafter⟩
  | .str value, .str _ =>
    obtain rfl := Option.some.inj hjson
    obtain rfl := Option.some.inj hother
    obtain ⟨rfl, hafter⟩ := quote_append_inj h
    exact ⟨rfl, hafter⟩
  | .arr items, .arr others =>
    obtain ⟨parts, hparts, htext⟩ := literal?_arr_inv hjson
    obtain ⟨sames, hsames, hsame⟩ := literal?_arr_inv hother
    rw [htext, hsame, List.cons.injEq] at h
    match items, others with
    | [], [] =>
      cases hparts
      cases hsames
      exact ⟨rfl, (List.cons.inj h.2).2⟩
    | [], other :: others =>
      cases hparts
      obtain ⟨part, parts, hpart, -, rfl⟩ := literals?_cons_inv hsames
      rw [toList_intercalate_cons] at h
      exact absurd h.2.symm (literal?_ne_close hpart (integral'.item List.mem_cons_self))
    | item :: items, [] =>
      cases hsames
      obtain ⟨part, parts, hpart, -, rfl⟩ := literals?_cons_inv hparts
      rw [toList_intercalate_cons] at h
      exact absurd h.2 (literal?_ne_close hpart (integral.item List.mem_cons_self))
    | item :: items, other :: others =>
      obtain ⟨part, tail, -, -, rfl⟩ := literals?_cons_inv hparts
      obtain ⟨same, tail, -, -, rfl⟩ := literals?_cons_inv hsames
      rw [toList_intercalate_cons, toList_intercalate_cons] at h
      have hlists := literals?_append_inj (item :: items) (other :: others) hparts hsames
        (fun _ => integral.item) (fun _ => integral'.item)
        (by rw [afterItem_cons, afterItem_cons, h.2])
      exact ⟨congrArg arr hlists.1, hlists.2⟩
termination_by sizeOf json

/-- The items that are left of a list tell themselves and what comes after the list. -/
theorem literals?_append_inj (items others : List Json) {parts sames : List String}
    {rest more : List Char} (hitems : literals? items = some parts)
    (hothers : literals? others = some sames) (integral : ∀ item ∈ items, item.IsIntegral)
    (integral' : ∀ item ∈ others, item.IsIntegral)
    (h : afterItem parts rest = afterItem sames more) : items = others ∧ rest = more := by
  match items, others with
  | [], [] =>
    cases hitems
    cases hothers
    exact ⟨rfl, (List.cons.inj h).2⟩
  | [], other :: others =>
    cases hitems
    obtain ⟨same, sames, -, -, rfl⟩ := literals?_cons_inv hothers
    rw [afterItem_cons] at h
    cases h
  | item :: items, [] =>
    cases hothers
    obtain ⟨part, parts, -, -, rfl⟩ := literals?_cons_inv hitems
    rw [afterItem_cons] at h
    cases h
  | item :: items, other :: others =>
    obtain ⟨part, parts, hpart, hparts, rfl⟩ := literals?_cons_inv hitems
    obtain ⟨same, sames, hsame, hsames, rfl⟩ := literals?_cons_inv hothers
    rw [afterItem_cons, afterItem_cons] at h
    obtain ⟨rfl, hafter⟩ := literal?_append_inj item other hpart hsame
      (integral _ List.mem_cons_self) (integral' _ List.mem_cons_self)
      (afterItem_endsNumeral parts rest) (afterItem_endsNumeral sames more)
      (List.append_cancel_left h)
    obtain ⟨rfl, hend⟩ := literals?_append_inj items others hparts hsames
      (fun item hitem => integral item (List.mem_cons_of_mem _ hitem))
      (fun item hitem => integral' item (List.mem_cons_of_mem _ hitem)) hafter
    exact ⟨rfl, hend⟩
termination_by sizeOf items

end

/-- A value whose numbers are integers has a literal exactly when there is no `null` and no object
in it, and no other such value has that literal. -/
theorem literal?_faithful (json : Json) (integral : json.IsIntegral) :
    (json.literal?.isSome ↔ json.IsLiteral) ∧
      ∀ (other : Json) (text : String), other.IsIntegral → json.literal? = some text →
        other.literal? = some text → other = json := by
  refine ⟨literal?_isSome_iff, fun other text integral' hjson hother => ?_⟩
  have hend : EndsNumeral [] := by simp [EndsNumeral]
  exact (literal?_append_inj other json hother hjson integral' integral hend hend rfl).1

/-- A comma inside a string does not make a literal that of a longer list. -/
theorem literal?_faithful_comma :
    let json := arr [.str "a, b", .num (.int 1), .arr []]
    let other := arr [.str "a", .str "b", .num (.int 1), .arr []]
    json.IsIntegral ∧ other.IsIntegral ∧
      json.literal? = some "\x7b\"a, b\", 1, \x7b\x7d\x7d" ∧ json.IsLiteral ∧
      other.literal? ≠ some "\x7b\"a, b\", 1, \x7b\x7d\x7d" := by
  intro json other
  have integral : json.IsIntegral := by
    simp [json, isIntegral_arr_iff, isIntegral_str, isIntegral_int]
  have integral' : other.IsIntegral := by
    simp [other, isIntegral_arr_iff, isIntegral_str, isIntegral_int]
  have hjson : json.literal? = some "\x7b\"a, b\", 1, \x7b\x7d\x7d" := by decide +kernel
  obtain ⟨hliteral, hunique⟩ := literal?_faithful json integral
  refine ⟨integral, integral', hjson, hliteral.mp (hjson ▸ rfl), fun hother => ?_⟩
  have heq : other = json := hunique other _ integral' hjson hother
  simp [json, other] at heq

end SchemaClasses.Json
