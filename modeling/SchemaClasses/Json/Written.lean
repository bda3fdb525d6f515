import SchemaClasses.Json.Token

/-!
# JSON as it is written

A `Written` value has the shape of the text and nothing more: numerals and glyphs are not read yet,
and an object may repeat a key. A reader that skips a part of a text looks no further than this.

Tokens are read one at a time by `Reading.step`, a machine whose stack holds the arrays and objects
that are still open, so text of any depth can be read.
-/

namespace SchemaClasses.Json

inductive Written where
  | null
  | bool (value : Bool)
  | num (value : Numeral)
  | str (glyphs : List Glyph)
  | arr (items : List Written)
  | obj (fields : List (List Glyph × Written))

/-- An array or object that is still open, with what it holds so far, the last first. An object
waits for the value of `key`. -/
inductive Frame where
  | arr (items : List Written)
  | obj (fields : List (List Glyph × Written)) (key : List Glyph)

/-- What may come next. -/
inductive Expected where
  | value
  /-- The first item of an array, or its end. -/
  | firstItem
  /-- The first key of an object, or its end. -/
  | firstKey
  /-- A further key of the object with these fields. -/
  | nextKey (fields : List (List Glyph × Written))
  | colon
  /-- Whatever may follow the value just read. -/
  | afterValue (value : Written)

structure Reading where
  expected : Expected
  opened : List Frame

namespace Reading

def start : Reading := ⟨.value, []⟩

/-- Reads the first token of a value. -/
def startValue (opened : List Frame) : Token → Option Reading
  | .null => some ⟨.afterValue .null, opened⟩
  | .bool value => some ⟨.afterValue (.bool value), opened⟩
  | .num value => some ⟨.afterValue (.num value), opened⟩
  | .str glyphs => some ⟨.afterValue (.str glyphs), opened⟩
  | .openArray => some ⟨.firstItem, opened⟩
  | .openObject => some ⟨.firstKey, opened⟩
  | _ => none

/-- Reads the token after the value of an item, of a field, or of the whole text. -/
def endValue (value : Written) : List Frame → Token → Option Reading
  | .arr items :: opened, .comma => some ⟨.value, .arr (value :: items) :: opened⟩
  | .arr items :: opened, .closeArray =>
    some ⟨.afterValue (.arr (value :: items).reverse), opened⟩
  | .obj fields key :: opened, .comma => some ⟨.nextKey ((key, value) :: fields), opened⟩
  | .obj fields key :: opened, .closeObject =>
    some ⟨.afterValue (.obj ((key, value) :: fields).reverse), opened⟩
  | _, _ => none

/-- Reads one token; `none` when it cannot stand there. -/
def step (reading : Reading) (token : Token) : Option Reading :=
  match reading.expected, token with
  | .value, token => startValue reading.opened token
  | .firstItem, .closeArray => some ⟨.afterValue (.arr []), reading.opened⟩
  | .firstItem, token => startValue (.arr [] :: reading.opened) token
  | .firstKey, .closeObject => some ⟨.afterValue (.obj []), reading.opened⟩
  | .firstKey, .str key => some ⟨.colon, .obj [] key :: reading.opened⟩
  | .nextKey fields, .str key => some ⟨.colon, .obj fields key :: reading.opened⟩
  | .colon, .colon => some ⟨.value, reading.opened⟩
  | .afterValue value, token => endValue value reading.opened token
  | _, _ => none

def finish? : Reading → Option Written
  | ⟨.afterValue value, []⟩ => some value
  | _ => none

end Reading

def Written.ofTokens? (tokens : List Token) : Option Written := do
  let reading ← tokens.foldlM Reading.step Reading.start
  reading.finish?

def Written.read? (text : String) : Option Written := do
  Written.ofTokens? (← Token.scan text)

end SchemaClasses.Json
