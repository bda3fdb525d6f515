import SchemaClasses.Json.Basic
import SchemaClasses.Text.Cut

/-!
# JSON pointers

A pointer is empty, or it is a sequence of tokens with a slash before each. A token names a field of
an object or, in decimal without a sign or a leading zero, an item of an array.
-/

namespace SchemaClasses.Json

/-- The token that a written token stands for: `~1` is a slash and `~0` a tilde. -/
def unescapeToken : List Char → List Char
  | '~' :: '1' :: rest => '/' :: unescapeToken rest
  | '~' :: '0' :: rest => '~' :: unescapeToken rest
  | c :: rest => c :: unescapeToken rest
  | [] => []

/-- The index that a token spells. -/
def index? (token : List Char) : Option Nat :=
  if token.isEmpty || !token.all Char.isDigit then none
  else if token.head? = some '0' && token.length ≠ 1 then none
  else some (token.foldl (fun n c => n * 10 + (c.toNat - 48)) 0)

/-- The value one token further in. -/
def child? (value : Json) (token : List Char) : Option Json :=
  match value with
  | .obj fields => Ordered.get? fields (String.ofList token)
  | .arr items => (index? token).bind (items[·]?)
  | _ => none

/-- The tokens of a pointer; `none` when it is not empty and does not start with a slash. -/
def pointerTokens? (pointer : String) : Option (List (List Char)) :=
  match pointer.toList with
  | [] => some []
  | '/' :: rest => some ((Text.pieces (· == '/') rest).map unescapeToken)
  | _ => none

def pointer? (value : Json) (pointer : String) : Option Json := do
  (← pointerTokens? pointer).foldlM child? value

end SchemaClasses.Json
