import SchemaClasses.Location
import SchemaClasses.Settings
import SchemaClasses.Text.Uppercase

/-!
# Names made from schemas

Type names come from titles or from locations, titles of classes without one from the place they are
declared at, member names from property names, and the identifiers of constants from their values.
-/

namespace SchemaClasses.Naming

def isWordChar (c : Char) : Bool := c.isAlphanum

def capitalized (name : String) : String := String.ofList (Text.capitalize name.toList)

/-- The type name that a title gives: the one set for it, or the title without anything but letters,
digits and underscores. -/
def ofTitle (settings : Settings) (title : String) : String :=
  match settings.overrideName? title with
  | some name => name
  | none => String.ofList (title.toList.filter fun c => isWordChar c || c = '_')

/-- The part of a location that names its schema: the last part of the fragment that is not empty,
or else the file name without its ending. -/
def locationStem (location : String) : List Char :=
  let (file, fragment) := Location.splitReference location
  match (Text.pieces (· == '/') fragment.toList).reverse.find? (!·.isEmpty) with
  | some part => part
  | none =>
    let name := (Text.pieces (fun c => c == '/' || c == '\\') file.toList).getLastD []
    match Text.dropEnding? ".schema.json".toList name with
    | some stem => stem
    | none => (Text.dropEnding? ".json".toList name).getD name

/-- The type name of a schema without a title: the capitalized words of its location. -/
def ofLocation (location : String) : String :=
  let words := Text.pieces (fun c => c == '.' || c == '-' || c == '_') (locationStem location)
  String.ofList ((words.flatMap Text.capitalize).filter isWordChar)

/-- The member that a path of properties starts with. -/
def baseProperty (path : String) : String :=
  match Text.cutFirst (· == '.') path.toList with
  | some (member, _) => String.ofList member
  | none => path

/-- The title of a class declared at a property. The property is not named again when the name of
the class around it ends with it. -/
def inlineTitle (parent path : String) : String :=
  let property := capitalized (baseProperty path)
  if property.toList.isSuffixOf parent.toList then parent ++ " Value"
  else parent ++ " " ++ property ++ " Value"

/-- The words that cannot name a member. -/
def reservedWords : List String :=
  ["alignas", "alignof", "and", "and_eq", "asm", "auto", "bitand", "bitor", "bool", "break",
   "case", "catch", "char", "char8_t", "char16_t", "char32_t", "class", "compl", "concept",
   "const", "consteval", "constexpr", "constinit", "const_cast", "continue", "co_await",
   "co_return", "co_yield", "decltype", "default", "delete", "do", "double", "dynamic_cast",
   "else", "enum", "explicit", "export", "extern", "false", "float", "for", "friend", "goto",
   "if", "inline", "int", "long", "mutable", "namespace", "new", "noexcept", "not", "not_eq",
   "nullptr", "operator", "or", "or_eq", "private", "protected", "public", "register",
   "reinterpret_cast", "requires", "return", "short", "signed", "sizeof", "static",
   "static_assert", "static_cast", "struct", "switch", "template", "this", "thread_local",
   "throw", "true", "try", "typedef", "typeid", "typename", "union", "unsigned", "using",
   "virtual", "void", "volatile", "wchar_t", "while", "xor", "xor_eq"]

def memberName (property : String) : String :=
  if property ∈ reservedWords then property ++ "Property" else property

/-- The identifier that a value or a description gives: everything but letters and digits becomes an
underscore, and one more stands before a digit at the start and for no text at all. -/
def identifier (text : String) : String :=
  let cs := text.toList.map fun c => if isWordChar c then c else '_'
  match cs with
  | [] => "_"
  | c :: _ => String.ofList (if c.isDigit then '_' :: cs else cs)

end SchemaClasses.Naming
