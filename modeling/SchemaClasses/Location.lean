import SchemaClasses.Text.Cut

/-!
# Locations of documents

A location is the path of a file or a URL. `Location.inDirectory` and `Location.beside` say which
location a name means inside a directory and next to a document. A name that is a URL or an absolute
path means itself. Joined URLs are normalized; joined paths are left as they are spelled.
-/

namespace SchemaClasses.Location

def isUrl (location : String) : Bool :=
  "http://".toList.isPrefixOf location.toList || "https://".toList.isPrefixOf location.toList

def isAbsolute (path : String) : Bool := path.toList.head? = some '/'

/-- The file part of a reference, and its fragment after the first `#`. -/
def splitReference (reference : String) : String × String :=
  match Text.cutFirst (· == '#') reference.toList with
  | some (file, fragment) => (String.ofList file, String.ofList fragment)
  | none => (reference, "")

def components (path : String) : List String :=
  (Text.pieces (· == '/') path.toList).map String.ofList

/-- Components without the empty ones and the dots at their end. A dot that starts a relative path
stays. -/
def trimEnd (absolute : Bool) (parts : List String) : List String :=
  let isIdle (part : String) : Bool := part = "" || part = "."
  match absolute, parts with
  | false, "." :: rest => "." :: (rest.reverse.dropWhile isIdle).reverse
  | _, parts => (parts.reverse.dropWhile isIdle).reverse

/-- The directory of a path: the path without its last component. -/
def parent? (path : String) : Option String :=
  let absolute := isAbsolute path
  let parts := trimEnd absolute ((components path).drop (if absolute then 1 else 0))
  if parts.isEmpty then none
  else
    let start := if absolute then "/" else ""
    some (start ++ "/".intercalate (trimEnd absolute parts.dropLast))

/-- A name inside a directory, with a slash between unless the directory ends in one or is empty. An
absolute name is not inside of anything. -/
def join (directory name : String) : String :=
  if isAbsolute name then name
  else if directory = "" ∨ directory.toList.getLast? = some '/' then directory ++ name
  else directory ++ "/" ++ name

/-- One segment of a path after those that are kept, the last first. -/
def keepSegment (kept : List (List Char)) (segment : List Char) : List (List Char) :=
  if segment = ".".toList then kept
  else if segment = "..".toList then kept.drop 1
  else segment :: kept

/-- The segments without dots; a double dot takes the segment before it away, and none above the
first. -/
def normalizeSegments (segments : List (List Char)) : List (List Char) :=
  (segments.foldl keepSegment []).reverse

/-- The text before and after the first `://`. -/
def cutScheme : List Char → Option (List Char × List Char)
  | [] => none
  | c :: rest =>
    if "://".toList.isPrefixOf (c :: rest) then some ([], rest.drop 2)
    else (cutScheme rest).map fun parts => (c :: parts.1, parts.2)

/-- A URL whose path has no dot segments. A URL without a path gets the empty one. -/
def normalizeUrl (url : String) : String :=
  let (scheme, rest) := (cutScheme url.toList).getD ([], url.toList)
  let (host, path) := (Text.cutFirst (· == '/') rest).getD (rest, [])
  let segments := normalizeSegments (Text.pieces (· == '/') path)
  String.ofList (scheme ++ "://".toList ++ host ++ '/' :: Text.join ['/'] segments)

/-- The location that a name means inside a directory or below a base URL. -/
def inDirectory (directory name : String) : String :=
  if isUrl name || isAbsolute name then name
  else if isUrl directory then
    let base := (directory.toList.reverse.dropWhile (· == '/')).reverse
    normalizeUrl (String.ofList base ++ "/" ++ name)
  else join directory name

/-- The location that a name means next to the document at a location. -/
def beside (document name : String) : String :=
  if isUrl name || isAbsolute name then name
  else if isUrl document then
    let base := ((Text.cutLast ['/'] document.toList).map Prod.fst).getD document.toList
    normalizeUrl (String.ofList base ++ "/" ++ name)
  else
    match parent? document with
    | some directory => join directory name
    | none => name

end SchemaClasses.Location
