import SchemaClasses.Document
import SchemaClasses.FileTree
import SchemaClasses.Json.Pointer
import SchemaClasses.Json.Reader
import SchemaClasses.Log

/-!
# The catalog of documents

The catalog finds the document that a reference means and keeps every document it has found, so a
document is read once and a key always means the same document. References are relative to the
document on top of the context, and after that to the search paths in order. The first location that
holds a schema settles a reference: if the fragment is missing there, no other location is tried.
What URLs give is a table that is there from the start, as the files are.

Documents come from files, from fragments of other documents, and from `insert`. Only those from
files are known by title.
-/

namespace SchemaClasses

/-- Two files of one title. -/
structure Collision where
  title : String
  /-- The key that had the title before. -/
  previous : String
  /-- The key that has it now. -/
  current : String
  deriving DecidableEq, Repr

structure Catalog where
  files : FileTree
  searchPaths : List String
  extensionPaths : List String
  /-- The texts that normalized URLs give. -/
  downloads : List (String × String)
  /-- The documents found so far, the last first. -/
  documents : List Document
  /-- The last file of each title. -/
  titles : List (String × Document)
  /-- The sources that references are relative to, the innermost first. -/
  context : List String
  collisions : List Collision
  log : List Message
  /-- The paths that led nowhere, the last first. -/
  missing : List String

namespace Catalog

def new (files : FileTree) (searchPaths extensionPaths : List String)
    (downloads : List (String × String) := []) : Catalog where
  files := files
  searchPaths := searchPaths
  extensionPaths := extensionPaths
  downloads := downloads
  documents := []
  titles := []
  context := []
  collisions := []
  log := []
  missing := []

def tell (catalog : Catalog) (messages : List Message) : Catalog :=
  { catalog with log := catalog.log ++ messages }

def warn (catalog : Catalog) (warning : Warning) : Catalog := catalog.tell [.warning warning]

def warnings (catalog : Catalog) : List Warning := warningsOf catalog.log

def document? (catalog : Catalog) (key : String) : Option Document :=
  catalog.documents.find? fun document => document.key = key

def byTitle? (catalog : Catalog) (title : String) : Option Document :=
  Ordered.get? catalog.titles title

/-- What references are relative to. -/
def contextTop? (catalog : Catalog) : Option String := catalog.context.head?

def enter (catalog : Catalog) (document : Document) : Catalog :=
  { catalog with context := document.source :: catalog.context }

def leave (catalog : Catalog) : Catalog := { catalog with context := catalog.context.tail }

def add (catalog : Catalog) (document : Document) : Catalog :=
  { catalog with documents := document :: catalog.documents }

/-- The document known under a key, which becomes the given one if there is none. -/
def insert (catalog : Catalog) (document : Document) : Document × Catalog :=
  match catalog.document? document.key with
  | some known => (known, catalog)
  | none => (document, catalog.add document)

/-- Gives a title to the file that has just been read, and records from which file it takes it. -/
def giveTitle (catalog : Catalog) (document : Document) (title : String) : Catalog :=
  let taken :=
    match catalog.byTitle? title with
    | some previous =>
      if previous.key = document.key then catalog
      else
        { catalog.warn (.sharedTitle title previous.key document.key) with
          collisions := catalog.collisions ++ [Collision.mk title previous.key document.key] }
    | none => catalog
  { taken with titles := Ordered.put taken.titles title document }

def addFile (catalog : Catalog) (document : Document) : Catalog :=
  match document.title? with
  | some title => (catalog.add document).giveTitle document title
  | none => catalog.add document

/-- The key of the document at a location: the normalized URL, or the canonical path of what is
there. -/
def keyOf? (catalog : Catalog) (location : String) : Option String :=
  if Location.isUrl location then some (Location.normalizeUrl location)
  else catalog.files.canonical? location

def readText? (catalog : Catalog) (key : String) : Option String :=
  if Location.isUrl key then Ordered.get? catalog.downloads key else catalog.files.readText? key

def readBody? (catalog : Catalog) (key : String) : Option Json :=
  (catalog.readText? key).bind Json.read?

def loadLocation (catalog : Catalog) (location : String) : Option Document × Catalog :=
  match catalog.keyOf? location with
  | none => (none, { catalog with missing := location :: catalog.missing })
  | some key =>
    match catalog.document? key with
    | some document => (some document, catalog)
    | none =>
      match catalog.readBody? key with
      | none => (none, catalog)
      | some body => (some ⟨key, key, body⟩, catalog.addFile ⟨key, key, body⟩)

/-- The document at the first location that has one. -/
def loadFirst (catalog : Catalog) : List String → Option Document × Catalog
  | [] => (none, catalog)
  | location :: rest =>
    match catalog.loadLocation location with
    | (some document, catalog) => (some document, catalog)
    | (none, catalog) => catalog.loadFirst rest

/-- The part of a document that a fragment selects; it is a document of its own. -/
def select (catalog : Catalog) (document : Document) (fragment : String) :
    Option Document × Catalog :=
  if fragment = "" ∨ fragment = "/" then (some document, catalog)
  else
    let key := document.key ++ "#" ++ fragment
    match catalog.document? key with
    | some part => (some part, catalog)
    | none =>
      match document.body.pointer? fragment with
      | none => (none, catalog.warn (.noFragment fragment document.key))
      | some body =>
        let part : Document := ⟨key, document.source, body⟩
        (some part, catalog.add part)

/-- The document that a reference means, if it is at one of the given locations. -/
def loadFrom (catalog : Catalog) (reference : String) (locations : List String)
    (fragment : String) : Option Document × Catalog :=
  match catalog.loadFirst locations with
  | (some document, catalog) => catalog.select document fragment
  | (none, catalog) => (none, catalog.warn (.notLoaded reference locations))

def locations (catalog : Catalog) (file : String) : List String :=
  (catalog.contextTop?.map (Location.beside · file)).toList ++
    catalog.searchPaths.map (Location.inDirectory · file)

/-- The document that a reference means. A reference without a file name means the document on top
of the context. -/
def load (catalog : Catalog) (reference : String) : Option Document × Catalog :=
  let (file, fragment) := Location.splitReference reference
  if file = "" then
    match catalog.contextTop? with
    | some top => catalog.loadFrom reference [top] fragment
    | none => (none, catalog.warn (.noContext reference))
  else catalog.loadFrom reference (catalog.locations file) fragment

/-- The extension paths, those that contain the hint first. -/
def hintedPaths (catalog : Catalog) : Option String → List String
  | none => catalog.extensionPaths
  | some hint =>
    let fits (path : String) : Bool := Text.occurs hint.toList path.toList
    catalog.extensionPaths.filter fits ++ catalog.extensionPaths.filter fun path => !fits path

/-- The document of an extension, which is only looked for in the extension paths. -/
def loadExtension (catalog : Catalog) (reference : String) (hint : Option String) :
    Option Document × Catalog :=
  let (file, fragment) := Location.splitReference reference
  let locations := (catalog.hintedPaths hint).map (Location.inDirectory · file)
  catalog.loadFrom reference locations fragment

end Catalog

end SchemaClasses
