set_option autoImplicit false

/-! # Files and paths

Whoever loads settings has to know to which file a path leads, and nothing else about files.

One such knowledge is that of a file system without links. A file has a place there: the names of the
directories that lead to it from the root, then its own name. A path starts at the root if it begins with a
slash, or else at the working directory. It is followed part by part, and every part but the last has to lead
to a directory; so a path with a slash behind the name of a file leads nowhere. A step up from the root stays
there.
-/

namespace GrammarShapes.Settings

/-- A file: the name by which it is called in messages, and its text. -/
structure File where
  name : String
  text : String
deriving DecidableEq

/-- The file to which a path leads, if it leads to one. -/
abbrev FileLookup :=
  String → Option File

structure FileSystem where
  workingDirectory : List String
  /-- The place and the text of each file. -/
  entries : List (List String × String)

namespace FileSystem

def splitParts : List Char → List (List Char)
  | [] => [[]]
  | c :: rest =>
      if c = '/' then [] :: splitParts rest
      else
        match splitParts rest with
        | part :: parts => (c :: part) :: parts
        | [] => [[c]]

def isAbsolute (path : String) : Bool :=
  path.toList.head? == some '/'

def isIdle (part : String) : Bool :=
  part = "" || part = "."

/-- The parts to be followed from the root. -/
def parts (workingDirectory : List String) (path : String) : List String :=
  let parts := (splitParts path.toList).map String.ofList
  if isAbsolute path then parts else workingDirectory ++ parts

def steps (parts : List String) : List String :=
  parts.filter fun part => !isIdle part

/-- The file system with files at paths that never step up. -/
def ofList (workingDirectory : List String) (texts : List (String × String)) : FileSystem :=
  ⟨workingDirectory, texts.map fun e => (steps (parts workingDirectory e.1), e.2)⟩

/-- Whether the place is that of a directory. -/
def isDirectory (fs : FileSystem) (place : List String) : Bool :=
  place.isPrefixOf fs.workingDirectory || fs.entries.any fun e => place.isPrefixOf e.1 && place != e.1

/-- The place to which parts lead from a place. -/
def follow (fs : FileSystem) : List String → List String → Option (List String)
  | place, [] => some place
  | place, part :: rest =>
      if !fs.isDirectory place then none
      else if isIdle part then follow fs place rest
      else if part = ".." then follow fs place.dropLast rest
      else follow fs (place ++ [part]) rest

/-- How steps from the root are written from a directory: up as often as the directory has names that they do
not share, then down. -/
def relative : List String → List String → List String
  | [], steps => steps
  | base, [] => List.replicate base.length ".."
  | name :: base, step :: steps =>
      if step = name then relative base steps
      else List.replicate (base.length + 1) ".." ++ step :: steps

def read? (fs : FileSystem) (parts : List String) : Option File := do
  let text ← fs.entries.lookup (← fs.follow [] parts)
  some ⟨"/".intercalate (relative fs.workingDirectory (steps parts)), text⟩

/-- The parts of a path with `.toml` behind its last name. -/
def withEnding (parts : List String) : Option (List String) :=
  match parts.reverse.dropWhile isIdle with
  | [] => none
  | last :: before => if last = ".." then none else some (before.reverse ++ [last ++ ".toml"])

/-- A path that leads to no file is tried again with `.toml` behind its last name. -/
def find? (fs : FileSystem) : FileLookup := fun path =>
  let parts := parts fs.workingDirectory path
  (fs.read? parts).or ((withEnding parts).bind fs.read?)

end FileSystem

end GrammarShapes.Settings
