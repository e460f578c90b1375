import KeywordTree.Text.Bytes

/-! Files and folders as a value, and what reading and writing by path does to them. A path
leads from the working directory or, if it begins with a slash, from the root. -/
namespace KeywordTree

inductive FileError where
  | missing
  | isFolder
  | notFolder
  | tooLong
  | holdsNul
  | notText
  | other (text : String)
  deriving DecidableEq, Repr

def FileError.message : FileError → String
  | .missing => "No such file or directory (os error 2)"
  | .isFolder => "Is a directory (os error 21)"
  | .notFolder => "Not a directory (os error 20)"
  | .tooLong => "File name too long (os error 36)"
  | .holdsNul => "file name contained an unexpected NUL byte"
  | .notText => "stream did not contain valid UTF-8"
  | .other text => text

inductive Item where
  | file (content : Bytes)
  | folder
  deriving DecidableEq

/-- Items by path, names separated by slashes. The path of an item below the working
directory starts there; that of any other begins with a slash and starts at the root. -/
abbrev Directory := List (String × Item)

/-- The names from the root down. -/
abbrev Place := List String

/-- Where a name leads from a folder. Nothing is above the root. -/
def Place.child (place : Place) (name : String) : Place :=
  if name = "" ∨ name = "." then place
  else if name = ".." then place.dropLast
  else place ++ [name]

-- The limits of a name between two slashes and of a whole path, in bytes.
def longestName : Nat := 255
def longestPath : Nat := 4095

/-- Why a path is refused before anything is looked up. -/
def refusal? (path : String) : Option FileError :=
  if '\x00' ∈ path.toList then some .holdsNul
  else if path = "" then some .missing
  else if longestPath < path.utf8ByteSize then some .tooLong
  else none

namespace Directory

def pathOf (names : List String) : String := "/".intercalate names

/-- The path under which the item at a place is kept, for a working directory. -/
def pathFrom (home place : Place) : String :=
  if home.isPrefixOf place then pathOf (place.drop home.length) else "/" ++ pathOf place

/-- The paths of the working directory and of the folders above it, which are always there. -/
def standing (home : Place) : List String :=
  (List.range (home.length + 1)).map fun depth => pathFrom home (home.take depth)

/-- What is kept under a path. A path with items below it is a folder. -/
def itemAt? (directory : Directory) (home : Place) (path : String) : Option Item :=
  if path ∈ standing home then some .folder
  else
    match directory.lookup path with
    | some item => some item
    | none => if directory.any fun entry => (path ++ "/").isPrefixOf entry.1 then some .folder else none

def follow (directory : Directory) (home place : Place) : List String → Except FileError Place
  | [] => .ok place
  | name :: rest =>
    match directory.itemAt? home (pathFrom home place) with
    | none => .error .missing
    | some (.file _) => .error .notFolder
    | some .folder =>
      -- The length of a name matters only once its folder is found.
      if longestName < name.utf8ByteSize then .error .tooLong
      else directory.follow home (place.child name) rest

def namesOf (path : String) : List String := (path.toList.splitOnP (· == '/')).map String.ofList

def startOf (home : Place) (path : String) : Place := if path.toList.head? = some '/' then [] else home

def read (directory : Directory) (home : Place) (path : String) : Except FileError Bytes :=
  match refusal? path with
  | some error => .error error
  | none =>
    match directory.follow home (startOf home path) (namesOf path) with
    | .error error => .error error
    | .ok place =>
      match directory.itemAt? home (pathFrom home place) with
      | none => .error .missing
      | some .folder => .error .isFolder
      | some (.file content) => .ok content

def put (directory : Directory) (path : String) (content : Bytes) : Directory :=
  match directory with
  | [] => [(path, .file content)]
  | (name, item) :: rest =>
    if name = path then (name, .file content) :: rest else (name, item) :: put rest path content

def targetIn (directory : Directory) (home folder : Place) (name : String) (folderOnly : Bool) :
    Except FileError String :=
  -- A name that can only be that of a folder is refused before it is looked up.
  if folderOnly ∨ name = "." ∨ name = ".." then .error .isFolder
  else if longestName < name.utf8ByteSize then .error .tooLong
  else
    let path := pathFrom home (folder.child name)
    if directory.itemAt? home path = some .folder then .error .isFolder else .ok path

/-- The path of the file that writing to a path would create or replace. The folder around
it has to exist. -/
def target (directory : Directory) (home : Place) (path : String) : Except FileError String :=
  match refusal? path with
  | some error => .error error
  | none =>
    let names := (namesOf path).filter (· ≠ "")
    match names.getLast? with
    | none => .error .isFolder
    | some name =>
      match directory.follow home (startOf home path) names.dropLast with
      | .error error => .error error
      | .ok place =>
        match directory.itemAt? home (pathFrom home place) with
        | none => .error .missing
        | some (.file _) => .error .notFolder
        | some .folder => directory.targetIn home place name (path.toList.getLast? = some '/')

/-- Create a file or replace its content. A failure changes nothing. -/
def write (directory : Directory) (home : Place) (path : String) (content : Bytes) :
    Except FileError Directory :=
  (directory.target home path).map fun file => directory.put file content

end Directory

end KeywordTree
