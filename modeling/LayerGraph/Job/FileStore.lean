import LayerGraph.Text.Path
import LayerGraph.Text.Utf8

/-!
# File stores

The files a job can see: a tree of directories and files below the directory the job runs
in. A place in the tree is a list of names; a path is walked from the root, component by
component, and every component has to be taken in a directory. Nothing outside the tree
can be reached.
-/

namespace LayerGraph

/-- A place in a store, as the names that lead there. -/
abbrev Place := List (List Char)

inductive FileItem where
  | file (content : Bytes)
  | dir
  deriving DecidableEq

/-- Files and directories by place. The root is a directory without being listed. -/
structure FileStore where
  items : List (Place × FileItem) := []

namespace FileStore

/-- What is at a place. -/
def item? (s : FileStore) (place : Place) : Option FileItem :=
  if place = [] then some .dir
  else (s.items.find? fun p => p.1 = place).map Prod.snd

def isDir (s : FileStore) (place : Place) : Bool := s.item? place = some .dir

/-- Puts an item at a place. -/
def put (s : FileStore) (place : Place) (item : FileItem) : FileStore :=
  ⟨(s.items.filter fun p => p.1 ≠ place) ++ [(place, item)]⟩

def delete (s : FileStore) (place : Place) : FileStore :=
  ⟨s.items.filter fun p => p.1 ≠ place⟩

/-- A name that a directory can hold: at most 255 bytes. -/
def isName (name : List Char) : Bool := (String.ofList name).utf8ByteSize ≤ 255

/-- A path that can be walked at all: not empty, at most 4095 bytes, none of them zero, and
not from the root of another tree. -/
def isPath (path : String) : Bool :=
  !path.isEmpty && path.utf8ByteSize ≤ 4095 && !path.toList.contains '\x00' &&
    path.toList.head? != some '/'

/-! ### Walking a path -/

/-- One component taken at a place, whether or not there is anything. -/
def stepTo? (place : Place) (component : List Char) : Option Place :=
  if Path.isIdle component then some place
  else if component = ['.', '.'] then
    if place = [] then none else some place.dropLast
  else if isName component then some (place ++ [component])
  else none

/-- Walks some components; every one of them is taken in a directory. -/
def walk? (s : FileStore) : Place → List (List Char) → Option Place
  | place, [] => some place
  | place, c :: cs =>
    if s.isDir place then (stepTo? place c).bind fun place => s.walk? place cs else none

/-- The place of a path. -/
def place? (s : FileStore) (path : String) : Option Place :=
  if isPath path then s.walk? [] (pieces '/' path.toList) else none

/-- What is at a path. -/
def lookup? (s : FileStore) (path : String) : Option FileItem := (s.place? path).bind s.item?

/-! ### Files -/

/-- The content of a file. -/
def read? (s : FileStore) (path : String) : Option Bytes :=
  match s.lookup? path with
  | some (.file content) => some content
  | _ => none

/-- The content of a file that is valid text. -/
def readText? (s : FileStore) (path : String) : Option String := (s.read? path).bind Utf8.decode?

def isFile (s : FileStore) (path : String) : Bool := (s.read? path).isSome

/-- Writes a file, new or not. -/
def write? (s : FileStore) (path : String) (content : Bytes) : Option FileStore :=
  match s.place? path with
  | none => none
  | some place => if s.isDir place then none else some (s.put place (.file content))

/-- Removes a file, if there is one. -/
def remove? (s : FileStore) (path : String) : Option FileStore :=
  match s.place? path with
  | none => none
  | some place =>
    match s.item? place with
    | some (.file _) => some (s.delete place)
    | _ => none

/-! ### Directories -/

/-- Makes the directories along some components, and says whether all of them are there.
The directories made before a failure stay. -/
def makeAlong : FileStore → Place → List (List Char) → FileStore × Bool
  | s, _, [] => (s, true)
  | s, place, c :: cs =>
    match stepTo? place c with
    | none => (s, false)
    | some place =>
      match s.item? place with
      | some .dir => makeAlong s place cs
      | some (.file _) => (s, false)
      | none => makeAlong (s.put place .dir) place cs

/-- Makes a directory with all that lead to it. A path that ends in a dot means what is in
the directory before the dot: all that lead to that one are made, but it has to be there
already. -/
def makeDirs (s : FileStore) (path : String) : FileStore × Bool :=
  if path.isEmpty then (s, true)
  else if !isPath path then (s, false)
  else
    let components := pieces '/' path.toList
    let named := Path.trimIdle components
    if (components.drop named.length).contains ['.'] then
      let (s, made) := s.makeAlong [] named.dropLast
      (s, made && s.lookup? path = some .dir)
    else s.makeAlong [] named

end FileStore

end LayerGraph
