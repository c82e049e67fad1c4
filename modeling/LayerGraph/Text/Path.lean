import LayerGraph.Text.Blank

/-!
# Paths

A path is read as components between slashes. Empty components and single dots mean
nothing, except a dot at the very front, so the last component that means something is
what a path names, and its parent is the text before it. Two dots and the root name no
file.

The *stem* of a file name ends before its last dot, unless that is its first character.
-/

namespace LayerGraph

namespace Path

/-- Whether a component means nothing. -/
def isIdle (p : List Char) : Bool := p = [] || p = ['.']

/-- The characters that are no component: the root, or a dot that starts a relative
path. -/
def head : List Char → List Char
  | '/' :: _ => ['/']
  | ['.'] | '.' :: '/' :: _ => ['.']
  | _ => []

/-- The list without the idle components at its end. -/
def trimIdle (ps : List (List Char)) : List (List Char) :=
  (ps.reverse.dropWhile isIdle).reverse

/-- The components after the head, as far as the last that means something. -/
def body (cs : List Char) : List (List Char) := trimIdle (pieces '/' (cs.drop (head cs).length))

def joinPieces (ps : List (List Char)) : List Char := List.intercalate ['/'] ps

/-- The name of the file. -/
def fileName? (path : String) : Option (List Char) :=
  (body path.toList).getLast?.filter fun p => p ≠ ['.', '.']

/-- The path without its last component. -/
def parent? (path : String) : Option String :=
  let cs := path.toList
  match body cs with
  | [] => if head cs = ['.'] then some "" else none
  | ps => some (String.ofList (head cs ++ joinPieces (trimIdle ps.dropLast)))

/-- A file name cut at its last dot, if that is neither missing nor its first
character. -/
def cutAtDot? (name : List Char) : Option (List Char × List Char) :=
  match name.reverse.dropWhile (· ≠ '.') with
  | [] | [_] => none
  | _ :: before => some (before.reverse, (name.reverse.takeWhile (· ≠ '.')).reverse)

def stem? (path : String) : Option (List Char) :=
  (fileName? path).map fun name =>
    match cutAtDot? name with
    | some (before, _) => before
    | none => name

def extension? (path : String) : Option (List Char) :=
  ((fileName? path).bind cutAtDot?).map Prod.snd

/-- A name inside a directory. -/
def join (dir name : String) : String :=
  if dir.isEmpty || dir.toList.getLast? = some '/' then dir ++ name else dir ++ "/" ++ name

end Path

end LayerGraph
