import IgaArchive.Bytes

/-!
Paths as byte strings, handled by their text alone. Elements are separated by slashes; a path is
brought into clean form by dropping empty elements and `.`, and by folding an element followed by
`..`.
-/

namespace IgaArchive.Path

def isSlash (b : UInt8) : Bool :=
  b == Bytes.slash

def here : Bytes := [Bytes.dot]
def parent : Bytes := [Bytes.dot, Bytes.dot]

def isAbsolute (path : Bytes) : Bool :=
  path.head? == some Bytes.slash

def elements (path : Bytes) : List Bytes :=
  path.fields isSlash

/-- Takes one more element into a clean element list, which is in reverse order. -/
def cleanStep (rooted : Bool) (kept : List Bytes) (element : Bytes) : List Bytes :=
  if element = [] ∨ element = here then kept
  else if element = parent then
    match kept with
    | [] => if rooted then [] else [parent]
    | last :: before => if last = parent then parent :: kept else before
  else element :: kept

def cleanElements (path : Bytes) : List Bytes :=
  ((elements path).foldl (cleanStep (isAbsolute path)) []).reverse

def render (rooted : Bool) (elements : List Bytes) : Bytes :=
  if rooted then Bytes.slash :: [Bytes.slash].intercalate elements
  else if elements.isEmpty then here
  else [Bytes.slash].intercalate elements

/-- The shortest path that means the same by its text. -/
def clean (path : Bytes) : Bytes :=
  render (isAbsolute path) (cleanElements path)

/-- The path of `name` below `base`, in clean form; an empty part is left out. -/
def join (base name : Bytes) : Bytes :=
  if base = [] then (if name = [] then [] else clean name)
  else clean (base ++ Bytes.slash :: name)

def upToLastSlash (path : Bytes) : Bytes :=
  (path.reverse.dropWhile fun b => !isSlash b).reverse

def afterLastSlash (path : Bytes) : Bytes :=
  (path.reverse.takeWhile fun b => !isSlash b).reverse

def directory (path : Bytes) : Bytes :=
  clean (upToLastSlash path)

/-- The last element of a path; a path that is empty or ends in a slash has none. -/
def fileName? (path : Bytes) : Option Bytes :=
  let name := afterLastSlash path
  if name.isEmpty then none else some name

end IgaArchive.Path
