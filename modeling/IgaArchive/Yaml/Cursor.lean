/-!
A position in a YAML text: the characters that follow, and the line and column they stand at.
-/

namespace IgaArchive.Yaml

def isBlank (c : Char) : Bool :=
  c == ' ' || c == '\t'

def isBreak (c : Char) : Bool :=
  c == '\n' || c == '\r' || c == '\u0085' || c == '\u2028' || c == '\u2029'

def isSpace (c : Char) : Bool :=
  isBlank c || isBreak c

/-- The characters of names: ASCII letters and digits, hyphen and underscore. -/
def isWord (c : Char) : Bool :=
  c.isAlphanum || c == '-' || c == '_'

structure Cursor where
  rest : List Char
  line : Nat := 0
  column : Nat := 0
  index : Nat := 0
  /-- Whether a line has ended since the last character that is not blank. -/
  freshLine : Bool := false

namespace Cursor

def peek (cursor : Cursor) : Option Char :=
  cursor.rest.head?

def peekAt (cursor : Cursor) (distance : Nat) : Option Char :=
  cursor.rest[distance]?

def looksAt (cursor : Cursor) (c : Char) (distance : Nat := 0) : Bool :=
  cursor.peekAt distance == some c

/-- Whether the text ends, or a blank or a line break stands, `distance` places on. -/
def endsWordAt (cursor : Cursor) (distance : Nat) : Bool :=
  (cursor.peekAt distance).all isSpace

def skip (cursor : Cursor) (count : Nat := 1) : Cursor :=
  { cursor with
    rest := cursor.rest.drop count, column := cursor.column + count, index := cursor.index + count,
    freshLine := cursor.freshLine && (cursor.rest.take count).all isBlank }

def takeWhile (cursor : Cursor) (test : Char → Bool) : List Char × Cursor :=
  let taken := cursor.rest.takeWhile test
  (taken, cursor.skip taken.length)

def skipWhile (cursor : Cursor) (test : Char → Bool) : Cursor :=
  (cursor.takeWhile test).2

/-- Moves past a line break, and gives what it stands for: itself if it is a separator of lines or
paragraphs, else a newline. Elsewhere nothing happens. -/
def takeBreak (cursor : Cursor) : List Char × Cursor :=
  let past (rest : List Char) (count : Nat) : Cursor :=
    { rest, line := cursor.line + 1, column := 0, index := cursor.index + count, freshLine := true }
  match cursor.rest with
  | '\r' :: '\n' :: rest => (['\n'], past rest 2)
  | c :: rest =>
    if c == '\u2028' || c == '\u2029' then ([c], past rest 1)
    else if isBreak c then (['\n'], past rest 1)
    else ([], cursor)
  | [] => ([], cursor)

def skipBreak (cursor : Cursor) : Cursor :=
  cursor.takeBreak.2

def skipLineText (cursor : Cursor) : Cursor :=
  cursor.skipWhile fun c => !isBreak c

def atDocumentMark (cursor : Cursor) (mark : Char) : Bool :=
  cursor.column == 0 && cursor.rest.take 3 == [mark, mark, mark] && cursor.endsWordAt 3

def atDocumentEdge (cursor : Cursor) : Bool :=
  cursor.atDocumentMark '-' || cursor.atDocumentMark '.'

end Cursor

end IgaArchive.Yaml
