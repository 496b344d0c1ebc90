import IgaArchive.Path
import IgaArchive.Text.Quoted

/-!
Which member names may be extracted. A name must not be empty, must not be absolute, and must not
climb out of the output directory; slashes and backslashes both count as separators.
-/

namespace IgaArchive.EntryName

inductive Refusal where
  | empty
  | absolute (name : Bytes)
  | climbs (name : Bytes)
  deriving DecidableEq, Repr

def Refusal.message : Refusal → Bytes
  | .empty => utf8 "malformed archive: empty entry name"
  | .absolute name => utf8 "malformed archive: absolute entry name " ++ Quoted.text name
  | .climbs name =>
    utf8 "malformed archive: entry name " ++ Quoted.text name ++ utf8 " leaves the output directory"

def isSeparator (b : UInt8) : Bool :=
  b == Bytes.slash || b == Bytes.backslash

/-- Accepts a name that stays below the directory it is extracted into. -/
def check (name : Bytes) : Except Refusal Unit :=
  if name = [] then .error .empty
  else if name.head?.any isSeparator then .error (.absolute name)
  else if (name.fields isSeparator).contains Path.parent then .error (.climbs name)
  else .ok ()

end IgaArchive.EntryName
