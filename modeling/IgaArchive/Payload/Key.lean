import IgaArchive.Text.Numeral

/-!
Keys of the payload transform. Scripts, the members named `*.s`, are stored under the script key and
all others under the plain key, unless the script key is forced for every member.
-/

namespace IgaArchive

inductive KeyPolicy where
  | byName
  | forced
  /-- A policy number without a meaning of its own; keys are chosen by name. -/
  | unnamed (code : Int)
  deriving DecidableEq, Repr

namespace KeyPolicy

def ofCode (code : Int) : KeyPolicy :=
  if code = 0 then .byName else if code = 1 then .forced else .unnamed code

def ofForce (force : Bool) : KeyPolicy :=
  if force then .forced else .byName

def text : KeyPolicy → Bytes
  | .byName => utf8 "by-name"
  | .forced => utf8 "forced"
  | .unnamed code => utf8 "KeyPolicy(" ++ Numeral.signed code ++ utf8 ")"

end KeyPolicy

namespace Payload

def scriptKey : UInt8 := 0xFF
def plainKey : UInt8 := 0x00

/-- Names ending in `.s` are scripts. -/
def isScript (name : Bytes) : Bool :=
  (utf8 ".s").isSuffixOf name

def key (name : Bytes) (policy : KeyPolicy) : UInt8 :=
  if policy = .forced || isScript name then scriptKey else plainKey

end Payload

end IgaArchive
