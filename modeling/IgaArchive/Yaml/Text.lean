import IgaArchive.Text.Rune

/-!
The characters of a YAML stream. A byte order mark at the start tells the encoding, which is UTF-8
without one. Control characters other than tabs and line breaks may not appear.
-/

namespace IgaArchive.Yaml.Text

/-- The code points that a stream may hold, first and last of each range. -/
def ranges : List (Nat × Nat) :=
  [(0x09, 0x0A), (0x0D, 0x0D), (0x20, 0x7E), (0x85, 0x85), (0xA0, 0xD7FF), (0xE000, 0xFFFD),
    (0x10000, 0x10FFFF)]

def isAllowed (c : Char) : Bool :=
  ranges.any fun (first, last) => first ≤ c.toNat && c.toNat ≤ last

/-- The 16-bit units of a byte string, each with its low byte first. -/
def units? : Bytes → Option (List Nat)
  | [] => some []
  | [_] => none
  | low :: high :: rest => (units? rest).map ((low.toNat + high.toNat * 256) :: ·)

def swapped : Bytes → Bytes
  | high :: low :: rest => low :: high :: swapped rest
  | rest => rest

def isHighSurrogate (unit : Nat) : Bool :=
  0xD800 ≤ unit && unit < 0xDC00

def isLowSurrogate (unit : Nat) : Bool :=
  0xDC00 ≤ unit && unit < 0xE000

/-- The characters of 16-bit units; surrogates have to come in pairs. -/
def ofUnits? : List Nat → Option (List Char)
  | [] => some []
  | unit :: rest =>
    if isHighSurrogate unit then
      match rest with
      | low :: rest =>
        if isLowSurrogate low then
          (ofUnits? rest).map (Char.ofNat (0x10000 + (unit - 0xD800) * 1024 + (low - 0xDC00)) :: ·)
        else none
      | [] => none
    else if isLowSurrogate unit then none
    else (ofUnits? rest).map (Char.ofNat unit :: ·)

def chars? : Bytes → Option (List Char)
  | 0xFF :: 0xFE :: rest => (units? rest).bind ofUnits?
  | 0xFE :: 0xFF :: rest => (units? (swapped rest)).bind ofUnits?
  | 0xEF :: 0xBB :: 0xBF :: rest => Rune.chars? rest
  | bytes => Rune.chars? bytes

def decode? (bytes : Bytes) : Option (List Char) :=
  (chars? bytes).filter fun chars => chars.all isAllowed

end IgaArchive.Yaml.Text
