import IgaArchive.Text.Rune

/-!
Text without the white space around it. White space are the characters of Unicode's `White_Space`
property.
-/

namespace IgaArchive.Trimmed

/-- The code points of white space, first and last of each range. -/
def ranges : List (Nat × Nat) :=
  [(0x09, 0x0D), (0x20, 0x20), (0x85, 0x85), (0xA0, 0xA0), (0x1680, 0x1680), (0x2000, 0x200A),
    (0x2028, 0x2029), (0x202F, 0x202F), (0x205F, 0x205F), (0x3000, 0x3000)]

def isWhiteSpace : Rune → Bool
  | .char c => ranges.any fun (first, last) => first ≤ c.toNat && c.toNat ≤ last
  | .stray _ => false

def encode : Rune → Bytes
  | .char c => utf8 (String.singleton c)
  | .stray b => [b]

def text (bytes : Bytes) : Bytes :=
  let runes := (Rune.decode bytes).dropWhile isWhiteSpace
  (runes.reverse.dropWhile isWhiteSpace).reverse.flatMap encode

end IgaArchive.Trimmed
