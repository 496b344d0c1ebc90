import IgaArchive.Text.Numeral
import IgaArchive.Text.Printable
import IgaArchive.Text.Rune

/-!
Quoted text. Messages show names between quotes; within them the quote, the backslash and everything
that does not print is written as an escape, so a name can be read back from the message.
-/

namespace IgaArchive.Quoted

def letterEscape? (c : Char) : Option Char :=
  match c.toNat with
  | 7 => some 'a'
  | 8 => some 'b'
  | 9 => some 't'
  | 10 => some 'n'
  | 11 => some 'v'
  | 12 => some 'f'
  | 13 => some 'r'
  | _ => none

/-- A character as it stands between the given quotes. -/
def escape (quote c : Char) : Bytes :=
  if c = quote ∨ c = '\\' then [Bytes.backslash, Bytes.code c]
  else if Printable.isPrintable c then utf8 (String.singleton c)
  else
    match letterEscape? c with
    | some letter => [Bytes.backslash, Bytes.code letter]
    | none =>
      if c.toNat < 0x20 ∨ c.toNat = 0x7F then utf8 "\\x" ++ Numeral.hexPadded 2 c.toNat
      else if c.toNat < 0x10000 then utf8 "\\u" ++ Numeral.hexPadded 4 c.toNat
      else utf8 "\\U" ++ Numeral.hexPadded 8 c.toNat

/-- A rune between the given quotes; a stray byte is written in hexadecimal. -/
def escapeRune (quote : Char) : Rune → Bytes
  | .char c => escape quote c
  | .stray b => utf8 "\\x" ++ Numeral.hexByte b

def text (bytes : Bytes) : Bytes :=
  utf8 "\"" ++ (Rune.decode bytes).flatMap (escapeRune '"') ++ utf8 "\""

def character (c : Char) : Bytes :=
  utf8 "'" ++ escape '\'' c ++ utf8 "'"

end IgaArchive.Quoted
