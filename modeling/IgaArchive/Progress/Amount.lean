import IgaArchive.Text.Fixed

/-!
Amounts of data for people: a byte count below 1024 as it is, larger ones in the greatest binary unit
that does not exceed them, with one digit after the point.
-/

namespace IgaArchive.Amount

/-- Divides `count` down to below 1024 and steps the unit up alongside: gives the size of the unit and
its index. -/
def unitFor (count unit : UInt64) (index : Nat) : UInt64 × Nat :=
  if 1024 ≤ count then unitFor (count / 1024) (unit * 1024) (index + 1) else (unit, index)
termination_by count.toNat
decreasing_by
  rename_i large
  have large : 1024 ≤ count.toNat := by simpa using UInt64.le_iff_toNat_le.mp large
  simp only [UInt64.toNat_div]
  exact Nat.div_lt_self (by omega) (by decide)

def unitLetters : List Char := ['K', 'M', 'G', 'T', 'P', 'E']

def text (unitName : String) (n : UInt64) : Bytes :=
  if n < 1024 then Numeral.decimal n.toNat ++ utf8 " " ++ utf8 unitName
  else
    let (unit, index) := unitFor (n / 1024) 1024 0
    Fixed.tenths (n.toFloat / unit.toFloat) ++ utf8 " " ++
      [Bytes.code (unitLetters.getD index ' ')] ++ utf8 "i" ++ utf8 unitName

def size (n : UInt64) : Bytes := text "B" n
def rate (n : UInt64) : Bytes := text "B/s" n

end IgaArchive.Amount
