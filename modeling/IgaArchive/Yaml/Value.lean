import IgaArchive.Text.Fixed

/-!
What an untagged or core-tagged YAML scalar stands for. Numbers may be written in several bases and
with underscores; a date or time is told apart but not looked into further.
-/

namespace IgaArchive.Yaml

inductive Value where
  | null
  | bool (b : Bool)
  /-- A whole number that fits in 64 bits, signed or unsigned. -/
  | int (z : Int)
  | float (x : Float)
  | timestamp
  | text
  deriving Repr

namespace Value

def tag : Value → String
  | .null => "!!null"
  | .bool _ => "!!bool"
  | .int _ => "!!int"
  | .float _ => "!!float"
  | .timestamp => "!!timestamp"
  | .text => "!!str"

def words : List (String × Value) :=
  let infinity : Float := 1.0 / 0.0
  let both (value : Value) (spellings : List String) := spellings.map fun s => (s, value)
  both (.bool true) ["true", "True", "TRUE"] ++ both (.bool false) ["false", "False", "FALSE"] ++
    both .null ["", "~", "null", "Null", "NULL"] ++
    both (.float (0.0 / 0.0)) [".nan", ".NaN", ".NAN"] ++
    both (.float infinity) [".inf", ".Inf", ".INF", "+.inf", "+.Inf", "+.INF"] ++
    both (.float (-infinity)) ["-.inf", "-.Inf", "-.INF"]

def digitValue? (c : Char) : Option Nat :=
  if '0' ≤ c ∧ c ≤ '9' then some (c.toNat - 48)
  else if 'a' ≤ c ∧ c ≤ 'z' then some (c.toNat - 87)
  else if 'A' ≤ c ∧ c ≤ 'Z' then some (c.toNat - 55)
  else none

/-- The number that digits in a base stand for; there has to be one. -/
def digits? (base : Nat) (cs : List Char) : Option Nat :=
  if cs.isEmpty then none
  else cs.foldlM (fun n c => do
    let d ← digitValue? c
    if d < base then some (n * base + d) else none) 0

/-- A number without sign, whose beginning tells the base: `0x`, `0b`, `0o`, or `0` for octal. -/
def based? (cs : List Char) : Option Nat :=
  match cs with
  | ['0'] => some 0
  | '0' :: letter :: rest =>
    if !rest.isEmpty && (letter == 'x' || letter == 'X') then digits? 16 rest
    else if !rest.isEmpty && (letter == 'b' || letter == 'B') then digits? 2 rest
    else if !rest.isEmpty && (letter == 'o' || letter == 'O') then digits? 8 rest
    else digits? 8 (letter :: rest)
  | _ => digits? 10 cs

def signed? (number? : List Char → Option Nat) (cs : List Char) : Option Int := do
  let z : Int ← match cs with
    | '-' :: rest => (number? rest).map fun n => -(n : Int)
    | '+' :: rest => (number? rest).map fun n => (n : Int)
    | _ => (number? cs).map fun n => (n : Int)
  if Int64.minValue.toInt ≤ z ∧ z ≤ Int64.maxValue.toInt then some z else none

def unsigned? (number? : List Char → Option Nat) (cs : List Char) : Option Int := do
  let n ← number? cs
  if n < UInt64.size then some (n : Int) else none

def marked? (base : Nat) (mark : Char) (cs : List Char) : Option Int :=
  match cs with
  | '0' :: letter :: rest =>
    if letter == mark then (signed? (digits? base) rest).or (unsigned? (digits? base) rest) else none
  | '-' :: '0' :: letter :: rest =>
    if letter == mark then signed? (digits? base) ('-' :: rest) else none
  | _ => none

/-- The double nearest to `mantissa · 10^exponent`, unless that exceeds all doubles. -/
def decimal? (negative : Bool) (mantissa : Nat) (exponent : Int) : Option Float :=
  let size : Int := (Nat.toDigits 10 mantissa).length + exponent
  let magnitude? : Option Float :=
    if mantissa = 0 ∨ size < -400 then some 0.0
    else if size > 400 then none
    else
      let x := Float.ofScientific mantissa (decide (exponent < 0)) exponent.natAbs
      if x.isInf then none else some x
  magnitude?.map fun x => if negative then -x else x

def isDigitOrUnderscore (c : Char) : Bool :=
  c.isDigit || c == '_'

/-- The exponent of a decimal behind its letter. Beyond ten thousand it makes no difference. -/
def exponent? (cs : List Char) : Option Int :=
  let (negative, digits) :=
    match cs with
    | '-' :: rest => (true, rest)
    | '+' :: rest => (false, rest)
    | _ => (false, cs)
  if digits.head?.any Char.isDigit && digits.all isDigitOrUnderscore then
    let n : Nat := (digits.filter Char.isDigit).foldl
      (fun n c => if n < 10000 then n * 10 + (c.toNat - 48) else n) 0
    some (if negative then -(n : Int) else n)
  else none

def float? (cs : List Char) : Option Float := do
  let (negative, cs) :=
    match cs with
    | '-' :: rest => (true, rest)
    | '+' :: rest => (false, rest)
    | _ => (false, cs)
  let whole := cs.takeWhile isDigitOrUnderscore
  let behind := cs.dropWhile isDigitOrUnderscore
  let (fraction, behind) :=
    match behind with
    | '.' :: rest => (rest.takeWhile isDigitOrUnderscore, rest.dropWhile isDigitOrUnderscore)
    | _ => ([], behind)
  let exponent : Int ←
    match behind with
    | [] => some 0
    | letter :: rest => if letter == 'e' || letter == 'E' then exponent? rest else none
  let fraction := fraction.filter Char.isDigit
  let mantissa ← digits? 10 (whole.filter Char.isDigit ++ fraction)
  decimal? negative mantissa (exponent - fraction.length)

/-- Whether underscores stand only between digits, in a text that follows `before`. -/
def underscoresBetweenDigits (before : Char) : List Char → Bool
  | [] => true
  | c :: rest =>
    (c != '_' || (before.isDigit && rest.head?.any Char.isDigit)) && underscoresBetweenDigits c rest

def shortNumber? (cs : List Char) : Option (Nat × List Char) :=
  match cs with
  | a :: b :: rest =>
    if a.isDigit && b.isDigit then some ((a.toNat - 48) * 10 + (b.toNat - 48), rest)
    else if a.isDigit then some (a.toNat - 48, b :: rest)
    else none
  | [a] => if a.isDigit then some (a.toNat - 48, []) else none
  | [] => none

def within? (low high : Nat) (cs : List Char) : Option (Nat × List Char) := do
  let (n, rest) ← shortNumber? cs
  if low ≤ n ∧ n ≤ high then some (n, rest) else none

def expect? (c : Char) (cs : List Char) : Option (List Char) :=
  match cs with
  | head :: rest => if head == c then some rest else none
  | [] => none

def isLeapYear (year : Nat) : Bool :=
  year % 4 == 0 && (year % 100 != 0 || year % 400 == 0)

def daysIn (year month : Nat) : Nat :=
  if month = 2 then (if isLeapYear year then 29 else 28)
  else if month ∈ [4, 6, 9, 11] then 30 else 31

def date? (cs : List Char) : Option (List Char) := do
  let year ← digits? 10 (cs.take 4)
  if !(cs.take 4).all Char.isDigit || cs.length < 4 then none
  else
    let (month, rest) ← within? 1 12 (← expect? '-' (cs.drop 4))
    let (_, rest) ← within? 1 (daysIn year month) (← expect? '-' rest)
    return rest

def time? (cs : List Char) : Option (List Char) := do
  let (_, rest) ← within? 0 23 cs
  let (_, rest) ← within? 0 59 (← expect? ':' rest)
  let (_, rest) ← within? 0 59 (← expect? ':' rest)
  match rest with
  | point :: digit :: more =>
    if (point == '.' || point == ',') && digit.isDigit then return more.dropWhile Char.isDigit
    else return rest
  | _ => return rest

def zone? (cs : List Char) : Option (List Char) := do
  match cs with
  | 'Z' :: rest => return rest
  | [sign, h1, h2, ':', m1, m2] =>
    if sign != '+' && sign != '-' then none
    else
      let hours ← digits? 10 [h1, h2]
      let minutes ← digits? 10 [m1, m2]
      if hours ≤ 24 ∧ minutes ≤ 60 then return [] else none
  | _ => none

/-- Whether a text is a date, a date and time with a zone, or a date and time behind a blank. -/
def isTimestamp (cs : List Char) : Bool :=
  match date? cs with
  | none => false
  | some [] => true
  | some (c :: rest) =>
    if c == 'T' || c == 't' then ((time? rest).bind zone?) == some []
    else if c == ' ' then time? rest == some []
    else false

/-- A text that starts with a digit or a sign. Times are recognised only when no other type is asked
for. -/
def number (times : Bool) (cs : List Char) : Value :=
  let bare := cs.filter (· != '_')
  if times && isTimestamp cs then .timestamp
  else
    match (signed? based? bare).or (unsigned? based? bare) with
    | some z => .int z
    | none =>
      match float? bare with
      | some x => .float x
      | none =>
        match (marked? 2 'b' bare).or (marked? 8 'o' bare) with
        | some z => .int z
        | none => .text

/-- The value of a plain text; `times` tells whether dates and times are recognised. -/
def ofText (times : Bool) (text : String) : Value :=
  let cs := text.toList
  match words.lookup text with
  | some value => value
  | none =>
    match cs.head? with
    | none => .text
    | some c =>
      if c == '.' then
        match if underscoresBetweenDigits ' ' cs then float? cs else none with
        | some x => .float x
        | none => .text
      else if c.isDigit || c == '+' || c == '-' then number times cs
      else .text

end Value

end IgaArchive.Yaml
