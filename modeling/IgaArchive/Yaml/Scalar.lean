import IgaArchive.Yaml.Cursor

/-!
Reading the text of YAML scalars: plain, quoted and block scalars, with their folding of line breaks.
-/

namespace IgaArchive.Yaml

/-- What stands between two words of a scalar: blanks on one line, or line breaks. -/
structure Gap where
  blanks : List Char := []
  /-- Whether a line has ended; blanks after that are indentation. -/
  broken : Bool := false
  firstBreak : List Char := []
  moreBreaks : List Char := []

/-- A single line break folds into a blank, further ones stay. -/
def Gap.text (gap : Gap) : List Char :=
  if gap.broken then
    if gap.firstBreak = ['\n'] then if gap.moreBreaks.isEmpty then [' '] else gap.moreBreaks
    else gap.firstBreak ++ gap.moreBreaks
  else gap.blanks

/-- Reads blanks and line breaks. A tab that indents to less than `indent` is refused. -/
def takeGap (indent : Int) : (fuel : Nat) → Cursor → Gap → Option (Gap × Cursor)
  | 0, cursor, gap => some (gap, cursor)
  | fuel + 1, cursor, gap =>
    match cursor.peek with
    | none => some (gap, cursor)
    | some c =>
      if isBlank c then
        if gap.broken then
          if c == '\t' && cursor.column < indent then none else takeGap indent fuel cursor.skip gap
        else takeGap indent fuel cursor.skip { gap with blanks := gap.blanks ++ [c] }
      else if isBreak c then
        let (text, cursor) := cursor.takeBreak
        if gap.broken then takeGap indent fuel cursor { gap with moreBreaks := gap.moreBreaks ++ text }
        else takeGap indent fuel cursor { gap with blanks := [], broken := true, firstBreak := text }
      else some (gap, cursor)

def isFlowIndicator (c : Char) : Bool :=
  c == ',' || c == '[' || c == ']' || c == '\x7b' || c == '\x7d'

def plainWord (inFlow : Bool) : List Char → List Char
  | [] => []
  | c :: rest =>
    if isSpace c then []
    else if c == ':' && rest.head?.all isSpace then []
    else if inFlow && (isFlowIndicator c || (c == '?' && rest.head?.all isSpace)) then []
    else c :: plainWord inFlow rest

/-- Reads on in a plain scalar whose text so far is `text`. Gives also whether it ended past a line
break. -/
def takePlainFrom (inFlow : Bool) (indent : Int) :
    (fuel : Nat) → Cursor → List Char → Gap → Option (List Char × Bool × Cursor)
  | 0, cursor, text, gap => some (text, gap.broken, cursor)
  | fuel + 1, cursor, text, gap =>
    if cursor.atDocumentEdge || cursor.looksAt '#' then some (text, gap.broken, cursor)
    else
      let word := plainWord inFlow cursor.rest
      let cursor := cursor.skip word.length
      let (text, gap) := if word.isEmpty then (text, gap) else (text ++ gap.text ++ word, {})
      if cursor.peek.all fun c => !isSpace c then some (text, gap.broken, cursor)
      else
        match takeGap indent cursor.rest.length cursor gap with
        | none => none
        | some (gap, cursor) =>
          if !inFlow && cursor.column < indent then some (text, gap.broken, cursor)
          else takePlainFrom inFlow indent fuel cursor text gap

def takePlain (inFlow : Bool) (indent : Int) (cursor : Cursor) :
    Option (List Char × Bool × Cursor) :=
  takePlainFrom inFlow indent (cursor.rest.length + 1) cursor [] {}

def hexValue? (c : Char) : Option Nat :=
  if '0' ≤ c ∧ c ≤ '9' then some (c.toNat - 48)
  else if 'a' ≤ c ∧ c ≤ 'f' then some (c.toNat - 87)
  else if 'A' ≤ c ∧ c ≤ 'F' then some (c.toNat - 55)
  else none

def hexNumber? (digits : List Char) : Option Nat :=
  digits.foldlM (fun n c => (hexValue? c).map (n * 16 + ·)) 0

def charOf? (n : Nat) : Option Char :=
  if n.isValidChar then some (Char.ofNat n) else none

def escaped? (c : Char) : Option Char :=
  match c with
  | '0' => some '\x00'
  | 'a' => some '\x07'
  | 'b' => some '\x08'
  | 't' => some '\t'
  | '\t' => some '\t'
  | 'n' => some '\n'
  | 'v' => some '\x0b'
  | 'f' => some '\x0c'
  | 'r' => some '\r'
  | 'e' => some '\x1b'
  | ' ' => some ' '
  | '"' => some '"'
  | '\'' => some '\''
  | '\\' => some '\\'
  | 'N' => some '\u0085'
  | '_' => some '\u00a0'
  | 'L' => some '\u2028'
  | 'P' => some '\u2029'
  | _ => none

def escapeDigits? (c : Char) : Option Nat :=
  match c with
  | 'x' => some 2
  | 'u' => some 4
  | 'U' => some 8
  | _ => none

def takeEscape (cursor : Cursor) : Option (Char × Cursor) := do
  let c ← cursor.peek
  match escapeDigits? c with
  | some count =>
    let digits := (cursor.rest.drop 1).take count
    if digits.length < count then none
    else return (← charOf? (← hexNumber? digits), cursor.skip (count + 1))
  | none => return (← escaped? c, cursor.skip)

/-- Reads quoted characters up to a blank, a line break, the closing quote or the end. Gives also
whether an escaped line break was passed last. -/
def takeQuotedWord (quote : Char) :
    (fuel : Nat) → Cursor → List Char → Option (List Char × Bool × Cursor)
  | 0, cursor, text => some (text, false, cursor)
  | fuel + 1, cursor, text =>
    match cursor.peek with
    | none => some (text, false, cursor)
    | some c =>
      if isSpace c then some (text, false, cursor)
      else if c == quote then
        if quote == '\'' && cursor.looksAt '\'' 1 then
          takeQuotedWord quote fuel (cursor.skip 2) (text ++ ['\''])
        else some (text, false, cursor)
      else if quote == '"' && c == '\\' then
        if (cursor.peekAt 1).any isBreak then some (text, true, cursor.skip.skipBreak)
        else
          match takeEscape cursor.skip with
          | none => none
          | some (escape, cursor) => takeQuotedWord quote fuel cursor (text ++ [escape])
      else takeQuotedWord quote fuel cursor.skip (text ++ [c])

def takeQuotedFrom (quote : Char) :
    (fuel : Nat) → Cursor → List Char → Option (List Char × Cursor)
  | 0, _, _ => none
  | fuel + 1, cursor, text =>
    if cursor.atDocumentEdge || cursor.rest.isEmpty then none
    else
      match takeQuotedWord quote cursor.rest.length cursor [] with
      | none => none
      | some (word, broken, cursor) =>
        if cursor.looksAt quote then some (text ++ word, cursor.skip)
        else
          match takeGap 0 cursor.rest.length cursor { broken } with
          | none => none
          | some (gap, cursor) => takeQuotedFrom quote fuel cursor (text ++ word ++ gap.text)

def takeQuoted (quote : Char) (cursor : Cursor) : Option (List Char × Cursor) :=
  takeQuotedFrom quote (cursor.rest.length + 1) cursor.skip []

inductive Chomping where
  | strip
  | clip
  | keep
  deriving DecidableEq, Repr

def takeChomping (cursor : Cursor) : Option Chomping × Cursor :=
  if cursor.looksAt '+' then (some .keep, cursor.skip)
  else if cursor.looksAt '-' then (some .strip, cursor.skip)
  else (none, cursor)

def takeIndentation (cursor : Cursor) : Option (Nat × Cursor) :=
  match cursor.peek with
  | some c => if c == '0' then none else if c.isDigit then some (c.toNat - 48, cursor.skip) else some (0, cursor)
  | none => some (0, cursor)

def takeIndicators (cursor : Cursor) : Option (Chomping × Nat × Cursor) := do
  match takeChomping cursor with
  | (some chomping, cursor) =>
    let (indentation, cursor) ← takeIndentation cursor
    return (chomping, indentation, cursor)
  | (none, cursor) =>
    let (indentation, cursor) ← takeIndentation cursor
    if indentation = 0 then return (.clip, 0, cursor)
    else
      let (chomping, cursor) := takeChomping cursor
      return (chomping.getD .clip, indentation, cursor)

/-- Reads empty lines and the indentation before the next line of a block scalar. An `indent` of zero
is not known yet. Gives the line breaks and the deepest column reached. -/
def takeEmptyLines (indent : Nat) :
    (fuel : Nat) → Cursor → List Char → Nat → Option (List Char × Nat × Cursor)
  | 0, cursor, breaks, deepest => some (breaks, deepest, cursor)
  | fuel + 1, cursor, breaks, deepest =>
    let spaces := (cursor.rest.takeWhile (· == ' ')).length
    let cursor := cursor.skip (if indent = 0 then spaces else min spaces (indent - cursor.column))
    let deepest := max deepest cursor.column
    if (indent = 0 ∨ cursor.column < indent) ∧ cursor.looksAt '\t' then none
    else if cursor.peek.any isBreak then
      let (text, cursor) := cursor.takeBreak
      takeEmptyLines indent fuel cursor (breaks ++ text) deepest
    else some (breaks, deepest, cursor)

structure BlockLines where
  text : List Char := []
  /-- The break that ended the last line, not yet part of the text. -/
  lastBreak : List Char := []
  /-- The breaks of empty lines after it. -/
  emptyLines : List Char := []
  /-- Whether the last line started with a blank. -/
  startedBlank : Bool := false

/-- Adds the breaks before a line; in a folded scalar a single one becomes a blank. -/
def BlockLines.join (lines : BlockLines) (literal startsBlank : Bool) : List Char :=
  let folds := !literal && !lines.startedBlank && !startsBlank && lines.lastBreak == ['\n']
  let before := if folds then (if lines.emptyLines.isEmpty then [' '] else []) else lines.lastBreak
  lines.text ++ before ++ lines.emptyLines

def takeBlockLines (literal : Bool) (indent : Nat) :
    (fuel : Nat) → Cursor → BlockLines → Option (BlockLines × Cursor)
  | 0, cursor, lines => some (lines, cursor)
  | fuel + 1, cursor, lines =>
    if cursor.column ≠ indent ∨ cursor.rest.isEmpty then some (lines, cursor)
    else
      let startsBlank := cursor.peek.any isBlank
      let (line, cursor) := cursor.takeWhile fun c => !isBreak c
      let text := lines.join literal startsBlank ++ line
      let (lastBreak, cursor) := cursor.takeBreak
      match takeEmptyLines indent (cursor.rest.length + 1) cursor [] 0 with
      | none => none
      | some (emptyLines, _, cursor) =>
        takeBlockLines literal indent fuel cursor
          { text, lastBreak, emptyLines, startedBlank := startsBlank }

/-- Reads a block scalar at its sign. `parent` is the indentation of the surrounding block. -/
def takeBlock (literal : Bool) (parent : Int) (cursor : Cursor) : Option (List Char × Cursor) := do
  let (chomping, indentation, cursor) ← takeIndicators cursor.skip
  let cursor := cursor.skipWhile isBlank
  let cursor := if cursor.looksAt '#' then cursor.skipLineText else cursor
  if cursor.peek.any fun c => !isBreak c then none
  else
    let cursor := cursor.skipBreak
    let known := if indentation = 0 then 0 else (max parent 0).toNat + indentation
    let (emptyLines, deepest, cursor) ← takeEmptyLines known (cursor.rest.length + 1) cursor [] 0
    let indent := if known = 0 then max (max deepest (parent + 1).toNat) 1 else known
    let (lines, cursor) ← takeBlockLines literal indent (cursor.rest.length + 1) cursor { emptyLines }
    let tail :=
      match chomping with
      | .strip => []
      | .clip => lines.lastBreak
      | .keep => lines.lastBreak ++ lines.emptyLines
    return (lines.text ++ tail, cursor)

end IgaArchive.Yaml
