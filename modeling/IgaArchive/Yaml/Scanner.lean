import IgaArchive.Yaml.Scalar
import IgaArchive.Yaml.Token

/-!
Cutting a YAML text into tokens. Indentation opens and closes blocks. A token that may turn out to be
a key is remembered; when its colon follows on the same line, the key token, and if need be the start
of a mapping, is put in front of it.
-/

namespace IgaArchive.Yaml

/-- A token that is a key if a colon follows. -/
structure PossibleKey where
  place : Nat
  /-- Whether the block leaves no other reading. -/
  required : Bool
  line : Nat
  column : Nat
  index : Nat

structure Scanner where
  cursor : Cursor
  tokens : Array Token := #[]
  /-- The column of the current block, -1 outside all blocks. -/
  indent : Int := -1
  outer : List Int := []
  keyAllowed : Bool := true
  /-- The possible key of each open bracket, innermost first, and of the text outside all brackets. -/
  keys : List (Option PossibleKey) := [none]

namespace Scanner

def maxDepth : Nat := 10000

def flowDepth (s : Scanner) : Nat :=
  s.keys.length - 1

def inFlow (s : Scanner) : Bool :=
  0 < s.flowDepth

def line (s : Scanner) : Nat :=
  s.cursor.line + 1

def push (s : Scanner) (kind : TokenKind) (line : Nat) : Scanner :=
  { s with tokens := s.tokens.push ⟨kind, line⟩ }

def insert (s : Scanner) (place : Nat) (kind : TokenKind) (line : Nat) : Scanner :=
  { s with tokens := (s.tokens.take place).push ⟨kind, line⟩ ++ s.tokens.drop place }

def closeBlocks : (fuel : Nat) → Scanner → Int → Scanner
  | 0, s, _ => s
  | fuel + 1, s, column =>
    if s.inFlow ∨ s.indent ≤ column then s
    else
      closeBlocks fuel
        { s.push .blockEnd s.line with indent := s.outer.headD (-1), outer := s.outer.tail } column

def unindent (s : Scanner) (column : Int) : Scanner :=
  closeBlocks (s.outer.length + 1) s column

/-- Opens a block at a column, unless one is open there already; its start token goes to a place. -/
def openBlock (s : Scanner) (column place : Nat) (kind : TokenKind) (line : Nat) : Option Scanner :=
  if s.inFlow ∨ (column : Int) ≤ s.indent then some s
  else if s.outer.length ≥ maxDepth then none
  else some { s.insert place kind line with indent := column, outer := s.indent :: s.outer }

/-- Gives up the possible key of this level; a required one may not be given up. -/
def dropKey (s : Scanner) : Option Scanner :=
  match s.keys with
  | some key :: keys => if key.required then none else some { s with keys := none :: keys }
  | _ => some s

def rememberKey (s : Scanner) : Option Scanner :=
  if s.keyAllowed then do
    let s ← s.dropKey
    let key : PossibleKey :=
      { place := s.tokens.size, required := !s.inFlow && s.indent == s.cursor.column,
        line := s.cursor.line, column := s.cursor.column, index := s.cursor.index }
    return { s with keys := some key :: s.keys.tail }
  else some s

/-- Whether the colon of a key may still follow: on its line, within 1024 characters. -/
def keyIsFresh (s : Scanner) (key : PossibleKey) : Bool :=
  key.line == s.cursor.line && s.cursor.index ≤ key.index + 1024

def pushHere (s : Scanner) (kind : TokenKind) : Scanner :=
  { s.push kind s.line with cursor := s.cursor.skip }

def skipComments : (fuel : Nat) → Cursor → Cursor
  | 0, cursor => cursor
  | fuel + 1, cursor =>
    let cursor := cursor.skipLineText
    let between := (cursor.rest.drop 1).takeWhile isSpace
    if cursor.looksAt '#' (between.length + 1) then
      skipComments fuel (toComment (between.length + 1) cursor)
    else cursor
where
  /-- Moves over blanks and line breaks to the next comment sign. -/
  toComment : (fuel : Nat) → Cursor → Cursor
    | 0, cursor => cursor
    | fuel + 1, cursor =>
      if cursor.peek.any isBreak then toComment fuel cursor.skipBreak
      else if cursor.peek.any isBlank then toComment fuel cursor.skip
      else cursor

/-- Moves to the next token. Outside brackets a new line lets a key start again, and tabs count only
where none can start. -/
def toNextToken : (fuel : Nat) → Scanner → Scanner
  | 0, s => s
  | fuel + 1, s =>
    let cursor := if s.cursor.column = 0 ∧ s.cursor.looksAt '\ufeff' then s.cursor.skip else s.cursor
    let cursor := cursor.skipWhile fun c => c == ' ' || (c == '\t' && (s.inFlow || !s.keyAllowed))
    let cursor := if cursor.looksAt '#' then skipComments cursor.rest.length cursor else cursor
    if cursor.peek.any isBreak then
      toNextToken fuel
        { s with cursor := cursor.skipBreak, keyAllowed := s.keyAllowed || !s.inFlow }
    else { s with cursor }

def skipLineComment (s : Scanner) : Scanner :=
  let blanks := (s.cursor.rest.takeWhile isBlank).length
  if !s.cursor.freshLine && s.cursor.looksAt '#' blanks then
    { s with cursor := s.cursor.skipLineText }
  else s

def takeNumber (cursor : Cursor) : Option (Nat × Cursor) :=
  let (digits, cursor) := cursor.takeWhile Char.isDigit
  if digits.isEmpty ∨ digits.length > 9 then none
  else some (digits.foldl (fun n c => n * 10 + (c.toNat - 48)) 0, cursor)

def takeHandle (cursor : Cursor) : Option (List Char × Cursor) :=
  if cursor.looksAt '!' then
    let (word, cursor) := cursor.skip.takeWhile isWord
    if cursor.looksAt '!' then some ('!' :: word ++ ['!'], cursor.skip) else some ('!' :: word, cursor)
  else none

def isTagSign (c : Char) : Bool :=
  c ∈ [';', '/', '?', ':', '@', '&', '=', '+', '$', ',', '.', '!', '~', '*', '\'', '(', ')', '[', ']']

def sequenceLength? (lead : Nat) : Option Nat :=
  if lead < 0x80 then some 1
  else if lead / 32 = 6 then some 2
  else if lead / 16 = 14 then some 3
  else if lead / 8 = 30 then some 4
  else none

def takePercentByte (cursor : Cursor) : Option (Nat × Cursor) := do
  if cursor.looksAt '%' then
    let n ← hexNumber? [← cursor.peekAt 1, ← cursor.peekAt 2]
    return (n, cursor.skip 3)
  else none

def takePercentTail : (count : Nat) → Nat → Cursor → Option (Nat × Cursor)
  | 0, n, cursor => some (n, cursor)
  | count + 1, n, cursor => do
    let (b, cursor) ← takePercentByte cursor
    if b / 64 = 2 then takePercentTail count (n * 64 + b % 64) cursor else none

def takePercent (cursor : Cursor) : Option (Char × Cursor) := do
  let (lead, cursor) ← takePercentByte cursor
  let count ← sequenceLength? lead
  let start := if count = 1 then lead else lead % Nat.pow 2 (7 - count)
  let (n, cursor) ← takePercentTail (count - 1) start cursor
  return (← charOf? n, cursor)

def takeTagText : (fuel : Nat) → Cursor → List Char → Option (List Char × Cursor)
  | 0, cursor, text => some (text, cursor)
  | fuel + 1, cursor, text =>
    match cursor.peek with
    | none => some (text, cursor)
    | some c =>
      if c == '%' then do
        let (c, cursor) ← takePercent cursor
        takeTagText fuel cursor (text ++ [c])
      else if isWord c || isTagSign c then takeTagText fuel cursor.skip (text ++ [c])
      else some (text, cursor)

def takeTag (cursor : Cursor) : Option (List Char × List Char × Cursor) := do
  if cursor.looksAt '<' 1 then
    let (suffix, cursor) ← takeTagText cursor.rest.length (cursor.skip 2) []
    if suffix.isEmpty ∨ !cursor.looksAt '>' then none else return ([], suffix, cursor.skip)
  else
    let (handle, cursor) ← takeHandle cursor
    if handle.length > 1 ∧ handle.getLast? = some '!' then
      let (suffix, cursor) ← takeTagText cursor.rest.length cursor []
      if suffix.isEmpty then none else return (handle, suffix, cursor)
    else
      let (suffix, cursor) ← takeTagText cursor.rest.length cursor (handle.drop 1)
      if suffix.isEmpty then return ([], ['!'], cursor) else return (['!'], suffix, cursor)

def directive (s : Scanner) : Option Scanner := do
  let s := s.unindent (-1)
  let s ← s.dropKey
  let (name, cursor) := s.cursor.skip.takeWhile isWord
  if name.isEmpty ∨ !cursor.endsWordAt 0 then none
  else
    let cursor := cursor.skipWhile isBlank
    let (kind, cursor) ←
      if name == ['Y', 'A', 'M', 'L'] then do
        let (major, cursor) ← takeNumber cursor
        if !cursor.looksAt '.' then none
        else
          let (minor, cursor) ← takeNumber cursor.skip
          some (TokenKind.version major minor, cursor)
      else if name == ['T', 'A', 'G'] then do
        let (handle, cursor) ← takeHandle cursor
        if !(handle == ['!'] || (handle.length > 1 && handle.getLast? == some '!')) ||
            !cursor.peek.any isBlank then none
        else
          let cursor := cursor.skipWhile isBlank
          let (expansion, cursor) ← takeTagText cursor.rest.length cursor []
          if expansion.isEmpty ∨ !cursor.endsWordAt 0 then none
          else some (TokenKind.tagHandle handle expansion, cursor)
      else none
    let cursor := cursor.skipWhile isBlank
    let cursor := if cursor.looksAt '#' then cursor.skipLineText else cursor
    if cursor.peek.any fun c => !isBreak c then none
    else some { s.push kind s.line with cursor := cursor.skipBreak, keyAllowed := false }

def documentMark (s : Scanner) (kind : TokenKind) : Option Scanner := do
  let s ← (s.unindent (-1)).dropKey
  return { s.push kind s.line with cursor := s.cursor.skip 3, keyAllowed := false }

def streamEnd (s : Scanner) : Option Scanner := do
  let s ← (s.unindent (-1)).dropKey
  return { s.push .streamEnd s.line with keyAllowed := false }

def flowStart (s : Scanner) (kind : TokenKind) : Option Scanner := do
  let s ← s.rememberKey
  if s.flowDepth ≥ maxDepth then none
  else return { s.pushHere kind with keys := none :: s.keys, keyAllowed := true }

def flowEnd (s : Scanner) (kind : TokenKind) : Option Scanner := do
  let s ← s.dropKey
  return { s.pushHere kind with
    keys := if s.inFlow then s.keys.tail else s.keys, keyAllowed := false }

def flowEntry (s : Scanner) : Option Scanner := do
  let s ← s.dropKey
  return { s.pushHere .flowEntry with keyAllowed := true }

def blockEntry (s : Scanner) : Option Scanner := do
  if !s.inFlow && !s.keyAllowed then none
  else
    let s ← s.openBlock s.cursor.column s.tokens.size .blockSequenceStart s.line
    let s ← s.dropKey
    return { s.pushHere .blockEntry with keyAllowed := true }

def explicitKey (s : Scanner) : Option Scanner := do
  if !s.inFlow && !s.keyAllowed then none
  else
    let s ← s.openBlock s.cursor.column s.tokens.size .blockMappingStart s.line
    let s ← s.dropKey
    return { s.pushHere .key with keyAllowed := !s.inFlow }

def complexValue (s : Scanner) : Option Scanner := do
  if !s.inFlow && !s.keyAllowed then none
  else
    let s ← s.openBlock s.cursor.column s.tokens.size .blockMappingStart s.line
    return { s.pushHere .value with keyAllowed := !s.inFlow }

/-- Reads a colon; a key before it is announced now. -/
def value (s : Scanner) : Option Scanner :=
  match s.keys.headD none with
  | none => s.complexValue
  | some key =>
    if s.keyIsFresh key then do
      let s := s.insert key.place .key (key.line + 1)
      let s ← s.openBlock key.column key.place .blockMappingStart (key.line + 1)
      return { s.pushHere .value with keys := none :: s.keys.tail, keyAllowed := false }
    else if key.required then none
    else { s with keys := none :: s.keys.tail }.complexValue

def named (s : Scanner) (kind : List Char → TokenKind) : Option Scanner := do
  let s ← s.rememberKey
  let (name, cursor) := s.cursor.skip.takeWhile isWord
  if name.isEmpty ∨ !(cursor.endsWordAt 0 || cursor.peek.any fun c => "?:,]\x7d%@`".contains c) then none
  else return { s.push (kind name) s.line with cursor, keyAllowed := false }

def tag (s : Scanner) : Option Scanner := do
  let s ← s.rememberKey
  let (handle, suffix, cursor) ← takeTag s.cursor
  if !cursor.endsWordAt 0 then none
  else return { s.push (.tag handle suffix) s.line with cursor, keyAllowed := false }

def blockScalar (s : Scanner) (literal : Bool) : Option Scanner := do
  let s ← s.dropKey
  let (text, cursor) ← takeBlock literal s.indent s.cursor
  return { s.push (.scalar text .block) s.line with cursor, keyAllowed := true }

def quotedScalar (s : Scanner) (quote : Char) : Option Scanner := do
  let s ← s.rememberKey
  let (text, cursor) ← takeQuoted quote s.cursor
  return { s.push (.scalar text .quoted) s.line with cursor, keyAllowed := false }

def plainScalar (s : Scanner) : Option Scanner := do
  let s ← s.rememberKey
  let (text, broken, cursor) ← takePlain s.inFlow (s.indent + 1) s.cursor
  return { s.push (.scalar text .plain) s.line with cursor, keyAllowed := broken }

def isIndicator (c : Char) : Bool :=
  c ∈ ['-', '?', ':', ',', '[', ']', '\x7b', '\x7d', '#', '&', '*', '!', '|', '>', '\'', '"', '%', '@',
    Char.ofNat 96]

def startsPlain (s : Scanner) (c : Char) : Bool :=
  !(isSpace c || isIndicator c) ||
    (c == '-' && !(s.cursor.peekAt 1).any isBlank) ||
    (!s.inFlow && (c == '?' || c == ':') && !s.cursor.endsWordAt 1)

def contentToken (s : Scanner) (c : Char) : Option Scanner :=
  let endsWord := s.cursor.endsWordAt 1
  if c == '[' then s.flowStart .flowSequenceStart
  else if c == '\x7b' then s.flowStart .flowMappingStart
  else if c == ']' then s.flowEnd .flowSequenceEnd
  else if c == '\x7d' then s.flowEnd .flowMappingEnd
  else if c == ',' then s.flowEntry
  else if c == '-' && endsWord then s.blockEntry
  else if c == '?' && (s.inFlow || endsWord) then s.explicitKey
  else if c == ':' && (s.inFlow || endsWord) then s.value
  else if c == '*' then s.named .reference
  else if c == '&' then s.named .anchor
  else if c == '!' then s.tag
  else if c == '|' && !s.inFlow then s.blockScalar true
  else if c == '>' && !s.inFlow then s.blockScalar false
  else if c == '\'' || c == '"' then s.quotedScalar c
  else if s.startsPlain c then s.plainScalar
  else none

/-- A comment behind a token belongs to it, but not behind the sign of a sequence entry. -/
def afterToken (s : Scanner) : Scanner :=
  if (s.tokens.back?.map (·.kind)) = some .blockEntry then s else s.skipLineComment

/-- Reads the next token. Gives `none` where no token can stand. -/
def next (s : Scanner) : Option Scanner :=
  let s := toNextToken (s.cursor.rest.length + 1) s
  let s := s.unindent s.cursor.column
  match s.cursor.peek with
  | none => s.streamEnd
  | some c =>
    if s.cursor.column = 0 ∧ c = '%' then s.directive
    else if s.cursor.atDocumentMark '-' then s.documentMark .documentStart
    else if s.cursor.atDocumentMark '.' then s.documentMark .documentEnd
    else (s.contentToken c).map afterToken

end Scanner

/-- The tokens of a text up to its end, or up to the first place where no token can stand. -/
structure Scan where
  tokens : Array Token
  complete : Bool

/-- Reads tokens to the end of the text. Every token but those of the end takes a character, so
`fuel` need not exceed their number by more than one. -/
def scanFrom : (fuel : Nat) → Scanner → Scan
  | 0, s => ⟨s.tokens, false⟩
  | fuel + 1, s =>
    match s.next with
    | none => ⟨s.tokens, false⟩
    | some s =>
      if (s.tokens.back?.map (·.kind)) = some .streamEnd then ⟨s.tokens, true⟩
      else scanFrom fuel s

def scan (text : List Char) : Scan :=
  scanFrom (text.length + 2) { cursor := { rest := text } }

end IgaArchive.Yaml
