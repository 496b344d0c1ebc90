import IgaArchive.Yaml.Scanner

/-!
YAML documents as trees of nodes. Anchored nodes are kept in a table, to which aliases point; an alias
may stand inside the node it points to.
-/

namespace IgaArchive.Yaml

inductive Node where
  | scalar (line : Nat) (tag : Option String) (text : String) (style : ScalarStyle)
  | sequence (line : Nat) (tag : Option String) (items : List Node)
  | mapping (line : Nat) (tag : Option String) (pairs : List (Node × Node))
  /-- A reference to the table of anchored nodes. Each one has a number of its own. -/
  | reference (line : Nat) (name : String) (number target : Nat)
  deriving Inhabited

def Node.line : Node → Nat
  | .scalar line .. => line
  | .sequence line .. => line
  | .mapping line .. => line
  | .reference line .. => line

structure Document where
  root : Node
  anchored : Array (Option Node)

namespace Document

structure Progress where
  position : Nat := 0
  /-- Names of anchors and their places in the table, the latest first. -/
  anchors : List (List Char × Nat) := []
  anchored : Array (Option Node) := #[]
  aliases : Nat := 0
  handles : List (List Char × List Char) := []

abbrev Reader := StateT Progress Option

/-- Looks at the next token. Tokens are looked at three at a time, so one that is missing or malformed
is found two tokens early. -/
def peek (scan : Scan) : Reader Token := do
  let progress ← get
  if !scan.complete && scan.tokens.size ≤ progress.position + 2 then failure
  else
    match scan.tokens[progress.position]? with
    | some token => return token
    | none => failure

def advance : Reader Unit :=
  modify fun progress => { progress with position := progress.position + 1 }

def emptyScalar (line : Nat) : Node :=
  .scalar line none "" .plain

/-- The tags of the core types, by their common beginning. -/
def coreTags : List Char := "tag:yaml.org,2002:".toList

def shortTag (tag : List Char) : String :=
  if coreTags.isPrefixOf tag then "!!" ++ String.ofList (tag.drop coreTags.length)
  else String.ofList tag

def expandTag (handle suffix : List Char) : Reader (List Char) := do
  if handle.isEmpty then return suffix
  else
    match (← get).handles.lookup handle with
    | some expansion => return expansion ++ suffix
    | none => failure

structure Properties where
  anchor : Option (List Char) := none
  tag : Option (List Char) := none

/-- The tag of a node; a lone exclamation mark says nothing. -/
def Properties.tagText (properties : Properties) : Option String :=
  match properties.tag with
  | some tag => if tag = ['!'] ∨ tag = [] then none else some (shortTag tag)
  | none => none

def takeProperties (scan : Scan) : Reader Properties := do
  match (← peek scan).kind with
  | .anchor name =>
    advance
    match (← peek scan).kind with
    | .tag handle suffix =>
      advance
      return { anchor := some name, tag := some (← expandTag handle suffix) }
    | _ => return { anchor := some name }
  | .tag handle suffix =>
    advance
    match (← peek scan).kind with
    | .anchor name =>
      advance
      return { anchor := some name, tag := some (← expandTag handle suffix) }
    | _ => return { tag := some (← expandTag handle suffix) }
  | _ => return {}

def reserve (anchor : Option (List Char)) : Reader (Option Nat) := do
  match anchor with
  | none => return none
  | some name =>
    let progress ← get
    let place := progress.anchored.size
    set { progress with
      anchors := (name, place) :: progress.anchors, anchored := progress.anchored.push none }
    return some place

def settle (place : Option Nat) (node : Node) : Reader Node := do
  match place with
  | none => return node
  | some place =>
    modify fun progress => { progress with anchored := progress.anchored.setIfInBounds place (some node) }
    return node

def takeAlias (line : Nat) (name : List Char) : Reader Node := do
  let progress ← get
  match progress.anchors.lookup name with
  | none => failure
  | some target =>
    set { progress with aliases := progress.aliases + 1 }
    return .reference line (String.ofList name) progress.aliases target

/-- Moves past the comma between two entries in brackets; the first has none before it. -/
def takeComma (scan : Scan) (first : Bool) : Reader Token := do
  let token ← peek scan
  if first then return token
  else if token.kind = .flowEntry then
    advance
    peek scan
  else failure

mutual

/-- Reads a node. Block collections stand only where `block` allows them, and a sequence without
indentation of its own only where `indentless` does. -/
def takeNode (scan : Scan) (fuel : Nat) (block indentless : Bool) : Reader Node :=
  match fuel with
  | 0 => failure
  | fuel + 1 => do
    let first ← peek scan
    match first.kind with
    | .reference name =>
      advance
      takeAlias first.line name
    | _ =>
      let properties ← takeProperties scan
      let place ← reserve properties.anchor
      let tag := properties.tagText
      let token ← peek scan
      let node ←
        match token.kind with
        | .scalar text style =>
          advance
          pure (.scalar first.line tag (String.ofList text) style)
        | .flowSequenceStart =>
          advance
          pure (.sequence first.line tag (← takeFlowItems scan fuel true))
        | .flowMappingStart =>
          advance
          pure (.mapping first.line tag (← takeFlowPairs scan fuel true))
        | kind =>
          if indentless && kind = .blockEntry then
            pure (.sequence first.line tag (← takeIndentlessItems scan fuel))
          else if block && kind = .blockSequenceStart then
            advance
            pure (.sequence first.line tag (← takeBlockItems scan fuel))
          else if block && kind = .blockMappingStart then
            advance
            pure (.mapping first.line tag (← takeBlockPairs scan fuel))
          else if properties.anchor.isSome || properties.tag.isSome then
            pure (.scalar first.line tag "" .plain)
          else failure
      settle place node

def takeBlockItems (scan : Scan) (fuel : Nat) : Reader (List Node) :=
  match fuel with
  | 0 => failure
  | fuel + 1 => do
    let token ← peek scan
    match token.kind with
    | .blockEntry =>
      advance
      let item ←
        match (← peek scan).kind with
        | .blockEntry => pure (emptyScalar token.line)
        | .blockEnd => pure (emptyScalar token.line)
        | _ => takeNode scan fuel true false
      return item :: (← takeBlockItems scan fuel)
    | .blockEnd =>
      advance
      return []
    | _ => failure

/-- Reads the entries of a sequence that is not indented; another token ends it. -/
def takeIndentlessItems (scan : Scan) (fuel : Nat) : Reader (List Node) :=
  match fuel with
  | 0 => failure
  | fuel + 1 => do
    let token ← peek scan
    match token.kind with
    | .blockEntry =>
      advance
      let item ←
        match (← peek scan).kind with
        | .blockEntry => pure (emptyScalar token.line)
        | .key => pure (emptyScalar token.line)
        | .value => pure (emptyScalar token.line)
        | .blockEnd => pure (emptyScalar token.line)
        | _ => takeNode scan fuel true false
      return item :: (← takeIndentlessItems scan fuel)
    | _ => return []

def takeBlockPart (scan : Scan) (fuel : Nat) (line : Nat) : Reader Node :=
  match fuel with
  | 0 => failure
  | fuel + 1 => do
    match (← peek scan).kind with
    | .key => return emptyScalar line
    | .value => return emptyScalar line
    | .blockEnd => return emptyScalar line
    | _ => takeNode scan fuel true true

def takeBlockPairs (scan : Scan) (fuel : Nat) : Reader (List (Node × Node)) :=
  match fuel with
  | 0 => failure
  | fuel + 1 => do
    let token ← peek scan
    match token.kind with
    | .key =>
      advance
      let key ← takeBlockPart scan fuel token.line
      let sign ← peek scan
      let value ←
        if sign.kind = .value then do
          advance
          takeBlockPart scan fuel sign.line
        else pure (emptyScalar sign.line)
      return (key, value) :: (← takeBlockPairs scan fuel)
    | .blockEnd =>
      advance
      return []
    | _ => failure

/-- Reads the entries of a bracketed sequence to its end. A key makes its entry a mapping of one
pair. -/
def takeFlowItems (scan : Scan) (fuel : Nat) (first : Bool) : Reader (List Node) :=
  match fuel with
  | 0 => failure
  | fuel + 1 => do
    if (← peek scan).kind = .flowSequenceEnd then
      advance
      return []
    else
      let token ← takeComma scan first
      match token.kind with
      | .flowSequenceEnd =>
        advance
        return []
      | .key =>
        advance
        let pair ← takeFlowPair scan fuel
        return .mapping token.line none [pair] :: (← takeFlowItems scan fuel false)
      | _ =>
        let item ← takeNode scan fuel false false
        return item :: (← takeFlowItems scan fuel false)

def takeFlowPair (scan : Scan) (fuel : Nat) : Reader (Node × Node) :=
  match fuel with
  | 0 => failure
  | fuel + 1 => do
    let token ← peek scan
    let ends (kind : TokenKind) : Bool := kind = .flowEntry || kind = .flowSequenceEnd
    let key ←
      if token.kind = .value || ends token.kind then do
        advance
        pure (emptyScalar token.line)
      else takeNode scan fuel false false
    let sign ← peek scan
    let value ←
      if sign.kind = .value then do
        advance
        let token ← peek scan
        if ends token.kind then pure (emptyScalar token.line) else takeNode scan fuel false false
      else pure (emptyScalar sign.line)
    return (key, value)

def takeFlowPairs (scan : Scan) (fuel : Nat) (first : Bool) : Reader (List (Node × Node)) :=
  match fuel with
  | 0 => failure
  | fuel + 1 => do
    if (← peek scan).kind = .flowMappingEnd then
      advance
      return []
    else
      let token ← takeComma scan first
      let ends (kind : TokenKind) : Bool := kind = .flowEntry || kind = .flowMappingEnd
      match token.kind with
      | .flowMappingEnd =>
        advance
        return []
      | .key =>
        advance
        let token ← peek scan
        let key ←
          if token.kind = .value || ends token.kind then pure (emptyScalar token.line)
          else takeNode scan fuel false false
        let sign ← peek scan
        let value ←
          if sign.kind = .value then do
            advance
            let token ← peek scan
            if ends token.kind then pure (emptyScalar token.line)
            else takeNode scan fuel false false
          else pure (emptyScalar sign.line)
        return (key, value) :: (← takeFlowPairs scan fuel false)
      | _ =>
        let key ← takeNode scan fuel false false
        let token ← peek scan
        return (key, emptyScalar token.line) :: (← takeFlowPairs scan fuel false)

end

def standardHandles : List (List Char × List Char) :=
  [(['!'], ['!']), (['!', '!'], coreTags)]

/-- Reads the directives in front of a document; only version 1.1 is known. -/
def takeDirectives (scan : Scan) :
    (fuel : Nat) → (versionSeen : Bool) → List (List Char × List Char) →
      Reader (List (List Char × List Char))
  | 0, _, _ => failure
  | fuel + 1, versionSeen, handles => do
    match (← peek scan).kind with
    | .version major minor =>
      if versionSeen || major ≠ 1 || minor ≠ 1 then failure
      else
        advance
        takeDirectives scan fuel true handles
    | .tagHandle handle expansion =>
      if (handles.lookup handle).isSome then failure
      else
        advance
        takeDirectives scan fuel versionSeen (handles ++ [(handle, expansion)])
    | _ => return handles

def takeContent (scan : Scan) (fuel : Nat) : Reader Node := do
  let token ← peek scan
  match token.kind with
  | .version .. => return emptyScalar token.line
  | .tagHandle .. => return emptyScalar token.line
  | .documentStart => return emptyScalar token.line
  | .documentEnd => return emptyScalar token.line
  | .streamEnd => return emptyScalar token.line
  | _ => takeNode scan fuel true false

/-- Reads the first document, to the token behind it. A text without one gives `none`. -/
def takeFirst (scan : Scan) : Reader (Option Node) := do
  let fuel := 4 * scan.tokens.size + 8
  let setHandles (handles : List (List Char × List Char)) : Reader Unit :=
    modify fun progress => { progress with handles := handles ++ standardHandles }
  let explicit : Reader (Option Node) := do
    setHandles (← takeDirectives scan fuel false [])
    if (← peek scan).kind = .documentStart then
      advance
      let root ← takeContent scan fuel
      let _ ← peek scan
      return some root
    else failure
  match (← peek scan).kind with
  | .streamEnd => return none
  | .version .. => explicit
  | .tagHandle .. => explicit
  | .documentStart => explicit
  | _ =>
    setHandles []
    let root ← takeNode scan fuel true false
    let _ ← peek scan
    return some root

/-- The first document of a text: `none` if the text is malformed, `some none` if it holds none. -/
def first (text : List Char) : Option (Option Document) := do
  let (root, progress) ← (takeFirst (scan text)).run {}
  return root.map fun root => { root, anchored := progress.anchored }

end Document

end IgaArchive.Yaml
