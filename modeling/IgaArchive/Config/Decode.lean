import IgaArchive.Config.Basic
import IgaArchive.Text.Base64
import IgaArchive.Text.Quoted
import IgaArchive.Yaml.Node
import IgaArchive.Yaml.Value

/-!
Reading a configuration from a YAML document. Values of the wrong type, unknown fields and repeated
keys are collected as complaints, each with its line; a document that cannot be read at all is
malformed. A null value leaves its field alone.
-/

namespace IgaArchive.Config

open Yaml (Node Document Value)

structure Reading where
  /-- Complaints in the order they were found. -/
  complaints : List Bytes := []
  /-- While a merged mapping is read, the names that are already given. -/
  given : Option (List Bytes) := none

abbrev Decoder := StateT Reading Option

def complain (line : Nat) (text : Bytes) : Decoder Unit :=
  modify fun reading =>
    { reading with
      complaints := reading.complaints ++ [utf8 "line " ++ Numeral.decimal line ++ utf8 ": " ++ text] }

def tagOf : Node → String
  | .scalar _ (some tag) _ _ => tag
  | .scalar _ none text style =>
    if style ≠ .plain then "!!str" else if text = "<<" then "!!merge" else (Value.ofText true text).tag
  | .sequence _ tag _ => tag.getD "!!seq"
  | .mapping _ tag _ => tag.getD "!!map"
  | .reference .. => ""

/-- The text of a scalar, or the name of an alias. -/
def textOf : Node → String
  | .scalar _ _ text _ => text
  | .reference _ name _ _ => name
  | _ => ""

/-- Complains that a node does not fit a type. Long texts are cut. -/
def mistyped (node : Node) (type : String) : Decoder Unit :=
  let tag := tagOf node
  let text := utf8 (textOf node)
  let shown :=
    if tag = "!!seq" ∨ tag = "!!map" then text
    else if text.length > 10 then utf8 " `" ++ text.take 7 ++ utf8 "...`"
    else utf8 " `" ++ text ++ utf8 "`"
  complain node.line (utf8 "cannot unmarshal " ++ utf8 tag ++ shown ++ utf8 " into " ++ utf8 type)

/-- What a scalar stands for, once its tag is taken into account. -/
inductive Meaning where
  | value (value : Value)
  | text (bytes : Bytes)

/-- The types whose tags are checked against the text. -/
def checkedTags : List String := ["!!bool", "!!int", "!!float", "!!null", "!!timestamp"]

/-- The meaning of a scalar. A text that is not of the type its tag names is malformed. -/
def meaning (tag text : String) : Option Meaning :=
  if tag = "!!binary" then (Base64.decode? text.toList).map .text
  else if tag ∉ checkedTags then some (.text (utf8 text))
  else
    match Value.ofText (tag = "!!timestamp") text with
    | .int z =>
      if tag = "!!int" then some (.value (.int z))
      else if tag = "!!float" ∧ z ≤ Int64.maxValue.toInt then some (.value (.float (Float.ofInt z)))
      else none
    | value => if value.tag = tag then some (.value value) else none

/-- The pairs of positions whose keys are the same, each with the earlier one first. -/
def repeated (keys : List Node) : List (Node × Node) :=
  match keys with
  | [] => []
  | key :: rest =>
    (rest.filter fun other => same key other).map (fun other => (key, other)) ++ repeated rest
where
  same : Node → Node → Bool
    | .scalar _ _ a _, .scalar _ _ b _ => a == b
    | .reference _ a _ _, .reference _ b _ _ => a == b
    | .sequence .., .sequence .. => true
    | .mapping .., .mapping .. => true
    | _, _ => false

def checkKeys (pairs : List (Node × Node)) : Decoder Bool := do
  let twice := repeated (pairs.map Prod.fst)
  twice.forM fun (first, second) =>
    complain second.line (utf8 "mapping key " ++ Quoted.text (utf8 (textOf second)) ++
      utf8 " already defined at line " ++ Numeral.decimal first.line)
  return twice.isEmpty

/-- The node an alias points to. Inside itself an alias cannot be followed. -/
def follow (document : Document) (active : List Nat) (number target : Nat) : Option Node :=
  if active.contains number then none else (document.anchored[target]?).join

/-- Reads a scalar with a function that gives `none` for a meaning of the wrong type. Gives `none`
if nothing was read. -/
def scalarNode (node : Node) (type : String) {α : Type} (read : String → Meaning → Option α) :
    Decoder (Option α) := do
  match node with
  | .scalar _ _ text _ =>
    match ← (meaning (tagOf node) text : Option Meaning) with
    | .value .null => return none
    | meant =>
      match read text meant with
      | some a => return some a
      | none =>
        mistyped node type
        return none
  | .mapping _ _ pairs =>
    if ← checkKeys pairs then mistyped node type
    return none
  | _ =>
    mistyped node type
    return none

def scalar (document : Document) (active : List Nat) (node : Node) (type : String) {α : Type}
    (read : String → Meaning → Option α) : Decoder (Option α) := do
  match node with
  | .reference _ _ number target =>
    match follow document active number target with
    | some node => scalarNode node type read
    | none => failure
  | _ => scalarNode node type read

def readText (text : String) : Meaning → Option Bytes
  | .text bytes => some bytes
  | .value _ => some (utf8 text)

/-- Numbers with a fraction lose it. -/
def readInt (_ : String) : Meaning → Option Int64
  | .value (.int z) => if z ≤ Int64.maxValue.toInt then some (Int64.ofInt z) else none
  | .value (.float x) => if x ≤ 9223372036854775808.0 then some (Fixed.toInt64 x) else none
  | _ => none

def readBool (_ : String) : Meaning → Option Bool
  | .value (.bool b) => some b
  | .text bytes =>
    if (["y", "Y", "yes", "Yes", "YES", "on", "On", "ON"].map utf8).contains bytes then some true
    else if (["n", "N", "no", "No", "NO", "off", "Off", "OFF"].map utf8).contains bytes then some false
    else none
  | _ => none

/-- How the fields of a structure are read: for a name, the function that takes in a node. -/
structure Shape (σ : Type) where
  type : String
  field? : Bytes → Option (List Nat → Node → σ → Decoder σ)

def isMerge (key : Node) : Bool :=
  match key with
  | .scalar _ _ text _ => text == "<<" && tagOf key == "!!merge"
  | _ => false

/-- Reads the pairs of a mapping into a structure. Gives the mapping to merge in, if there is one. -/
def takePairs (document : Document) (active : List Nat) {σ : Type} (shape : Shape σ)
    (given : Option (List Bytes)) :
    List (Node × Node) → (done : List Bytes) → Option Node → σ →
      Decoder (σ × Option (List Bytes) × Option Node)
  | [], _, merge, state => return (state, given, merge)
  | (key, node) :: rest, done, merge, state => do
    if isMerge key then takePairs document active shape given rest done (some node) state
    else
      match ← scalar document active key "string" readText with
      | none => takePairs document active shape given rest done merge state
      | some name =>
        if given.any (·.contains name) then takePairs document active shape given rest done merge state
        else
          let given := given.map (name :: ·)
          match shape.field? name with
          | none =>
            complain key.line (utf8 "field " ++ name ++ utf8 " not found in type " ++ utf8 shape.type)
            takePairs document active shape given rest done merge state
          | some field =>
            if done.contains name then
              complain key.line
                (utf8 "field " ++ name ++ utf8 " already set in type " ++ utf8 shape.type)
              takePairs document active shape given rest done merge state
            else
              let state ← field active node state
              takePairs document active shape given rest (name :: done) merge state

def keyNames (document : Document) (pairs : List (Node × Node)) : List Bytes :=
  pairs.filterMap fun (key, _) =>
    let key :=
      match key with
      | .reference _ _ _ target => ((document.anchored[target]?).join).getD key
      | _ => key
    match key with
    | .scalar _ _ text _ =>
      match meaning (tagOf key) text with
      | some (.text bytes) => some bytes
      | _ => none
    | _ => none

def merged (document : Document) (node : Node) : Option (List Node) :=
  let isMapping : Node → Bool
    | .mapping .. => true
    | .reference _ _ _ target =>
      match (document.anchored[target]?).join with
      | some (.mapping ..) => true
      | _ => false
    | _ => false
  match node with
  | .sequence _ _ items => if items.all isMapping then some items else none
  | node => if isMapping node then some [node] else none

/-- Reads a node into a structure. Aliases are followed and merges brought in; `fuel` bounds how deep
they go. -/
def structureNode (document : Document) {σ : Type} (shape : Shape σ) :
    (fuel : Nat) → (active : List Nat) → Node → σ → Decoder σ
  | 0, _, _, _ => failure
  | fuel + 1, active, node, state => do
    match node with
    | .reference _ _ number target =>
      match follow document active number target with
      | some node => structureNode document shape fuel (number :: active) node state
      | none => failure
    | .mapping _ _ pairs =>
      if ← checkKeys pairs then
        let given := (← get).given
        modify ({ · with given := none })
        let (state, given, merge) ← takePairs document active shape given pairs [] none state
        modify ({ · with given })
        match merge with
        | none => return state
        | some node =>
          match merged document node with
          | none => failure
          | some nodes =>
            modify fun reading =>
              { reading with given := reading.given.or (some (keyNames document pairs)) }
            let state ← nodes.foldlM (fun state node =>
              structureNode document shape fuel active node state) state
            modify fun reading => { reading with given := if given.isSome then reading.given else none }
            return state
      else return state
    | _ =>
      let _ ← scalarNode node shape.type fun _ _ => (none : Option Unit)
      return state

variable {σ α : Type}

def scalarField (document : Document) (type : String) (read : String → Meaning → Option α)
    (put : α → σ → σ) : List Nat → Node → σ → Decoder σ :=
  fun active node state => do
    match ← scalar document active node type read with
    | some a => return put a state
    | none => return state

def logShape (document : Document) : Shape LogConfig where
  type := "config.LogConfig"
  field? name := List.lookup name [
    (utf8 "file", scalarField document "string" readText fun a c => { c with file := a }),
    (utf8 "maxSizeMB", scalarField document "int" readInt fun a c => { c with maxSizeMB := a }),
    (utf8 "maxAgeDays", scalarField document "int" readInt fun a c => { c with maxAgeDays := a }),
    (utf8 "maxBackups", scalarField document "int" readInt fun a c => { c with maxBackups := a }),
    (utf8 "compress", scalarField document "bool" readBool fun a c => { c with compress := a }),
    (utf8 "verbose", scalarField document "bool" readBool fun a c => { c with verbose := a })]

def configShape (document : Document) (fuel : Nat) : Shape Config where
  type := "config.Config"
  field? name := List.lookup name [
    (utf8 "outputDir", scalarField document "string" readText fun a c => { c with outputDir := a }),
    (utf8 "forceDecrypt", scalarField document "bool" readBool fun a c => { c with forceDecrypt := a }),
    (utf8 "bufferSize", scalarField document "int" readInt fun a c => { c with bufferSize := a }),
    (utf8 "progress", scalarField document "bool" readBool fun a c => { c with progress := a }),
    (utf8 "logs", fun active node config => do
      let logs ← structureNode document (logShape document) fuel active node config.logs
      return { config with logs })]

inductive DecodeError where
  | malformed
  /-- The text is YAML, but these complaints were found. -/
  | mistyped (complaints : List Bytes)
  deriving DecidableEq, Repr

/-- The configuration in a text, before defaults; an empty text leaves everything open. -/
def decode (text : List Char) : Except DecodeError Config :=
  match Document.first text with
  | none => .error .malformed
  | some none => .ok {}
  | some (some document) =>
    let fuel := (text.length + 2) * (text.length + 2)
    match (structureNode document (configShape document fuel) fuel [] document.root {}).run {} with
    | none => .error .malformed
    | some (config, reading) =>
      if reading.complaints.isEmpty then .ok config else .error (.mistyped reading.complaints)

end IgaArchive.Config
