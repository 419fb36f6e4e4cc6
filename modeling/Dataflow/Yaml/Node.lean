import Dataflow.Yaml.Layout

/-!
# Nodes

The parts of a YAML document: scalars as they are written, sequences and mappings. The entries of a
mapping are in the order of the text, repeated keys included. What is left out is an empty plain
scalar. A node may have a number, by which references name it, and a tag.

Most functions here take something from the front of a list of tokens; `calls` bounds how deep the
calls go and is at least three times the number of tokens.
-/

namespace Dataflow.Yaml

abbrev Tokens := List Token

/-- A part of a document. -/
inductive Node where
  | scalar (tag : Option Tag) (text : String) (plain : Bool)
  | sequence (tag : Option Tag) (items : List Node)
  | mapping (tag : Option Tag) (entries : List (Node × Node))
  | anchored (number : Nat) (node : Node)
  | reference (number : Nat)
deriving Inhabited

namespace Node

/-- What stands where nothing is written. -/
def empty : Node := .scalar none "" true

/-- What is written in front of a node. -/
structure Properties where
  anchor : Option Nat := none
  tag : Option Tag := none
deriving Repr, Inhabited

/-- Takes the properties of a node: at most one anchor and one tag, in any order. -/
def takeProperties : Tokens → Properties × Tokens
  | .anchor n :: .tag t :: rest => (⟨some n, some t⟩, rest)
  | .tag t :: .anchor n :: rest => (⟨some n, some t⟩, rest)
  | .anchor n :: rest => (⟨some n, none⟩, rest)
  | .tag t :: rest => (⟨none, some t⟩, rest)
  | ts => ({}, ts)

/-- A node with the number that its properties give. -/
def Properties.number (p : Properties) (node : Node) : Node :=
  match p.anchor with
  | some n => .anchored n node
  | none => node

/-- The tag that the properties give a scalar that is written. -/
def Properties.scalarTag (p : Properties) : Option Tag :=
  if p.tag = some .mark then none else p.tag

/-- Where nothing is written behind properties, they belong to an empty scalar. -/
def Properties.alone (p : Properties) : Outcome Node :=
  if p.anchor.isNone && p.tag.isNone then .error (.unexpected "node content")
  else .ok (p.number (.scalar p.tag "" true))

/-- Where an entry of a block mapping ends without a node. -/
def endsEntry : Token → Bool
  | .key | .value | .blockEnd => true
  | _ => false

/-- Where an item without brackets and indentation of its own ends without a node. -/
def endsFlatItem : Token → Bool
  | .item | .key | .value | .blockEnd => true
  | _ => false

/-- Where an item of a block sequence ends without a node. -/
def endsItem : Token → Bool
  | .item | .blockEnd => true
  | _ => false

/-- Where an entry in square brackets ends without a node. -/
def endsPair : Token → Bool
  | .comma | .flowSequenceEnd => true
  | _ => false

/-- Where an entry in curly brackets ends without a node. -/
def endsFlowEntry : Token → Bool
  | .comma | .flowMappingEnd => true
  | _ => false

/-- Where a key behind a question mark in curly brackets ends without a node. -/
def endsFlowKey (t : Token) : Bool := t == .value || endsFlowEntry t

/-- Whether the next token satisfies a test. -/
def next (test : Token → Bool) (ts : Tokens) : Bool :=
  match ts with
  | t :: _ => test t
  | [] => false

/-- Drops the comma between two entries in brackets; there is none before the first one. -/
def dropComma (first : Bool) (wanted : String) : Tokens → Outcome (Tokens)
  | .comma :: rest => if first then .ok (.comma :: rest) else .ok rest
  | ts => if first then .ok ts else .error (.unexpected wanted)

mutual

/-- Takes a node. -/
def take (block flat : Bool) : (calls : Nat) → Tokens → Outcome (Node × Tokens)
  | 0, _ => .error .tooDeep
  | _ + 1, .reference n :: rest => .ok (.reference n, rest)
  | calls + 1, ts => do
    let (p, ts) := takeProperties ts
    match ← takeContent block flat p calls ts with
    | some (node, rest) => return (p.number node, rest)
    | none => return (← p.alone, ts)

/-- Takes what a node with the given properties holds, if there is anything. Block collections may
not stand in brackets, and a sequence at the column of the mapping around it only where `flat`
allows it. -/
def takeContent (block flat : Bool) (p : Properties) :
    (calls : Nat) → Tokens → Outcome (Option (Node × Tokens))
  | 0, _ => .error .tooDeep
  | calls + 1, ts =>
    match ts, flat, block with
    | .scalar text plain :: rest, _, _ => .ok (some (.scalar p.scalarTag text plain, rest))
    | .item :: _, true, _ => do
      let (items, rest) ← takeFlatItems calls ts
      return some (.sequence p.tag items, rest)
    | .flowSequence :: rest, _, _ => do
      let (items, rest) ← takeFlowItems true calls rest
      return some (.sequence p.tag items, rest)
    | .flowMapping :: rest, _, _ => do
      let (entries, rest) ← takeFlowEntries true calls rest
      return some (.mapping p.tag entries, rest)
    | .blockSequence :: rest, _, true => do
      let (items, rest) ← takeItems calls rest
      return some (.sequence p.tag items, rest)
    | .blockMapping :: rest, _, true => do
      let (entries, rest) ← takeEntries calls rest
      return some (.mapping p.tag entries, rest)
    | _, _, _ => .ok none

/-- Takes a node unless nothing is written before one of the given tokens. -/
def takeUnless (ends : Token → Bool) (block flat : Bool) :
    (calls : Nat) → Tokens → Outcome (Node × Tokens)
  | 0, _ => .error .tooDeep
  | calls + 1, ts => if next ends ts then .ok (empty, ts) else take block flat calls ts

/-- Takes the items of a block sequence and its end. -/
def takeItems : (calls : Nat) → Tokens → Outcome (List Node × Tokens)
  | calls + 1, .item :: rest => do
    let (item, rest) ← takeUnless endsItem true false calls rest
    let (items, rest) ← takeItems calls rest
    return (item :: items, rest)
  | _, .blockEnd :: rest => .ok ([], rest)
  | _, _ => .error (.unexpected "'-' indicator")

/-- Takes the items of a block sequence that has no column of its own. -/
def takeFlatItems : (calls : Nat) → Tokens → Outcome (List Node × Tokens)
  | calls + 1, .item :: rest => do
    let (item, rest) ← takeUnless endsFlatItem true false calls rest
    let (items, rest) ← takeFlatItems calls rest
    return (item :: items, rest)
  | _, ts => .ok ([], ts)

/-- Takes a value if there is one. -/
def takeValue (ends : Token → Bool) (block : Bool) :
    (calls : Nat) → Tokens → Outcome (Node × Tokens)
  | calls + 1, .value :: rest => takeUnless ends block block calls rest
  | _, ts => .ok (empty, ts)

/-- Takes the entries of a block mapping and its end. -/
def takeEntries : (calls : Nat) → Tokens → Outcome (List (Node × Node) × Tokens)
  | calls + 1, .key :: rest => do
    let (key, rest) ← takeUnless endsEntry true true calls rest
    let (value, rest) ← takeValue endsEntry true calls rest
    let (entries, rest) ← takeEntries calls rest
    return ((key, value) :: entries, rest)
  | _, .blockEnd :: rest => .ok ([], rest)
  | _, _ => .error (.unexpected "key")

/-- Takes the items in square brackets and the closing one. An item with a key is a mapping of one
entry. -/
def takeFlowItems (first : Bool) : (calls : Nat) → Tokens → Outcome (List Node × Tokens)
  | 0, _ => .error .tooDeep
  | _, .flowSequenceEnd :: rest => .ok ([], rest)
  | calls + 1, ts => do
    match ← dropComma first "',' or ']'" ts with
    | .flowSequenceEnd :: rest => return ([], rest)
    | .key :: rest =>
      let (key, rest) ← takePairKey calls rest
      let (value, rest) ← takeValue endsPair false calls rest
      let (items, rest) ← takeFlowItems false calls rest
      return (.mapping none [(key, value)] :: items, rest)
    | ts =>
      let (item, rest) ← take false false calls ts
      let (items, rest) ← takeFlowItems false calls rest
      return (item :: items, rest)

/-- Takes the key of an item in square brackets. A mark where it should begin is lost. -/
def takePairKey : (calls : Nat) → Tokens → Outcome (Node × Tokens)
  | calls + 1, ts =>
    match ts with
    | .value :: rest | .comma :: rest | .flowSequenceEnd :: rest => .ok (empty, rest)
    | _ => take false false calls ts
  | 0, _ => .error .tooDeep

/-- Takes the entries in curly brackets and the closing one. A key without a colon has an empty
value. -/
def takeFlowEntries (first : Bool) : (calls : Nat) → Tokens →
    Outcome (List (Node × Node) × Tokens)
  | 0, _ => .error .tooDeep
  | _, .flowMappingEnd :: rest => .ok ([], rest)
  | calls + 1, ts => do
    match ← dropComma first "',' or '\x7d'" ts with
    | .flowMappingEnd :: rest => return ([], rest)
    | .key :: rest =>
      let (key, rest) ← takeUnless endsFlowKey false false calls rest
      let (value, rest) ← takeValue endsFlowEntry false calls rest
      let (entries, rest) ← takeFlowEntries false calls rest
      return ((key, value) :: entries, rest)
    | ts =>
      let (key, rest) ← take false false calls ts
      let (entries, rest) ← takeFlowEntries false calls rest
      return ((key, empty) :: entries, rest)

end

/-- Whether a document ends without a node. -/
def endsDocument : Token → Bool
  | .directive | .documentStart | .documentEnd => true
  | _ => false

/-- The only document of a stream of tokens; none if there is no document. Directives need a mark
where the document starts. -/
def ofTokens? (ts : Tokens) : Outcome (Option Node) := do
  let calls := 3 * ts.length + 3
  let document (step : Outcome (Node × Tokens)) : Outcome (Option Node) := do
    let (node, rest) ← step
    match rest.dropWhile (· == .documentEnd) with
    | [] => return some node
    | _ => throw .manyDocuments
  match ts, ts.dropWhile (· == .directive) with
  | [], _ => return none
  | _, [.documentStart] => return some empty
  | _, .documentStart :: rest => document (takeUnless endsDocument true false calls rest)
  | ts, _ => document (take true false calls ts)

end Node

end Dataflow.Yaml
