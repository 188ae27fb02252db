import HintQuality.Yaml.Token
/-!
# Nodes of structured text

The tree that the tokens of a document describe, with references in place of what they refer to. A document is one
node, and a text is at most one document.
-/

namespace HintQuality.Yaml

/-- A node of a document. -/
inductive Node where
  /-- Text as it is written, plain or not. -/
  | scalar (text : String) (isPlain : Bool)
  /-- Several nodes. -/
  | sequence (items : List Node)
  /-- Pairs of a key and a value. -/
  | mapping (entries : List (Node × Node))
  /-- A node with a tag. -/
  | tagged (tag : String) (node : Node)
  deriving Repr, Inhabited

namespace Node

/-- A node that is not there. -/
def empty : Node := scalar "" true

/-- Where the reading of nodes stands: the tokens left, and the nodes that can be referred to. -/
structure State where
  tokens : List Token
  anchors : List (String × Node) := []

/-- Reading nodes. -/
abbrev Reader := StateT State (Except Failure)

/-- Fails since the tokens do not fit. -/
def misfit {α : Type} : Reader α :=
  throw (.malformedSettings .badStructure)

/-- The next token. -/
def peek : Reader Token := do
  match (← get).tokens with
  | .broken :: _ => throw (.malformedSettings .badToken)
  | t :: _ => return t
  | [] => return .streamEnd

/-- Goes on to the token after the next. -/
def drop : Reader Unit :=
  modify fun s => { s with tokens := s.tokens.tail }

/-- Whether the next token is one of some tokens. -/
def isAt (ts : List Token) : Reader Bool := do
  return ts.contains (← peek)

/-- Reads a token that has to be there. -/
def expect (t : Token) : Reader Unit := do
  if ← isAt [t] then drop else misfit

/-- The anchor and the tag in front of a node, in either order. -/
def properties : Nat → Option String → Option String → Reader (Option String × Option String)
  | 0, anchor, tag => return (anchor, tag)
  | fuel + 1, anchor, tag => do
    match ← peek, anchor, tag with
    | .anchor name, none, _ =>
      drop
      properties fuel (some name) tag
    | .tag name, _, none =>
      drop
      properties fuel anchor (some name)
    | _, _, _ => return (anchor, tag)

/-- Makes a node known by the name of its anchor, and gives it its tag. -/
def name (anchor tag : Option String) (n : Node) : Reader Node := do
  let n := match tag with
    | some t => tagged t n
    | none => n
  match anchor with
  | none => return n
  | some a =>
    if ((← get).anchors.lookup a).isSome then throw (.malformedSettings .badReference)
    else
      modify fun s => { s with anchors := (a, n) :: s.anchors }
      return n

mutual

/-- A node. Collections of lines may stand only where `block` says so, and a sequence of lines that is not indented
only where `indentless` says so. -/
def read (block indentless : Bool) : Nat → Reader Node
  | 0 => misfit
  | fuel + 1 => do
    match ← peek with
    | .reference a =>
      drop
      match (← get).anchors.lookup a with
      | some n => return n
      | none => throw (.malformedSettings .badReference)
    | _ =>
      let (anchor, tag) ← properties 2 none none
      match ← peek, block, indentless with
      | .entry, _, true => name anchor tag (sequence (← readEntries false fuel))
      | .scalar text isPlain, _, _ =>
        drop
        name anchor tag (scalar text isPlain)
      | .openBracket, _, _ =>
        drop
        name anchor tag (sequence (← readItems true fuel))
      | .openBrace, _, _ =>
        drop
        name anchor tag (mapping (← readFields true fuel))
      | .sequenceStart, true, _ =>
        drop
        name anchor tag (sequence (← readEntries true fuel))
      | .mappingStart, true, _ =>
        drop
        name anchor tag (mapping (← readPairs fuel))
      | _, _, _ => if anchor.isSome || tag.isSome then name anchor tag empty else misfit

/-- A node, unless one of some tokens comes instead. -/
def readUnless (stops : List Token) (block indentless : Bool) : Nat → Reader Node
  | 0 => misfit
  | fuel + 1 => do
    if ← isAt stops then return empty else read block indentless fuel

/-- The entries of a sequence of lines; one that is indented has an end mark. -/
def readEntries (isIndented : Bool) : Nat → Reader (List Node)
  | 0 => misfit
  | fuel + 1 => do
    if ← isAt [.entry] then
      drop
      let stops := if isIndented then [.entry, .blockEnd] else [.entry, .key, .value, .blockEnd]
      let n ← readUnless stops true false fuel
      return n :: (← readEntries isIndented fuel)
    else if isIndented then
      expect .blockEnd
      return []
    else return []

/-- The pairs of a mapping of lines. -/
def readPairs : Nat → Reader (List (Node × Node))
  | 0 => misfit
  | fuel + 1 => do
    if ← isAt [.key] then
      drop
      let stops := [.key, .value, .blockEnd]
      let k ← readUnless stops true true fuel
      let v ← if ← isAt [.value] then do
          drop
          readUnless stops true true fuel
        else pure empty
      return (k, v) :: (← readPairs fuel)
    else
      expect .blockEnd
      return []

/-- The items between brackets. -/
def readItems (isFirst : Bool) : Nat → Reader (List Node)
  | 0 => misfit
  | fuel + 1 => do
    if ← isAt [.closeBracket] then
      drop
      return []
    else
      if !isFirst then expect .comma
      if ← isAt [.closeBracket] then
        drop
        return []
      else if ← isAt [.key] then
        drop
        let k ← readUnless [.value, .comma, .closeBracket] false false fuel
        let v ← readValue .closeBracket fuel
        return mapping [(k, v)] :: (← readItems false fuel)
      else
        let n ← read false false fuel
        return n :: (← readItems false fuel)

/-- The pairs between braces. -/
def readFields (isFirst : Bool) : Nat → Reader (List (Node × Node))
  | 0 => misfit
  | fuel + 1 => do
    if ← isAt [.closeBrace] then
      drop
      return []
    else
      if !isFirst then expect .comma
      if ← isAt [.closeBrace] then
        drop
        return []
      else if ← isAt [.key] then
        drop
        let k ← readUnless [.value, .comma, .closeBrace] false false fuel
        let v ← readValue .closeBrace fuel
        return (k, v) :: (← readFields false fuel)
      else
        let k ← read false false fuel
        return (k, empty) :: (← readFields false fuel)

/-- The value behind a key between brackets or braces, if it has one. -/
def readValue (close : Token) : Nat → Reader Node
  | 0 => misfit
  | fuel + 1 => do
    if ← isAt [.value] then
      drop
      readUnless [.comma, close] false false fuel
    else return empty

end

/-- Skips marks of ends of documents. -/
def skipEnds : Nat → Reader Unit
  | 0 => return
  | fuel + 1 => do
    if ← isAt [.documentEnd] then
      drop
      skipEnds fuel

/-- Skips directives. -/
def skipDirectives : Nat → Reader Unit
  | 0 => return
  | fuel + 1 => do
    if ← isAt [.directive] then
      drop
      skipDirectives fuel

/-- The start of a document that is not the first thing in a text; false at the end of the text. -/
def startDocument (fuel : Nat) : Reader Bool := do
  skipEnds fuel
  if ← isAt [.streamEnd] then return false
  else
    skipDirectives fuel
    expect .documentStart
    return true

/-- The node of a document; only one that is marked as a document may be empty. -/
def readContent (isMarked : Bool) (fuel : Nat) : Reader Node := do
  let stops := if isMarked then [.directive, .documentStart, .documentEnd, .streamEnd] else []
  let n ← readUnless stops true false fuel
  if ← isAt [.documentEnd] then drop
  return n

/-- The only document of a text, if there is one. -/
def readDocument (fuel : Nat) : Reader (Option Node) := do
  let isMarked ← isAt [.directive, .documentStart, .streamEnd]
  let isThere ← if isMarked then startDocument fuel else pure true
  if !isThere then return none
  else
    let n ← readContent isMarked fuel
    if ← startDocument fuel then throw (.malformedSettings .badReference) else return some n

/-- The only document that tokens make up, if there is one. -/
def ofTokens (ts : List Token) : Except Failure (Option Node) :=
  (·.1) <$> (readDocument (4 * ts.length + 4)).run { tokens := ts }

end Node

end HintQuality.Yaml
