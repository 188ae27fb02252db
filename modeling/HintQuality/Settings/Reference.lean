import HintQuality.Failure
import HintQuality.Text.Lines
/-!
# References between settings

Texts in settings may refer to other settings, `$` and the name in braces. A text that is one reference becomes what it
refers to; references inside a longer text become text. Names are looked up in the whole of the settings, or, with
leading dots, in the objects around the text. A backslash in front makes a reference plain text.
-/

namespace HintQuality.Settings

/-- A part of a text with references. -/
inductive Part where
  /-- Text that stands for itself. -/
  | text (s : List Char)
  /-- A reference: how many objects it looks outwards, if it does not look from the root, and the names to follow. -/
  | reference (outwards : Option Nat) (names : List String)
  /-- A call of a function. -/
  | call
  deriving DecidableEq, Repr

/-- Whether a text holds something that looks like a reference. -/
def mayRefer : List Char → Bool
  | '$' :: '{' :: _ => true
  | _ :: s => mayRefer s
  | [] => false

/-- Whether a character may stand in a name. -/
def isNameChar (c : Char) : Bool :=
  !(['\\', '{', '}', '(', ')', '[', ']', ':', '.', ' ', '\t', '\'', '"'].contains c)

/-- The names in brackets behind a name. -/
def bracketNames : Nat → List Char → Option (List String)
  | _, [] => some []
  | 0, _ => none
  | fuel + 1, '[' :: s =>
    match s.dropWhile (· ≠ ']') with
    | ']' :: rest => (bracketNames fuel rest).map (String.ofList (s.takeWhile (· ≠ ']')) :: ·)
    | _ => none
  | _, _ => none

/-- The names in a piece between dots. -/
def pieceNames (s : List Char) : Option (List String) :=
  let head := s.takeWhile (· ≠ '[')
  (bracketNames s.length (s.dropWhile (· ≠ '['))).map fun more =>
    if head.isEmpty && !more.isEmpty then more else String.ofList head :: more

/-- The names in a dotted name. -/
def dottedNames (s : List Char) : Option (List String) :=
  ((Text.pieces '.' s).mapM pieceNames).map List.flatten

/-- The reference between braces. -/
def readReference (s : List Char) : Option Part :=
  let blank (c : Char) : Bool := c = ' ' || c = '\t'
  let s := ((s.dropWhile blank).reverse.dropWhile blank).reverse
  if s.contains ':' then some .call
  else
    let dots := (s.takeWhile (· = '.')).length
    match dottedNames (s.drop dots) with
    | some names =>
      if names.all fun n => !n.isEmpty && n.toList.all isNameChar then
        some (.reference (if dots = 0 then none else some (dots - 1)) names)
      else none
    | none => none

/-- Puts text in front of parts. -/
def consText (s : List Char) : List Part → List Part
  | .text t :: ps => .text (s ++ t) :: ps
  | ps => .text s :: ps

/-- The parts of a text, where `fuel` bounds its length; none if a reference is not well formed. -/
def readParts : Nat → List Char → Option (List Part)
  | _, [] => some []
  | 0, _ => none
  | fuel + 1, '\\' :: '$' :: '{' :: s => (readParts fuel s).map (consText ['$', '{'])
  | fuel + 1, '$' :: '{' :: s =>
    match s.dropWhile (· ≠ '}') with
    | '}' :: rest => do
      let p ← readReference (s.takeWhile (· ≠ '}'))
      return p :: (← readParts fuel rest)
    | _ => none
  | fuel + 1, c :: s => (readParts fuel s).map (consText [c])

/-- The parts of a text. -/
def partsOf (s : String) : Except Failure (List Part) :=
  match readParts (s.length + 1) s.toList with
  | some ps => .ok ps
  | none => .error (.unresolvedSettings .malformed)

/-! ## Well-formed settings -/

mutual

/-- Fails if some text holds a reference that is not well formed. -/
def checkReferences : Json → Except Failure Unit
  | .str s => if mayRefer s.toList then (partsOf s).map fun _ => () else .ok ()
  | .arr items => checkItems items
  | .obj fields => checkFields fields
  | _ => .ok ()

/-- `checkReferences` on every item. -/
def checkItems : List Json → Except Failure Unit
  | [] => .ok ()
  | v :: vs => do
    checkReferences v
    checkItems vs

/-- `checkReferences` on every field. -/
def checkFields : List (String × Json) → Except Failure Unit
  | [] => .ok ()
  | (_, v) :: fs => do
    checkReferences v
    checkFields fs

end

/-! ## Resolving -/

/-- The value of a name in an object, or of a number in a list. -/
def childOf (v : Json) (name : String) : Option Json :=
  match v with
  | .obj fields => fields.lookup name
  | .arr items => name.toNat?.bind fun i => items[i]?
  | _ => none

/-- The value at the end of names. -/
def select (v : Json) (names : List String) : Option Json :=
  names.foldlM childOf v

/-- The mark of a setting that is to be filled in. -/
def missingMark : String := "???"

mutual

/-- The number of values in a value. -/
def count : Json → Nat
  | .arr items => countItems items + 1
  | .obj fields => countFields fields + 1
  | _ => 1

/-- The number of values in items. -/
def countItems : List Json → Nat
  | [] => 0
  | v :: vs => count v + countItems vs

/-- The number of values in fields. -/
def countFields : List (String × Json) → Nat
  | [] => 0
  | (_, v) :: fs => count v + countFields fs

end

mutual

/-- A value with its references replaced by what they refer to in `root`. It stands in the container at the end of
`way`; `fuel` bounds the steps from reference to reference. -/
def resolveAt (root : Json) : Nat → List String → Json → Except Failure Json
  | 0, _, _ => .error (.unresolvedSettings .circular)
  | fuel + 1, way, v =>
    match v with
    | .str s =>
      if !mayRefer s.toList then .ok v
      else do
        match ← partsOf s with
        | [.text t] => return .str (String.ofList t)
        | [p] => resolvePart root fuel way p
        | ps => return .str (String.join (← ps.mapM fun p => (resolvePart root fuel way p).map Json.display))
    | .arr items => do
      return .arr (← items.zipIdx.mapM fun p => resolveAt root fuel way p.1)
    | .obj fields => do
      return .obj (← fields.mapM fun f => (resolveAt root fuel (way ++ [f.1]) f.2).map (f.1, ·))
    | v => .ok v

/-- What a part of a text in the container at the end of `way` stands for. -/
def resolvePart (root : Json) : Nat → List String → Part → Except Failure Json
  | 0, _, _ => .error (.unresolvedSettings .circular)
  | _, _, .text s => .ok (.str (String.ofList s))
  | _, _, .call => .error (.unresolvedSettings .unknownFunction)
  | fuel + 1, way, .reference outwards names =>
    let target := match outwards with
      | none => names
      | some n => way.dropLast.take (way.dropLast.length - n) ++ names
    match select root target with
    | none => .error (.unresolvedSettings .unknownKey)
    | some (.str s) =>
      if s = missingMark then .error (.unresolvedSettings .missing) else resolveAt root fuel target (.str s)
    | some v => resolveAt root fuel target v

end

/-- Settings with all references replaced. -/
def resolve (root : Json) : Except Failure Json :=
  resolveAt root ((count root + 2) * (count root + 2)) [] root

end HintQuality.Settings
