import HintQuality.Json.Digits
import HintQuality.Json.Display
import HintQuality.Tree.Basic
/-!
# Trees from JSON

A node is an object with a `type`, perhaps a `value` and an `id`, and `children` by label. The order of the children
is `childrenOrder`, or that of their labels when it is missing. Text is made of any value where text is wanted, unless
an integer in it has too many digits; a null child is a placeholder node. `Fault` lists all that can be wrong with a
value that is not such a node.
-/

namespace HintQuality

namespace Tree

/-- What keeps a JSON value from being a node. -/
inductive Fault where
  /-- A field or a child that is not there. -/
  | missing (key : String)
  /-- A node whose type is null. -/
  | nullType
  /-- Children that have no labels to take the order from. -/
  | noLabels (children : Json)
  /-- A value, found where an object is wanted, that cannot be asked for a field. -/
  | notIndexed (v : Json)
  /-- An order that is no sequence. -/
  | notSequence (order : Json)
  /-- A value with an integer of more digits than are written. -/
  | tooManyDigits
  deriving Repr

/-- The name of the kind of a JSON value. -/
def kindName : Json → String
  | .null => "NoneType"
  | .bool _ => "bool"
  | .int _ => "int"
  | .float _ => "float"
  | .str _ => "str"
  | .arr _ => "list"
  | .obj _ => "dict"

/-- The fault, as the reports of unreadable trees spell it. -/
def Fault.text : Fault → String
  | missing key => "KeyError(" ++ Text.quoted key ++ ")"
  | nullType => "ValueError('node type is null')"
  | noLabels v => "AttributeError(\"'" ++ kindName v ++ "' object has no attribute 'keys'\")"
  | notIndexed (.arr _) => "TypeError('list indices must be integers or slices, not str')"
  | notIndexed (.str _) => "TypeError(\"string indices must be integers, not 'str'\")"
  | notIndexed v => "TypeError(\"'" ++ kindName v ++ "' object is not subscriptable\")"
  | notSequence v => "TypeError(\"'" ++ kindName v ++ "' object is not iterable\")"
  | tooManyDigits =>
    "ValueError('Exceeds the limit (" ++ Text.natText Json.digitLimit ++
      " digits) for integer string conversion; use sys.set_int_max_str_digits() to increase the limit')"

/-- The children of a node as read one by one: each label with its subtree, or with what is wrong there. -/
abbrev Candidates := List (String × Except Fault Tree)

/-- A value as text, if its integers can be written. -/
def textOf (v : Json) : Except Fault String :=
  if v.isShort then .ok v.display else .error .tooManyDigits

/-- The label of a node object. -/
def readLabel (fields : Json.Fields) : Except Fault Label :=
  match fields.get? "type" with
  | none => .error (.missing "type")
  | some .null => .error .nullType
  | some v => do
    let type ← textOf v
    let value ← (fields.given? "value").mapM textOf
    let id ← (fields.given? "id").mapM textOf
    return { type, value, id }

/-- What names the children of a node object, in the order in which they are taken. -/
def readOrder (fields : Json.Fields) (children : Json) : Except Fault (List Json) :=
  match fields.given? "childrenOrder" with
  | some (.arr items) => .ok items
  | some (.str s) => .ok (s.toList.map fun c => .str (String.singleton c))
  | some (.obj entries) => .ok (entries.map fun e => .str e.1)
  | some v => .error (.notSequence v)
  | none =>
    match children with
    | .obj entries => .ok (entries.map fun e => .str e.1)
    | v => .error (.noLabels v)

/-- The child under a label. -/
def pick (children : Json) (candidates : Candidates) (relation : String) : Except Fault Tree :=
  match children with
  | .obj _ => (candidates.lookup relation).getD (.error (.missing relation))
  | v => .error (.notIndexed v)

/-- Puts the children into slots in the given order. A label that comes again is read again and then skipped. -/
def fillSlots (children : Json) (candidates : Candidates) :
    List (Slot Tree) → List Json → Except Fault (List (Slot Tree))
  | slots, [] => .ok slots
  | slots, v :: order => do
    let relation ← textOf v
    let t ← pick children candidates relation
    fillSlots children candidates ((Slots.insert slots (some t) (some relation)).getD slots) order

/-- A node from its fields and its children as read one by one. -/
def assemble (fields : Json.Fields) (candidates : Candidates) : Except Fault Tree := do
  let label ← readLabel fields
  match fields.get? "children" with
  | none => return leaf label
  | some children =>
    if children.isEmptyLike then return leaf label
    let order ← readOrder fields children
    return node label (← fillSlots children candidates [] order)

mutual

/-- Reads a node. -/
def ofJson : Json → Except Fault Tree
  | .obj fields => assemble fields (candidates fields)
  | v => .error (.notIndexed v)

/-- Reads the children of a node, given its fields. -/
def candidates : List (String × Json) → Candidates
  | [] => []
  | (name, v) :: fields => if name = "children" then entryCandidates v else candidates fields

/-- Reads the values of an object of children. -/
def entryCandidates : Json → Candidates
  | .obj entries => listCandidates entries
  | _ => []

/-- Reads children by label; null stands for a placeholder. -/
def listCandidates : List (String × Json) → Candidates
  | [] => []
  | (relation, .null) :: entries => (relation, .ok (leaf { type := emptyType })) :: listCandidates entries
  | (relation, v) :: entries => (relation, ofJson v) :: listCandidates entries

end

end Tree

end HintQuality
