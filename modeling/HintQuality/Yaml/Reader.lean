import HintQuality.Json.Display
import HintQuality.Yaml.Node
import HintQuality.Yaml.Scalar
/-!
# Reading structured text

The value that a document stands for. The keys of a mapping are scalars, and none that is text occurs twice; the key
`<<` takes over the fields of other mappings, below those of its own.
-/

namespace HintQuality.Yaml

/-- Fails since a value cannot be made. -/
def badValue {α : Type} : Except Failure α :=
  .error (.malformedSettings .badValue)

/-- The key of fields that are taken over. -/
def mergeKey : String := "<<"

/-- What a scalar stands for; the marks that only keys may be have no value. -/
def scalarValue (text : String) (isPlain : Bool) : Except Failure Json :=
  if !isPlain then .ok (.str text)
  else if text = mergeKey || text = "=" then badValue
  else .ok (plainValue .settings text)

/-- What a scalar with a tag stands for. -/
def taggedValue (tag text : String) : Except Failure Json :=
  match tag with
  | "!!str" => .ok (.str text)
  | "!" => scalarValue text true
  | "!!null" => .ok .null
  | "!!bool" =>
    let word := text.map Char.toLower
    if word ∈ trueWords then .ok (.bool true) else if word ∈ falseWords then .ok (.bool false) else badValue
  | "!!int" => (readInt? text.toList).elim badValue fun i => .ok (.int i)
  | "!!float" =>
    match readFloat? .settings text.toList, readInt? text.toList with
    | some x, _ => .ok (.float x)
    | none, some i => .ok (.float (Decimal.ofInt i))
    | none, none => badValue
  | _ => badValue

/-- The name that a node stands for as a key, and whether it is text. -/
def keyName : Node → Except Failure (String × Bool)
  | .scalar text isPlain =>
    match if isPlain then plainValue .settings text else .str text with
    | .str s => .ok (s, true)
    | v => .ok (v.display, false)
  | .tagged "!!str" (.scalar text _) => .ok (text, true)
  | _ => badValue

/-- Whether some key of a mapping is not text. -/
def Node.hasOtherKeys : Node → Bool
  | .mapping entries => entries.any fun e =>
    match keyName e.1 with
    | .ok (_, isText) => !isText
    | .error _ => false
  | .tagged _ (.mapping entries) => hasOtherKeys (.mapping entries)
  | _ => false

/-- The fields that are taken over from a value: an object, or a list of objects, of which the first ones win. -/
def takenFields : Json → Except Failure Json.Fields
  | .obj fields => .ok fields
  | .arr items => items.reverse.foldlM (fun taken v =>
      match v with
      | .obj fields => .ok (Json.Fields.putAll taken fields)
      | _ => badValue) []
  | _ => badValue

mutual

/-- The value of a node. -/
def Node.value : Node → Except Failure Json
  | .scalar text isPlain => scalarValue text isPlain
  | .sequence items => (valuesOf items).map .arr
  | .mapping entries => (fieldsOf entries [] [] []).map .obj
  | .tagged tag n =>
    match tag, n with
    | tag, .scalar text _ => taggedValue tag text
    | "!!map", .mapping entries | "!", .mapping entries => (fieldsOf entries [] [] []).map .obj
    | "!!seq", .sequence items | "!", .sequence items => (valuesOf items).map .arr
    | _, _ => badValue

/-- The values of nodes. -/
def valuesOf : List Node → Except Failure (List Json)
  | [] => .ok []
  | n :: ns => do
    let v ← n.value
    return v :: (← valuesOf ns)

/-- The fields of a mapping, behind the names that occurred, the fields that were taken over and those of its own. -/
def fieldsOf : List (Node × Node) → List String → Json.Fields → Json.Fields → Except Failure Json.Fields
  | [], _, taken, own => .ok (taken.putAll own)
  | (k, n) :: entries, seen, taken, own => do
    let v ← n.value
    match k with
    | .scalar "<<" true => fieldsOf entries seen (taken.putAll (← takenFields v)) own
    | k =>
      let (name, isText) ← keyName k
      if isText && name ∈ seen then badValue
      else fieldsOf entries (if isText then name :: seen else seen) taken (own.put name v)

end

/-- The node of the only document of a text; none if there is no document. -/
def parseNode (text : String) : Except Failure (Option Node) :=
  if text.toList.any fun c => !isWritable c then .error (.malformedSettings .badCharacter)
  else Node.ofTokens (tokens text)

/-- The value of the only document of a text; none if there is no document. -/
def parse (text : String) : Except Failure (Option Json) := do
  match ← parseNode text with
  | some n => return some (← n.value)
  | none => return none

end HintQuality.Yaml
