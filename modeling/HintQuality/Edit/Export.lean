import HintQuality.Edit.Basic
import HintQuality.Json.Printer
/-!
# Edits as JSON

The JSON form of edits and of the keys in them. A set of edits is written as a list in the order of their texts; edits
that read the same come in the order of their JSON.
-/

namespace HintQuality

/-- Text as JSON, if there is any. -/
def Json.ofText? : Option String → Json
  | some s => .str s
  | none => .null

namespace Key

mutual

/-- A key as JSON: what kind it is, and its parts. -/
def toJson : Key → Json
  | id x => .arr [.str "id", .str x]
  | path relations => .arr (.str "path" :: relations.map .str)
  | fresh parent relation type value after =>
    .arr [.str "new", optionJson parent, Json.ofText? relation, .str type, Json.ofText? value, optionJson after]

/-- An optional key as JSON. -/
def optionJson : Option Key → Json
  | none => .null
  | some k => k.toJson

end

end Key

namespace Edit

/-- The fields that say what an edit does. -/
def fields : Edit → Json.Fields
  | insertion label relation parent after source =>
    [("edit", .str "Insertion"), ("parent", Key.optionJson parent), ("relation", Json.ofText? relation),
     ("type", .str label.type), ("value", Json.ofText? label.value), ("source", Key.optionJson source),
     ("after", Key.optionJson after), ("id", Json.ofText? label.id)]
  | deletion key type value =>
    [("edit", .str "Deletion"), ("key", key.toJson), ("type", .str type), ("value", Json.ofText? value)]
  | rename key oldType oldValue newType newValue ids =>
    [("edit", .str "Rename"), ("key", key.toJson), ("old_type", .str oldType), ("old_value", Json.ofText? oldValue),
     ("new_type", .str newType), ("new_value", Json.ofText? newValue),
     ("old_id", Json.ofText? (ids.bind Prod.fst)), ("new_id", Json.ofText? (ids.bind Prod.snd))]

/-- An edit as JSON. -/
def toJson (e : Edit) : Json :=
  .obj (e.fields ++ [("text", .str e.text), ("deletion", .bool e.isDeletion)])

/-- Whether an edit is listed before another one, or at the same place: by text, then by JSON. -/
def isListedBefore (a b : Edit) : Bool :=
  a.text < b.text ||
    (a.text = b.text && !(b.toJson.sortKeys.render .spaced < a.toJson.sortKeys.render .spaced))

end Edit

/-- Edits as a JSON list in a fixed order. -/
def Edits.toJson (edits : List Edit) : Json :=
  .arr ((sortBy Edit.isListedBefore edits).map Edit.toJson)

end HintQuality
