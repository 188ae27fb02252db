import HintQuality.Json.Printer
import HintQuality.Tree.Basic
/-!
# Trees as JSON

The JSON form of a tree: absent values and ids are left out, and so are the children of a node without slots; the
order of the labels is written beside them. An empty slot is a null child.
-/

namespace HintQuality.Tree

/-- The fields of a node that come before its children. -/
def labelFields (l : Label) : Json.Fields :=
  ("type", .str l.type) :: ((l.value.map fun v => ("value", Json.str v)).toList ++
    (l.id.map fun x => ("id", Json.str x)).toList)

/-- The fields that hold the children, given by label in order. -/
def childFields (entries : Json.Fields) : Json.Fields :=
  if entries.isEmpty then []
  else [("children", .obj entries), ("childrenOrder", .arr (entries.map fun e => .str e.1))]

mutual

/-- The JSON form of a tree. -/
def toJson : Tree → Json
  | node l s => .obj (labelFields l ++ childFields (slotEntries s))

/-- The JSON forms of the children by label. -/
def slotEntries : List (Slot Tree) → Json.Fields
  | [] => []
  | ⟨r, none⟩ :: s => (r, .null) :: slotEntries s
  | ⟨r, some t⟩ :: s => (r, t.toJson) :: slotEntries s

end

/-- The JSON text of a tree. -/
def toJsonText (t : Tree) : String :=
  t.toJson.render .compact

end HintQuality.Tree
