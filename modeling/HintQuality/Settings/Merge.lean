import HintQuality.Settings.Reference
/-!
# Layers of settings

Settings come in layers, each over the one before. Objects are merged field by field and everything else is replaced;
an object and a list cannot lie over each other. What is marked as missing leaves what is below it.
-/

namespace HintQuality.Settings

mutual

/-- A value with another one over it. -/
def merge (below : Json) : Json → Except Failure Json
  | .obj fields =>
    match below with
    | .obj old => (mergeFields old fields).map .obj
    | .arr _ => .error .unmergeableSettings
    | _ => (mergeFields [] fields).map .obj
  | .arr items =>
    match below with
    | .obj _ => .error .unmergeableSettings
    | _ => .ok (.arr items)
  | .str s => .ok (if s = missingMark then below else .str s)
  | v => .ok v

/-- Fields with others over them. -/
def mergeFields (below : Json.Fields) : List (String × Json) → Except Failure Json.Fields
  | [] => .ok below
  | (k, v) :: fields => do
    let w ← match below.get? k with
      | some old => merge old v
      | none => .ok v
    mergeFields (below.put k w) fields

end

/-! ## Single settings -/

/-- Whether a value holds others. -/
def isContainer : Json → Bool
  | .obj _ | .arr _ => true
  | _ => false

/-- The position that a number means in a list; a negative one counts from the end. -/
def position (items : List Json) (i : Int) : Except Failure Nat :=
  let j := if i < 0 then i + items.length else i
  if 0 ≤ j && j < items.length then .ok j.toNat else .error (.malformedSettings .noSuchItem)

/-- A value in place of one that is there; a container goes over a container. -/
def replaceWith (new old : Json) : Except Failure Json :=
  if isContainer new && isContainer old then merge old new else .ok new

/-- Sets what a name stands for in a container. -/
def setChild (v : Json) (name : String) (new : Json) : Except Failure Json := do
  match v with
  | .arr items =>
    match Decimal.readInt? name with
    | none => .error (.notInteger name)
    | some i =>
      let j ← position items i
      return .arr (items.set j (← replaceWith new (items.getD j .null)))
  | .obj fields =>
    return .obj (Json.Fields.put fields name (← replaceWith new ((Json.Fields.get? fields name).getD .null)))
  | _ => return .obj [(name, new)]

/-- Sets what names stand for, one inside the other; objects are made where they are not there. -/
def setAt (v : Json) (new : Json) : List String → Except Failure Json
  | [] => .ok new
  | [name] => setChild v name new
  | name :: names => do
    let inner := match childOf v name with
      | some w => if isContainer w then w else .obj []
      | none => .obj []
    let w ← setAt inner new names
    match v with
    | .arr items =>
      match Decimal.readInt? name with
      | none => .error .wrongType
      | some i => return .arr (items.set (← position items i) w)
    | .obj fields => return .obj (Json.Fields.put fields name w)
    | _ => return .obj [(name, w)]

/-- The names in the dotted name of a setting. -/
def settingNames (s : String) : List String :=
  (dottedNames s.toList).getD [s]

end HintQuality.Settings
