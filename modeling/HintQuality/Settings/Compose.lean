import HintQuality.Folder.Path
import HintQuality.Settings.Merge
import HintQuality.Settings.Override
import HintQuality.Settings.Preset
/-!
# Composed settings

The settings that a run starts from: those that come with the program, with a preset for the policy, changed by
overrides. The policy belongs to a group, so an override of it chooses a preset; every other one changes a single
setting. A setting that is changed has to be there, and one that is added must not be.
-/

namespace HintQuality.Settings

/-- Fails since overrides do not fit the settings. -/
def uncomposable {α : Type} : Except Failure α :=
  .error .uncomposable

/-- The group that presets belong to. -/
def group : String := "rating"

/-- The preset that a run starts with. -/
def defaultChoice : String := "snap"

/-- What kind of value cannot name a preset. -/
def kindName : Json → String
  | .null => "NoneType"
  | .bool _ => "bool"
  | .int _ => "int"
  | .float _ => "float"
  | _ => "str"

/-- Which preset is chosen, and whether the group is taken away. -/
structure Choice where
  name : String := defaultChoice
  /-- The presets that are taken away: any, or one of a name. -/
  removals : List (Option String) := []

/-- Whether an override is about the group. -/
def isChoice (o : Override) : Bool :=
  o.name = group &&
    match o.value with
    | .single (.obj _) => false
    | _ => true

/-- Takes an override of the group into account. -/
def Choice.take (c : Choice) (o : Override) : Except Failure Choice :=
  match o.kind, o.value with
  | .put, _ => uncomposable
  | .delete, .absent => .ok { c with removals := c.removals ++ [none] }
  | .delete, .single (.str s) => .ok { c with removals := c.removals ++ [some s] }
  | .delete, _ => .error (.badGroupChoice "")
  | _, .single (.str s) => if o.kind = .add then uncomposable else .ok { c with name := s }
  | _, .single (.arr _) => uncomposable
  | _, .single v => .error (.badGroupChoice (kindName v))
  | _, _ => uncomposable

/-- The preset in the file of a name, with or without its extension. -/
def presetOf (name : String) : Option Policy :=
  Preset.ofName? (if Path.hasExtension name ".yaml" then String.ofList (name.toList.take (name.length - 5)) else name)

/-- The fields of the group. -/
def Choice.fields (c : Choice) : Except Failure Json.Fields :=
  match c.removals.getLast? with
  | some removal =>
    if removal = none || removal = some c.name then .ok [] else uncomposable
  | none =>
    match presetOf c.name with
    | some p => .ok [(group, p.toJson)]
    | none => .error .unknownPreset

/-- A failure to change settings, which means that an override does not fit, unless it is of a number that is none. -/
def misfit : Failure → Failure
  | .notInteger text => .notInteger text
  | _ => .uncomposable

/-- Changes what names stand for, all of which have to be there. -/
def changeAt (v : Json) (new : Json) : List String → Except Failure Json
  | [] => .ok v
  | [name] =>
    match v, childOf v name, new with
    | .obj _, some (.obj old), .obj given =>
      if given.all fun f => (Json.Fields.get? old f.1).isSome then (setChild v name new).mapError misfit
      else uncomposable
    | .obj _, some _, _ | .arr _, _, _ => (setChild v name new).mapError misfit
    | _, _, _ => uncomposable
  | name :: names =>
    match v, childOf v name with
    | .obj fields, some w => (changeAt w new names).map fun w => .obj (Json.Fields.put fields name w)
    | _, _ => uncomposable

/-- Takes away what names stand for. -/
def removeAt (v : Json) : List String → Json
  | [] => v
  | [name] =>
    match v with
    | .obj fields => .obj (fields.filter (·.1 ≠ name))
    | v => v
  | name :: names =>
    match v, childOf v name with
    | .obj fields, some w => .obj (Json.Fields.put fields name (removeAt w names))
    | v, _ => v

/-- Whether two values read the same. -/
def sameText (a b : Json) : Bool :=
  a.quoted = b.quoted

/-- Makes the change of an override. -/
def applyOverride (v : Json) (o : Override) : Except Failure Json :=
  let names := settingNames o.name
  let there := (select v names).getD .null
  match o.kind, o.value with
  | .delete, value =>
    match there, value with
    | .null, _ => uncomposable
    | _, .single new => if sameText new there then .ok (removeAt v names) else uncomposable
    | _, _ => .ok (removeAt v names)
  | .change, .single new => changeAt v new names
  | .add, .single new =>
    match there with
    | .null => (setAt v new names).mapError misfit
    | _ => if isContainer new then (setAt v new names).mapError misfit else uncomposable
  | .put, .single new => (setAt v new names).mapError misfit
  | _, _ => uncomposable

/-- Whether an override gives several values. -/
def isSweep (o : Override) : Bool :=
  match o.value with
  | .sweep => true
  | _ => false

/-- Whether an override is about a group in a place that the settings have no group for. -/
def isPlaced (o : Override) : Bool :=
  o.name.contains '@'

/-- The settings that overrides make of those that come with the program. -/
def compose (overrides : List String) : Except Failure Json := do
  let overrides ← overrides.mapM Override.read
  if overrides.any fun o => isSweep o || isPlaced o then uncomposable
  else
    let choice ← (overrides.filter isChoice).foldlM Choice.take {}
    let fields ← choice.fields
    (overrides.filter fun o => !isChoice o).foldlM applyOverride (.obj (fields ++ Preset.runFields))

end HintQuality.Settings
