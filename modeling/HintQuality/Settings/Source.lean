import HintQuality.Digest.Basic
import HintQuality.Json.Printer
import HintQuality.Settings.Check
import HintQuality.Settings.Merge
import HintQuality.Yaml.Reader
/-!
# Where settings come from

The settings of a run are put together from their defaults, a base, files, the environment and the command line, each
over the one before, and then checked. The fingerprint of settings tells whether two runs had the same ones.
-/

namespace HintQuality.Settings

/-- A setting as it is written on a command line: a dotted name, and a value behind an equals sign. -/
structure Assignment where
  /-- The names, one inside the other. -/
  names : List String
  /-- The value. -/
  value : Json

/-- The value of a document, null if there is none. -/
def documentValue (text : String) : Except Failure Json :=
  (Yaml.parse text).map fun v => v.getD .null

/-- Reads an assignment; without an equals sign the value is null. -/
def Assignment.read (s : String) : Except Failure Assignment := do
  let name := s.toList.takeWhile (· ≠ '=')
  let value ← documentValue (String.ofList ((s.toList.drop name.length).drop 1))
  return ⟨settingNames (String.ofList name), value⟩

/-- The layer that assignments make up, the later ones over the earlier ones. -/
def layerOf (assignments : List String) : Except Failure Json :=
  assignments.foldlM (fun layer s => do
    let a ← Assignment.read s
    checkReferences a.value
    setAt layer a.value a.names) (.obj [])

/-- The text with pairs of underscores read as dots. -/
def dotted : List Char → List Char
  | '_' :: '_' :: s => '.' :: dotted s
  | c :: s => c :: dotted s
  | [] => []

/-- The assignment that a variable of the environment stands for, if its name begins with the stem of settings. -/
def ofVariable? (stem : String) (v : String × String) : Option String :=
  if stem.toList.isPrefixOf v.1.toList then
    let name := dotted ((v.1.toList.drop stem.length).map Char.toLower)
    some (String.ofList name ++ "=" ++ v.2)
  else none

/-- The layer in a file: nothing, an object, or a text, which stands for a setting without a value. -/
def fileLayer (text : String) : Except Failure Json := do
  match ← Yaml.parse text with
  | none | some .null => return .obj []
  | some (.str s) =>
    match ← Yaml.parse s with
    | none | some .null => return .obj []
    | some (.str t) => return .obj [(t, .null)]
    | some v => return v
  | some (.obj fields) =>
    if ((← Yaml.parseNode text).map Yaml.Node.hasOtherKeys).getD false then .error .wrongType
    else return .obj fields
  | some (.arr items) => return .arr items
  | some _ => .error (.malformedSettings .badRoot)

/-- A layer over another one, both of them whole settings. -/
def layerOver (below above : Json) : Except Failure Json := do
  checkReferences above
  match above with
  | .obj _ => merge below above
  | _ => .error .unmergeableSettings

/-- A value whose references are replaced within itself. -/
def standalone (v : Json) : Except Failure Json := do
  checkReferences v
  resolve v

/-- What settings are put together from. -/
structure Sources where
  /-- The base, over the defaults. -/
  base : Option Json := none
  /-- The texts of files. -/
  files : List String := []
  /-- The environment. -/
  environment : List (String × String) := []
  /-- What names of variables begin with that are settings. -/
  stem : String := "HINTRATING__"
  /-- Assignments on the command line. -/
  overrides : List String := []

/-- All layers over each other, with references replaced. -/
def Sources.merged (s : Sources) : Except Failure Json := do
  let defaults := (Settings.toJson {})
  let base ← match s.base with
    | some b => layerOver defaults b
    | none => .ok defaults
  let files ← s.files.foldlM (fun layer text => do layerOver layer (← fileLayer text)) (.obj [])
  let environment ← layerOf (s.environment.filterMap (ofVariable? s.stem))
  let overrides ← layerOf s.overrides
  resolve (← merge (← merge (← merge base files) environment) overrides)

/-- The checked settings. -/
def Sources.load (s : Sources) : Except Failure Settings := do
  match ← s.merged with
  | .obj fields => Settings.ofFields fields
  | _ => .error .wrongType

/-- The settings that a composed value and the environment make up. -/
def ofComposed (v : Json) (environment : List (String × String)) : Except Failure Settings := do
  Sources.load { base := some (← standalone v), environment := environment }

/-- What tells settings apart: the digest of their JSON, the fields sorted. -/
def fingerprint (s : Settings) : String :=
  Digest.ofText (s.toJson.sortKeys.render .compact)

end HintQuality.Settings
