import HintQuality.Settings.Basic
/-!
# Preset policies

The policies that come with the program, and the settings that a run starts from.
-/

namespace HintQuality

namespace Preset

/-- Snap! block programs. -/
def snap : Policy where
  name := "snap"
  trimIfChildlessTypes := ["script"]
  trimIfParentIsAddedTypes := ["literal"]
  specificNumericLiterals := false
  requiredValidity := .multipleTutors
  bodyTypes := ["snapshot", "stage", "sprite", "script", "customBlock"]

/-- Python programs. -/
def python : Policy where
  name := "python"
  trimIfChildlessTypes := ["Expr"]
  trimIfParentIsAddedTypes := []
  specificNumericLiterals := true
  requiredValidity := .multipleTutors
  bodyTypes := ["Module", "FunctionDef", "For", "While", "If", "list"]

/-- The preset of a name. -/
def ofName? : String → Option Policy
  | "snap" => some snap
  | "python" => some python
  | _ => none

/-- The settings that a run starts from, apart from the policy. -/
def runFields : Json.Fields :=
  [("version", .str "v1"),
   ("data_dir", .str "../data/hint-rating/isnapF16-F17/"),
   ("write_results", .bool true),
   ("debug", .bool false),
   ("log_path", .str "logs/hintrating.jsonl")]

end Preset

end HintQuality
