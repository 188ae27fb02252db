import HintQuality.Json.Basic
import HintQuality.Policy
/-!
# Settings

All that a rating run is told: the policy, where the data is, and what to write. `toJson` is the form in which
settings are recorded.
-/

namespace HintQuality

/-- The settings of a rating run. -/
structure Settings where
  /-- The version of the settings. -/
  version : String := "v1"
  /-- The policy. -/
  rating : Policy := {}
  /-- The folder that holds the hints. -/
  dataDir : Option String := none
  /-- Whether the ratings are written next to the hints. -/
  writeResults : Bool := true
  /-- Whether a report of each request is logged. -/
  debug : Bool := false
  /-- The path of the event log. -/
  logPath : String := "logs/hintrating.jsonl"
  deriving DecidableEq, Repr

/-- A list of texts as JSON. -/
def textsJson (xs : List String) : Json :=
  .arr (xs.map .str)

/-- A policy as JSON, its required validity as a number. -/
def Policy.toJson (p : Policy) : Json :=
  .obj
    [("name", .str p.name),
     ("trim_if_childless_types", textsJson p.trimIfChildlessTypes),
     ("trim_if_parent_is_added_types", textsJson p.trimIfParentIsAddedTypes),
     ("specific_numeric_literals", .bool p.specificNumericLiterals),
     ("required_validity", .int p.requiredValidity.toNat),
     ("body_types", textsJson p.bodyTypes)]

/-- Settings as JSON fields. -/
def Settings.fields (s : Settings) : Json.Fields :=
  [("version", .str s.version),
   ("rating", s.rating.toJson),
   ("data_dir", (s.dataDir.map Json.str).getD .null),
   ("write_results", .bool s.writeResults),
   ("debug", .bool s.debug),
   ("log_path", .str s.logPath)]

/-- Settings as JSON. -/
def Settings.toJson (s : Settings) : Json :=
  .obj s.fields

end HintQuality
