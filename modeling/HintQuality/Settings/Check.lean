import HintQuality.Decimal.Binary
import HintQuality.Failure
import HintQuality.Settings.Basic
/-!
# Checking settings

Settings from JSON fields. Every field that does not fit is reported with its path and what is wrong with it, in the
order of the fields, and then every field that does not exist, in the order given. Only the name of an unknown
validity ends the check at once.
-/

namespace HintQuality

/-- A check that goes on after a complaint, with a default in place of the value. -/
abbrev Check := StateT (List (String × String)) (Except Failure)

namespace Check

/-- Reports what is wrong at a path and goes on with a default. -/
def complain {α : Type} (path what : String) (default : α) : Check α :=
  fun complaints => .ok (default, complaints ++ [(path, what)])

/-- The result of a check without complaints. -/
def run {α : Type} (c : Check α) : Except Failure α := do
  let (x, complaints) ← StateT.run c []
  if complaints.isEmpty then return x else throw (.invalidSettings complaints)

/-- The path of a field below a path. -/
def below (path name : String) : String :=
  if path.isEmpty then name else path ++ "." ++ name

/-- A field that has a default: checked if it is there. -/
def field {α : Type} (fields : Json.Fields) (path name : String) (default : α)
    (check : String → α → Json → Check α) : Check α :=
  match fields.get? name with
  | none => pure default
  | some v => check (below path name) default v

/-- Text. -/
def text (path : String) (default : String) : Json → Check String
  | .str s => pure s
  | _ => complain path "string_type" default

/-- Text, or nothing. -/
def optionalText (path : String) (default : Option String) : Json → Check (Option String)
  | .null => pure none
  | .str s => pure (some s)
  | _ => complain path "string_type" default

/-- The items of a list of texts, from number `i` on. -/
def items (path : String) : Nat → List Json → Check (List String)
  | _, [] => pure []
  | i, v :: vs => do
    let s ← text (below path (Text.natText i)) "" v
    return s :: (← items path (i + 1) vs)

/-- A list of texts. -/
def texts (path : String) (default : List String) : Json → Check (List String)
  | .arr vs => items path 0 vs
  | _ => complain path "list_type" default

/-- The words that mean yes. -/
def yesWords : List String := ["1", "on", "t", "true", "y", "yes"]

/-- The words that mean no. -/
def noWords : List String := ["0", "off", "f", "false", "n", "no"]

/-- Whether a double is an integer. -/
def isIntegral (x : Float) : Bool :=
  !x.isNaN && !x.isInf && x.floor == x

/-- A truth value: also zero and one, and the words for yes and no in any case. -/
def truth (path : String) (default : Bool) : Json → Check Bool
  | .bool b => pure b
  | .str s =>
    let word := String.ofList (s.toList.map Char.toLower)
    if word ∈ yesWords then pure true
    else if word ∈ noWords then pure false
    else complain path "bool_parsing" default
  | .int i => if i = 1 then pure true else if i = 0 then pure false else complain path "bool_parsing" default
  | .float x =>
    if x == 1.0 then pure true
    else if x == 0.0 then pure false
    else if isIntegral x then complain path "bool_parsing" default
    else complain path "bool_type" default
  | _ => complain path "bool_type" default

/-- The validity that equals a value, if any does. -/
def validityOf? : Json → Option Validity
  | .bool b => Validity.ofInt? (if b then 1 else 0)
  | .int i => Validity.ofInt? i
  | .float x => if isIntegral x then Validity.ofInt? (Decimal.Binary.ofFloat x).truncate else none
  | _ => none

/-- A validity by name or number. -/
def validity (path : String) (default : Validity) : Json → Check Validity
  | .str s =>
    match Validity.ofName? s with
    | some v => pure v
    | none => throw (.missingKey s)
  | v =>
    match validityOf? v with
    | some w => pure w
    | none => complain path "enum" default

/-- Complains about the fields whose names are not known. -/
def noOthers (fields : Json.Fields) (path : String) (known : List String) : Check Unit :=
  (fields.filter fun f => f.1 ∉ known).forM fun f => complain (below path f.1) "extra_forbidden" ()

/-- A policy from its fields. -/
def policyFields (path : String) (fields : Json.Fields) : Check Policy := do
  let base : Policy := {}
  let name ← field fields path "name" base.name text
  let childless ← field fields path "trim_if_childless_types" base.trimIfChildlessTypes texts
  let attached ← field fields path "trim_if_parent_is_added_types" base.trimIfParentIsAddedTypes texts
  let numeric ← field fields path "specific_numeric_literals" base.specificNumericLiterals truth
  let required ← field fields path "required_validity" base.requiredValidity validity
  let bodies ← field fields path "body_types" base.bodyTypes texts
  noOthers fields path
    ["name", "trim_if_childless_types", "trim_if_parent_is_added_types", "specific_numeric_literals",
     "required_validity", "body_types"]
  return ⟨name, childless, attached, numeric, required, bodies⟩

/-- A policy. -/
def policy (path : String) (default : Policy) : Json → Check Policy
  | .obj fields => policyFields path fields
  | _ => complain path "model_type" default

/-- Settings from their fields. -/
def settingsFields (fields : Json.Fields) : Check Settings := do
  let base : Settings := {}
  let version ← field fields "" "version" base.version text
  let rating ← field fields "" "rating" base.rating policy
  let dataDir ← field fields "" "data_dir" base.dataDir optionalText
  let writeResults ← field fields "" "write_results" base.writeResults truth
  let debug ← field fields "" "debug" base.debug truth
  let logPath ← field fields "" "log_path" base.logPath text
  noOthers fields "" ["version", "rating", "data_dir", "write_results", "debug", "log_path"]
  return ⟨version, rating, dataDir, writeResults, debug, logPath⟩

end Check

/-- A policy from its fields. -/
def Policy.ofFields (fields : Json.Fields) : Except Failure Policy :=
  (Check.policyFields "" fields).run

/-- Settings from their fields. -/
def Settings.ofFields (fields : Json.Fields) : Except Failure Settings :=
  (Check.settingsFields fields).run

end HintQuality
