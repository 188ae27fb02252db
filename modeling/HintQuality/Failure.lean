import HintQuality.Json.Parser
import HintQuality.Tree.Reader
/-!
# Failures

Everything that can go wrong, by cause. `message` says it in words; `isRatingFailure` singles out the failures of the
rating itself, which a run records in its event log before it ends.
-/

namespace HintQuality

/-- Why a serialized tree cannot be read. -/
inductive TreeProblem where
  /-- The text is not JSON. -/
  | notJson (e : Json.SyntaxError)
  /-- The text of an outcome file is not JSON. -/
  | outcomeFile (path : String) (e : Json.SyntaxError)
  /-- The value is not an object. -/
  | notObject
  /-- The object is not a node. -/
  | malformed (f : Tree.Fault)
  /-- The first row of a spreadsheet of hints has no request tree. -/
  | noRequestTree
  deriving Repr

/-- The problem in words. -/
def TreeProblem.message : TreeProblem → String
  | notJson e => "Error parsing JSON tree: " ++ e.message
  | outcomeFile path e => "Error parsing hint outcome " ++ path ++ ": " ++ e.message
  | notObject => "Tree JSON must be an object"
  | malformed f => "Malformed tree JSON: " ++ f.text
  | noRequestTree => "First gold standard row has no 'from' tree"

/-- A message that shows the input it is about, unless there is none. -/
def echoing (message : String) : Json → String
  | .null => message
  | source => message ++ "\n" ++ source.display

/-- The report of a missing column, with the path of the sheet if it has one. -/
def missingColumnText (column path : String) : String :=
  "Missing required column '" ++ column ++ "'" ++ (if path.isEmpty then "" else " in " ++ path)

/-- Why the text of settings cannot be read. -/
inductive SettingsProblem where
  /-- A character has no place in any document. -/
  | badCharacter
  /-- A character or a line stands where no part of a document can begin or go on. -/
  | badToken
  /-- The parts do not make up a document. -/
  | badStructure
  /-- An alias stands for nothing, or there are two documents. -/
  | badReference
  /-- A value cannot be made from its parts, for instance because a name occurs twice. -/
  | badValue
  /-- A list has no item at a position. -/
  | noSuchItem
  /-- The document is neither a list nor an object nor text. -/
  | badRoot
  /-- An override is not well formed. -/
  | badOverride
  deriving DecidableEq, Repr

/-- Why a reference in settings cannot be resolved. -/
inductive InterpolationProblem where
  /-- There is no such setting. -/
  | unknownKey
  /-- The reference is not well formed. -/
  | malformed
  /-- The reference names a function. -/
  | unknownFunction
  /-- The reference leads back to itself. -/
  | circular
  /-- The setting is marked as missing. -/
  | missing
  deriving DecidableEq, Repr

/-- Why an operation fails. -/
inductive Failure where
  | unreadableTree (problem : TreeProblem) (source : Json)
  | missingColumn (column path : String)
  | inconsistentRating (report : String)
  | noDataFolder
  | missingKey (key : String)
  | notNumber (text : String)
  | notInteger (text : String)
  | tooManyDigits (digits : Option Nat)
  | loneSurrogate
  | nanAsInteger
  | infinityAsInteger
  | integerTooLarge
  | noSuchMember (value kind : String)
  | unknownDigest (name : String)
  | negativeWeight (weight : String)
  | noNodeType
  | noSuchFile (path : String)
  | noHintFolder (path : String)
  | noAlgorithmsFolder (path : String)
  | noFileName (path : String)
  | badGroupChoice (kind : String)
  | isFolder (path : String)
  | notFolder (path : String)
  | fileExists (path : String)
  | wrongType
  | noSuchAttribute
  | indexOutOfRange
  | emptySheet
  | malformedSheet
  | invalidSettings (complaints : List (String × String))
  | malformedSettings (problem : SettingsProblem)
  | unmergeableSettings
  | unresolvedSettings (problem : InterpolationProblem)
  | uncomposable
  | unknownPreset
  | unreadableLog
  deriving Repr

namespace Failure

/-- The failure in words, as far as it has any. -/
def message : Failure → String
  | unreadableTree problem source => echoing problem.message source
  | missingColumn column path => missingColumnText column path
  | inconsistentRating report => report
  | noDataFolder => "data_dir is not set"
  | missingKey key => Text.quoted key
  | notNumber text => "could not convert string to float: " ++ Text.quoted text
  | notInteger text =>
    "invalid literal for int() with base 10: " ++ String.ofList ((Text.quoted text).toList.take 200)
  | tooManyDigits digits =>
    "Exceeds the limit (" ++ Text.natText Json.digitLimit ++ " digits) for integer string conversion" ++
      (digits.elim "" fun n => ": value has " ++ Text.natText n ++ " digits") ++
      "; use sys.set_int_max_str_digits() to increase the limit"
  | nanAsInteger => "cannot convert float NaN to integer"
  | infinityAsInteger => "cannot convert float infinity to integer"
  | integerTooLarge => "int too large to convert to float"
  | noSuchMember value kind => value ++ " is not a valid " ++ kind
  | unknownDigest name => "unsupported hash type " ++ name
  | negativeWeight weight => "Outcome weight must be non-negative, got " ++ weight
  | noNodeType => "'type' cannot be None"
  | noSuchFile path => "[Errno 2] No such file or directory: " ++ Text.quoted path
  | noHintFolder path => "Missing hint folder: " ++ path
  | noAlgorithmsFolder path => "Missing algorithms folder: " ++ path
  | noFileName path => "PosixPath(" ++ Text.quoted path ++ ") has an empty name"
  | badGroupChoice kind => "Config group override must be a string or a list. Got " ++ kind
  | _ => ""

/-- Whether the rating itself failed, rather than the world around it. -/
def isRatingFailure : Failure → Bool
  | unreadableTree _ _ | missingColumn _ _ | inconsistentRating _ | noDataFolder => true
  | _ => false

/-- The failure to read a JSON text; malformed text fails in a way of its own. -/
def ofReadError (malformed : Json.SyntaxError → Failure) : Json.ReadError → Failure
  | .malformed e => malformed e
  | .tooManyDigits n => .tooManyDigits (some n)
  | .loneSurrogate => .loneSurrogate

/-- The failure to read a tree. It shows the source, and fails otherwise if an integer there has too many digits. -/
def unreadable (problem : TreeProblem) (source : Json) : Failure :=
  if source.isShort then .unreadableTree problem source else .tooManyDigits none

end Failure

/-- Reads a tree from a decoded value, or from JSON text. -/
def Tree.parse (source : Json) : Except Failure Tree := do
  let v ← match source with
    | .str text => (Json.parse text).mapError (Failure.ofReadError fun e => .unreadableTree (.notJson e) source)
    | v => .ok v
  match v with
  | .obj fields => (Tree.ofJson (.obj fields)).mapError fun f => .unreadable (.malformed f) source
  | _ => .error (.unreadable .notObject source)

end HintQuality
