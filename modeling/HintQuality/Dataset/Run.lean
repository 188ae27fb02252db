import HintQuality.Dataset.Rating
import HintQuality.Settings.Source
import HintQuality.Yaml.Writer
/-!
# Rating runs

A run rates the dataset that its settings name, records what happens in its event log, and saves the mean scores next
to the log. A failure of the rating itself is recorded before the run ends.
-/

namespace HintQuality.Dataset

/-- The mean scores of an assignment. -/
def assignmentScores (s : RatingSet Float) (assignmentId : String) : Json :=
  .obj (scoreFields (s.validityMeans assignmentId) (s.priorityMean false assignmentId)
    (s.priorityMean true assignmentId))

/-- The mean scores of an algorithm by assignment. -/
def algorithmScores (s : RatingSet Float) : Json :=
  .obj (s.assignmentIds.map fun a => (a, assignmentScores s a))

/-- The mean scores by algorithm and assignment. -/
def scores (sets : List (RatingSet Float)) : Json :=
  .obj (sets.map fun s => (s.name, algorithmScores s))

/-- Saves scores next to the event log. -/
def saveScores (f : Folder) (logPath : Path) (result : Json) : Traced Path :=
  match logPath.withExtension? ".yaml" with
  | none => Traced.fail (.noFileName logPath.text)
  | some path => do
    let _ ← Traced.lift (f.place path)
    Traced.emit (.write path.text (Yaml.render result))
    Traced.log .info ("✅ Result saved to: " ++ path.text)
    return path

/-- The record of a failure of the rating. -/
def failureRecord (dataDir : String) (e : Failure) : List Effect :=
  if e.isRatingFailure then
    [.event {
      level := .error, type := "exception", data := [("data_dir", .str dataDir)],
      message := "Rating failed: " ++ e.message, isFailure := true }]
  else []

/-- Rates a dataset as settings say. -/
def rateWith (lib : TableLibrary) (s : Settings) (f : Folder) : Traced Json := do
  let recording : Recording := { debug := s.debug, context := some [] }
  let mark := Settings.fingerprint s
  recording.event "ConfigLoaded" [("config", s.toJson), ("fingerprint", .str mark)]
  let dataDir := s.dataDir.getD ""
  if dataDir.isEmpty then Traced.fail .noDataFolder
  else
    Traced.log .info ("🟢 Rating hints in " ++ dataDir ++ " with the " ++ s.rating.name ++ " config")
    recording.event "RatingRunStarted" [("data_dir", .str dataDir), ("fingerprint", .str mark)]
    let sets ← (rate lib recording f (Path.ofString dataDir) s.rating s.writeResults).onFailure (failureRecord dataDir)
    recording.event "RatingRunCompleted" [("algorithms", .arr (sets.map fun x => .str x.name))]
    return scores sets

/-- The folder with an empty event log, unless there is one. -/
def openLog (f : Folder) (path : Path) : Except Failure Folder := do
  let f ← f.make path.parent
  let way ← f.place path
  return if (f.content? way).isSome then f else f.put way ""

/-- A whole run. -/
def run (lib : TableLibrary) (s : Settings) (f : Folder) : Traced Path := do
  let logPath := Path.ofString s.logPath
  let f ← Traced.lift (openLog f logPath)
  saveScores f logPath (← rateWith lib s f)

end HintQuality.Dataset
