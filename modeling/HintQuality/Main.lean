import HintQuality.Dataset.Run
import HintQuality.EventLog.Journal
import HintQuality.Settings.Compose
import Std.Time.DateTime
/-!
# The command line

Every argument is an override of a setting. The run that the settings describe is carried out on the disk: the dataset
is read, log lines and events are shown, ratings and scores are written, and the event log is kept.
-/

namespace HintQuality.CommandLine

open EventLog

/-! ## Times and names -/

/-- A number with at least `width` digits. -/
def padded (width n : Nat) : String :=
  let digits := Text.natText n
  String.ofList (List.replicate (width - digits.length) '0') ++ digits

/-- A time to the microsecond, in UTC. -/
def timeText (t : Std.Time.Timestamp) : String :=
  let seconds := t.toSecondsSinceUnixEpoch.val
  let micros := t.toNanosecondsSinceUnixEpoch.val % 1000000000 / 1000
  let date := Std.Time.PlainDate.ofEpochDay (Std.Time.Day.Offset.ofInt (seconds / 86400))
  let clock := (seconds % 86400).toNat
  padded 4 date.year.toInt.toNat ++ "-" ++ padded 2 date.month.toNat ++ "-" ++ padded 2 date.day.toNat ++ "T" ++
    padded 2 (clock / 3600) ++ ":" ++ padded 2 (clock / 60 % 60) ++ ":" ++ padded 2 (clock % 60) ++ "." ++
    padded 6 micros.toNat ++ "+00:00"

/-- A name for a run that no other run has. -/
def newRun : IO String := do
  return Digest.hexText (← IO.getRandomBytes 6).toList

/-- The variables of the environment that hold settings. -/
def variableNames : List String :=
  (Settings.fields {}).flatMap fun f =>
    let name := "HINTRATING__" ++ f.1.toUpper
    match f.2 with
    | .obj inner => name :: inner.map fun g => name ++ "__" ++ g.1.toUpper
    | _ => [name]

/-- The settings in the environment. -/
def environment : IO (List (String × String)) := do
  return (← variableNames.mapM fun name => do
    return (← IO.getEnv name).map fun value => (name, value)).filterMap id

/-! ## The disk -/

/-- The text of a file, if it can be read. -/
def readText? (path : String) : IO (Option String) := do
  try
    return some (← IO.FS.readFile path)
  catch _ => return none

/-- What a folder on disk holds, put at the end of a way; no deeper than `depth`. -/
def readBelow : Nat → List String → String → IO Folder
  | 0, _, _ => return {}
  | depth + 1, way, path => do
    let entries ← (← IO.FS.realPath path).readDir
    entries.foldlM (fun f entry => do
      let inner := way ++ [entry.fileName]
      if ← entry.path.isDir then
        let g ← readBelow depth inner entry.path.toString
        return { texts := f.texts ++ g.texts, folders := f.folders ++ g.folders }
      else
        return ((← readText? entry.path.toString).map (f.put inner)).getD f) { folders := [way] }

/-- The dataset at a path, as far as it is there. -/
def readDataset (path : Path) : IO Folder := do
  try
    readBelow 5 path.settled path.text
  catch _ => return {}

/-- The files of an event log: its own, and its backups. -/
def logFiles (o : Options) : List String :=
  match o.path.name? with
  | some name => name :: (List.range o.backups).map fun i => name ++ "." ++ Text.natText (i + 1)
  | none => []

/-- Reads the files of an event log. -/
def readLog (o : Options) : IO Folder := do
  (logFiles o).foldlM (fun f name => do
    return ((← readText? (o.path.parent.child name).text).map (f.put (o.path.settled.dropLast ++ [name]))).getD f) {}

/-- Writes the files of an event log. -/
def writeLog (o : Options) (f : Folder) : IO Unit :=
  (logFiles o).forM fun name =>
    match f.content? (o.path.settled.dropLast ++ [name]) with
    | some text => IO.FS.writeFile (o.path.parent.child name).text text
    | none => return ()

/-! ## Runs -/

/-- Carries out what a run leaves behind, and keeps the journal. -/
def perform (log : Log) (j : Journal) : Effect → IO Journal
  | .log level message => do
    if Level.info.toNat ≤ level.toNat then IO.eprintln message
    return j
  | .event e => do
    let k := log.emit (timeText (← Std.Time.Timestamp.now)) e.message e j
    (k.shown.drop j.shown.length).forM (IO.eprintln ·)
    return k
  | .write path text => do
    IO.FS.writeFile path text
    return j

/-- Shows a failure; the exit code says that there was one. -/
def complain (e : Failure) : IO UInt32 := do
  IO.eprintln e.message
  return 1

/-- Carries out the run that settings describe. -/
def execute (s : Settings) : IO UInt32 := do
  let o : Options := { path := Path.ofString s.logPath, run := ← newRun }
  IO.FS.createDirAll o.path.parent.text
  let dataset ← readDataset (Path.ofString (s.dataDir.getD ""))
  let run := Dataset.run .csv s { dataset with folders := dataset.folders ++ [o.path.parent.settled] }
  match Journal.start { disk := { folder := ← readLog o } } o with
  | .error e => complain e
  | .ok (j, log) =>
    let j ← run.effects.foldlM (perform log) j
    writeLog o j.disk.folder
    match run.result with
    | .ok _ => return 0
    | .error e => complain e

end HintQuality.CommandLine

open HintQuality in
/-- Composes the settings that the arguments and the environment ask for, and runs. -/
def main (args : List String) : IO UInt32 := do
  let environment ← CommandLine.environment
  match Settings.compose args >>= fun v => Settings.ofComposed v environment with
  | .ok s => CommandLine.execute s
  | .error e => CommandLine.complain e
