import HintQuality.EventLog.Console
import HintQuality.Folder.Basic
import HintQuality.Json.Printer
import HintQuality.Text.Blank
import HintQuality.Text.Lines
/-!
# The event log

Events go to the console and, one JSON object a line, to a file. When the file would outgrow its limit it is kept as a
backup and a new one begun; only so many backups are kept. Loggers have names. Logs of one name write through the same
logger, which has one file at a time: a log that is opened for the same file joins in, one for another file takes over.
Loggers of different names know nothing of each other, though they may have the same file open: when one of them keeps
it as a backup, another one goes on writing to that backup. Every event is tagged with its run, and reading gives the
events of one run in the order of the files.
-/

namespace HintQuality.EventLog

/-! ## Lines -/

/-- An event as it goes into a file. -/
structure Record where
  /-- When it happened. -/
  timestamp : String
  /-- The run that it belongs to. -/
  run : String
  /-- Where a failure comes from, in words; only failures are written with it. -/
  traceback : String
  /-- The event with all its data. -/
  event : Event

/-- The record as a JSON object. -/
def Record.entry (r : Record) : Json :=
  .obj ([("timestamp", .str r.timestamp), ("run_id", .str r.run), ("level", .str r.event.level.name),
    ("event_type", .str r.event.type), ("data", .obj r.event.data)] ++
    (if r.event.message.isEmpty then [] else [("message", .str r.event.message)]) ++
    (if r.event.isFailure then [("exception", .str r.traceback)] else []))

/-- The record as a line. -/
def Record.line (r : Record) : String :=
  r.entry.render .spaced ++ "\n"

/-! ## Open files -/

/-- A table of what names stand for, with another entry for one name. -/
def assign {α : Type} (table : String → α) (name : String) (x : α) : String → α :=
  fun n => if n = name then x else table n

/-- Where the text goes that is written to an open file: wherever the file is by now. -/
inductive Stream where
  /-- The file is at the end of a way. -/
  | file (way : List String)
  /-- Another file took its place. It has a number among those that are gone. -/
  | gone (n : Nat)
  deriving DecidableEq, Repr

/-- The stream after a file moved from one way to another; the one there, if any, is gone and has the given number. -/
def Stream.follow (old new : List String) (n : Nat) : Stream → Stream
  | file way => if way = new then gone n else if way = old then file new else file way
  | gone k => gone k

/-- Files, and those that loggers have open. -/
structure Disk where
  /-- The files. -/
  folder : Folder := {}
  /-- The texts of files that are gone. -/
  gone : List String := []
  /-- The open files by the names of the loggers. -/
  streams : String → Option Stream := fun _ => none

/-- The file that a logger writes to. -/
structure Target where
  /-- The way to it. -/
  way : List String
  /-- The least level that is written. -/
  level : Nat
  /-- The size that the file must stay below, if it is not zero. -/
  limit : Nat
  /-- The number of backups that are kept. -/
  backups : Nat
  deriving DecidableEq, Repr

/-- The way to a backup. -/
def backupWay (way : List String) (n : Nat) : List String :=
  way.dropLast ++ [(way.getLast?.getD "") ++ "." ++ Text.natText n]

namespace Disk

/-- Moves a file from one way to another, if it is there. Those who have it open go along. -/
def rename (d : Disk) (old new : List String) : Disk :=
  match d.folder.content? old with
  | some text =>
    { folder := (d.folder.remove old).put new text
      gone := d.gone ++ (d.folder.content? new).toList
      streams := fun name => (d.streams name).map (Stream.follow old new d.gone.length) }
  | none => d

/-- Moves the backups up by one, from number `n` down, over the last one. -/
def shift (way : List String) : Nat → Disk → Disk
  | 0, d => d
  | n + 1, d => shift way n (d.rename (backupWay way (n + 1)) (backupWay way (n + 2)))

/-- Opens a file for a logger. It begins empty if it is not there. -/
def openFile (d : Disk) (name : String) (way : List String) : Disk :=
  { d with
    folder := d.folder.put way ((d.folder.content? way).getD "")
    streams := assign d.streams name (some (.file way)) }

@[simp] theorem streams_openFile (d : Disk) (name : String) (way : List String) (n : String) :
    (d.openFile name way).streams n = if n = name then some (.file way) else d.streams n :=
  rfl

/-- Keeps the file of a logger as a backup and opens a new one; without backups the same way is opened again. -/
def rotate (d : Disk) (name : String) (t : Target) : Disk :=
  let d := if t.backups = 0 then d else (shift t.way (t.backups - 1) d).rename t.way (backupWay t.way 1)
  d.openFile name t.way

/-- The text of the file that a logger has open. -/
def openText (d : Disk) (name : String) : String :=
  match d.streams name with
  | some (.file way) => (d.folder.content? way).getD ""
  | some (.gone n) => d.gone.getD n ""
  | none => ""

/-- Adds a text to the file that a logger has open. -/
def write (d : Disk) (name : String) (text : String) : Disk :=
  match d.streams name with
  | some (.file way) => { d with folder := d.folder.put way (d.openText name ++ text) }
  | some (.gone n) => { d with gone := d.gone.set n (d.openText name ++ text) }
  | none => d

/-- Adds a line to the file of a logger, in a new one if the file would outgrow its limit. -/
def append (d : Disk) (name : String) (t : Target) (text : String) : Disk :=
  let full := t.limit ≠ 0 && t.limit ≤ (d.openText name).utf8ByteSize + text.length
  (if full then d.rotate name t else d).write name text

end Disk

/-! ## Loggers -/

/-- What a logger does with events. -/
structure Logger where
  /-- The least level of events that are taken, if it is not zero. -/
  threshold : Nat := 0
  /-- The least level that is shown, if there is a console. -/
  console : Option Nat := none
  /-- The file, if there is one. -/
  target : Option Target := none

/-- Whether events go nowhere. -/
def Logger.isClosed (g : Logger) : Bool :=
  g.console.isNone && g.target.isNone

/-- The name of the logger above all others. -/
def rootName : String := "root"

/-- The name of a logger; without a name it is the one above all others. -/
def loggerName (name : String) : String :=
  if name.isEmpty then rootName else name

/-- The names of the loggers above one, the nearest first: what stands before its dots, and the one above all. -/
def namesAbove (name : String) : List String :=
  let dots := (List.range name.length).filter fun i => name.toList[i]? = some '.'
  (dots.reverse.map fun i => String.ofList (name.toList.take i)) ++ [rootName]

/-- Where events go. -/
structure Journal where
  /-- The files. -/
  disk : Disk := {}
  /-- The loggers by their names. -/
  loggers : String → Logger := assign (fun _ => {}) rootName { threshold := Level.warning.toNat }
  /-- What the consoles show. -/
  shown : List String := []

/-- A log: the run that it belongs to, and what it adds to every event. -/
structure Log where
  /-- The path of the file, as it was given. -/
  path : Path
  /-- The run. -/
  run : String
  /-- What is added to the data of every event, unless the event says otherwise. -/
  context : Json.Fields := []
  /-- The number of backups that are read. -/
  backups : Nat := 5
  /-- The name of the logger that it writes through. -/
  logger : String := "hintrating.events"

/-- How to open a log. -/
structure Options where
  path : Path
  run : String
  level : Nat := 20
  limit : Nat := 10000000
  backups : Nat := 5
  name : String := "hintrating.events"
  hasConsole : Bool := true
  hasFile : Bool := true
  context : Json.Fields := []

namespace Journal

/-- Changes a logger. -/
def setLogger (j : Journal) (name : String) (g : Logger) : Journal :=
  { j with loggers := assign j.loggers name g }

@[simp] theorem loggers_setLogger (j : Journal) (name : String) (g : Logger) (n : String) :
    (j.setLogger name g).loggers n = if n = name then g else j.loggers n :=
  rfl

@[simp] theorem disk_setLogger (j : Journal) (name : String) (g : Logger) : (j.setLogger name g).disk = j.disk :=
  rfl

/-- The least level of events that a logger takes: its own, or that of the nearest logger above that has one. -/
def levelAt (j : Journal) (name : String) : Nat :=
  (((name :: namesAbove name).map fun n => (j.loggers n).threshold).find? (· ≠ 0)).getD 0

/-- Closes the file and the console of a logger. -/
def close (j : Journal) (name : String) : Journal :=
  { j.setLogger name { threshold := (j.loggers name).threshold } with
    disk := { j.disk with streams := assign j.disk.streams name none } }

@[simp] theorem loggers_close (j : Journal) (name n : String) : (j.close name).loggers n =
    if n = name then { threshold := (j.loggers name).threshold } else j.loggers n :=
  rfl

@[simp] theorem streams_close (j : Journal) (name n : String) :
    (j.close name).disk.streams n = if n = name then none else j.disk.streams n :=
  rfl

/-- Opens the file of a log. -/
def openTarget (j : Journal) (o : Options) : Except Failure Journal := do
  let folder ← j.disk.folder.make o.path.parent
  let way := o.path.settled
  let name := loggerName o.name
  if folder.hasFolder way then .error (.isFolder o.path.text)
  else
    let j := j.setLogger name { j.loggers name with target := some ⟨way, o.level, o.limit, o.backups⟩ }
    return { j with disk := { j.disk with folder := folder }.openFile name way }

/-- The journal as a log takes it over: closed, with the level and the console that the log wants. -/
def takeOver (j : Journal) (o : Options) : Journal :=
  (j.close (loggerName o.name)).setLogger (loggerName o.name)
    { threshold := o.level, console := if o.hasConsole then some o.level else none }

/-- Opens a log. It joins in if its logger has the file already, and takes over if not. -/
def start (j : Journal) (o : Options) : Except Failure (Journal × Log) := do
  let name := loggerName o.name
  let log : Log := ⟨o.path, o.run, o.context, o.backups, name⟩
  let g := { j.loggers name with threshold := o.level }
  let wanted := if o.hasFile then some o.path.settled else none
  if !g.isClosed && g.target.map Target.way = wanted then return (j.setLogger name g, log)
  else if o.hasFile then return (← (j.takeOver o).openTarget o, log)
  else return (j.takeOver o, log)

/-- Shows an event on the console of a logger, unless an integer in it has too many digits. -/
def showEvent (j : Journal) (name : String) (e : Event) : Journal :=
  match (j.loggers name).console with
  | some level =>
    if level ≤ e.level.toNat && (Json.obj e.data).isShort then { j with shown := j.shown ++ [consoleLine e] } else j
  | none => j

/-- Writes a record to the file of a logger, unless an integer in it has too many digits. -/
def writeRecord (j : Journal) (name : String) (r : Record) : Journal :=
  match (j.loggers name).target with
  | some t =>
    if t.level ≤ r.event.level.toNat && r.entry.isShort then { j with disk := j.disk.append name t r.line } else j
  | none => j

/-- The least level of events whose message is shown even if a logger is closed. -/
def lastResort : Nat := Level.warning.toNat

/-- What is shown of an event if its logger is closed. -/
def bareText (r : Record) : String :=
  if r.event.isFailure then r.event.message ++ "\n" ++ r.traceback else r.event.message

/-- Takes a record for a logger. -/
def take (j : Journal) (name : String) (r : Record) : Journal :=
  if r.event.level.toNat < j.levelAt name then j
  else if (j.loggers name).isClosed then
    if lastResort ≤ r.event.level.toNat then { j with shown := j.shown ++ [bareText r] } else j
  else (j.showEvent name r.event).writeRecord name r

end Journal

/-! ## Logs -/

namespace Log

/-- The same log with more to add to every event. -/
def bind (l : Log) (context : Json.Fields) : Log :=
  { l with context := l.context.putAll context }

/-- What a log makes of an event; its data is what the log adds, overridden by its own. -/
def record (l : Log) (timestamp traceback : String) (e : Event) : Record :=
  ⟨timestamp, l.run, traceback, { e with data := l.context.putAll e.data }⟩

/-- Records an event. -/
def emit (l : Log) (timestamp traceback : String) (e : Event) (j : Journal) : Journal :=
  j.take l.logger (l.record timestamp traceback e)

/-- Records an event of the rating. One that says nothing is dropped. -/
def log (l : Log) (timestamp type : String) (data : Json.Fields) (j : Journal) : Journal :=
  if data.isEmpty then j else l.emit timestamp "" { type := type, data := data } j

/-- Records a message. -/
def info (l : Log) (timestamp message : String) (data : Json.Fields) (j : Journal) : Journal :=
  l.emit timestamp "" { type := "info", data := data, message := message } j

/-- Records a warning. -/
def warning (l : Log) (timestamp message : String) (data : Json.Fields) (j : Journal) : Journal :=
  l.emit timestamp "" { level := .warning, type := "warning", data := data, message := message } j

/-- Records a failure. -/
def exception (l : Log) (timestamp traceback message : String) (data : Json.Fields) (j : Journal) : Journal :=
  l.emit timestamp traceback
    { level := .error, type := "exception", data := data, message := message, isFailure := true } j

/-- Closes the logger of a log, for all logs that write through it. -/
def close (l : Log) (j : Journal) : Journal :=
  j.close l.logger

/-- The data of an event from JSON; anything that counts as nothing is none. -/
def dataOf (v : Json) : Except Failure Json.Fields :=
  if v.isEmptyLike then .ok []
  else
    match v with
    | .obj fields => .ok fields
    | _ => .error .wrongType

/-! ### Reading -/

/-- The texts of the files, the oldest backup first. -/
def texts (l : Log) (f : Folder) : List String :=
  match f.way? l.path with
  | none => []
  | some way =>
    (((List.range l.backups).map fun i => backupWay way (l.backups - i)) ++ [way]).filterMap f.content?

/-- The lines of a text that are not blank. -/
def linesOf (text : String) : List String :=
  ((Text.pieces '\n' (Text.unifyBreaks text.toList)).map fun l => Text.trim (String.ofList l)).filter (· ≠ "")

/-- The fields of an event in a line. -/
def readLine (s : String) : Except Failure Json.Fields :=
  match Json.parse s with
  | .ok (.obj fields) => .ok fields
  | .ok _ => .error .noSuchAttribute
  | .error e => .error (Failure.ofReadError (fun _ => .unreadableLog) e)

/-- Whether a field of an event is a text. -/
def hasText (fields : Json.Fields) (name value : String) : Bool :=
  match fields.get? name with
  | some (.str s) => s = value
  | _ => false

/-- The events of all runs. -/
def readAll (l : Log) (f : Folder) : Except Failure (List Json.Fields) :=
  ((l.texts f).flatMap linesOf).mapM readLine

/-- The events of the run, in the order in which they were written. -/
def read (l : Log) (f : Folder) : Except Failure (List Json.Fields) :=
  (l.readAll f).map fun entries => entries.filter (hasText · "run_id" l.run)

/-- The events of the run of one type. -/
def readType (l : Log) (f : Folder) (type : String) : Except Failure (List Json.Fields) :=
  (l.read f).map fun entries => entries.filter (hasText · "event_type" type)

end Log

end HintQuality.EventLog
