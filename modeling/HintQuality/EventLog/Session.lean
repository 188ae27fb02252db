import HintQuality.EventLog.Journal
/-!
# Sessions

What is done with the logs of a journal, one action after the other: a log is opened, a log gets a view that adds more
to every event, an event is recorded, and the logger of a log is closed. A session remembers what went into files since
it began and how often a file became a backup.
-/

namespace HintQuality.EventLog

/-- The file that a record goes into, if it goes into one. -/
def Journal.targetFor? (j : Journal) (name : String) (r : Record) : Option Target :=
  if r.event.level.toNat < j.levelAt name then none
  else (j.loggers name).target.filter fun t => t.level ≤ r.event.level.toNat && r.entry.isShort

/-- Whether the file of a logger becomes a backup before a text is added to it. -/
def Target.rotates (t : Target) (d : Disk) (name text : String) : Bool :=
  t.backups ≠ 0 && t.limit ≠ 0 && t.limit ≤ (d.openText name).utf8ByteSize + text.length

/-- Something that is done with the logs of a journal. Logs go by their numbers. -/
inductive Action where
  /-- A log is opened. -/
  | start (o : Options)
  /-- A log gets a view, which is a log itself. -/
  | bind (log : Nat) (context : Json.Fields)
  /-- A log records an event. -/
  | emit (log : Nat) (timestamp traceback : String) (e : Event)
  /-- The logger of a log is closed. -/
  | close (log : Nat)

/-- A journal with its logs, and what happened to the files. -/
structure Session where
  /-- The journal. -/
  journal : Journal := {}
  /-- The logs, in the order in which they came up. -/
  logs : List Log := []
  /-- What went into files. -/
  written : List Record := []
  /-- How often a file became a backup. -/
  rotations : Nat := 0

namespace Session

/-- Records an event. -/
def emit (s : Session) (l : Log) (timestamp traceback : String) (e : Event) : Session :=
  let r := l.record timestamp traceback e
  let s' := { s with journal := l.emit timestamp traceback e s.journal }
  match s.journal.targetFor? l.logger r with
  | none => s'
  | some t =>
    { s' with
      written := s.written ++ [r]
      rotations := if t.rotates s.journal.disk l.logger r.line then s.rotations + 1 else s.rotations }

/-- Does one thing. A log that cannot be opened leaves its logger without a file, and one that is not there does
nothing. -/
def perform (s : Session) : Action → Session
  | .start o =>
    match s.journal.start o with
    | .ok (j, l) => { s with journal := j, logs := s.logs ++ [l] }
    | .error _ => { s with journal := s.journal.takeOver o }
  | .bind log context =>
    match s.logs[log]? with
    | some l => { s with logs := s.logs ++ [l.bind context] }
    | none => s
  | .emit log timestamp traceback e =>
    match s.logs[log]? with
    | some l => s.emit l timestamp traceback e
    | none => s
  | .close log =>
    match s.logs[log]? with
    | some l => { s with journal := l.close s.journal }
    | none => s

/-- Does one thing after the other. -/
def run (s : Session) (actions : List Action) : Session :=
  actions.foldl perform s

end Session

end HintQuality.EventLog
