import HintQuality.Failure
/-!
# Traced computations

Computations that leave a trace: lines of the log, events and files written, in order. A failure ends a computation
and keeps the trace up to there. Main statements: `effects_bind_ok` and `effects_bind_error`.
-/

namespace HintQuality

/-- How serious a log line or an event is. -/
inductive Level where
  | debug
  | info
  | warning
  | error
  deriving DecidableEq, Repr

namespace Level

/-- The name of a level. -/
def name : Level → String
  | debug => "DEBUG"
  | info => "INFO"
  | warning => "WARNING"
  | error => "ERROR"

/-- The number of a level. -/
def toNat : Level → Nat
  | debug => 10
  | info => 20
  | warning => 30
  | error => 40

end Level

/-- An event of a run. -/
structure Event where
  /-- How serious it is. -/
  level : Level := .info
  /-- What kind of event it is. -/
  type : String
  /-- What there is to say about it. -/
  data : Json.Fields
  /-- A message, for events that have one. -/
  message : String := ""
  /-- Whether it reports a failure. -/
  isFailure : Bool := false
  deriving Repr

/-- An event as JSON. -/
def Event.toJson (e : Event) : Json :=
  .obj ([("level", .str e.level.name), ("event_type", .str e.type), ("data", .obj e.data)] ++
    (if e.message.isEmpty then [] else [("message", .str e.message)]) ++
    (if e.isFailure then [("exception", .bool true)] else []))

/-- What a computation leaves behind. -/
inductive Effect where
  /-- A line of the log. -/
  | log (level : Level) (message : String)
  /-- An event. -/
  | event (e : Event)
  /-- A file. -/
  | write (path text : String)
  deriving Repr

/-- A computation that leaves a trace and may fail. -/
structure Traced (α : Type) where
  /-- The trace. -/
  effects : List Effect
  /-- The result. -/
  result : Except Failure α

namespace Traced

variable {α β : Type}

/-- Goes on with a result, or stops at a failure. -/
def andThen (t : Traced α) (f : α → Traced β) : Traced β :=
  match t.result with
  | .ok x => ⟨t.effects ++ (f x).effects, (f x).result⟩
  | .error e => ⟨t.effects, .error e⟩

instance : Monad Traced where
  pure x := ⟨[], .ok x⟩
  bind := andThen

/-- Fails. -/
def fail (e : Failure) : Traced α :=
  ⟨[], .error e⟩

/-- A computation without a trace. -/
def lift (r : Except Failure α) : Traced α :=
  ⟨[], r⟩

/-- Leaves something more behind if a computation fails. -/
def onFailure (t : Traced α) (f : Failure → List Effect) : Traced α :=
  match t.result with
  | .ok _ => t
  | .error e => ⟨t.effects ++ f e, .error e⟩

/-- Leaves one thing behind. -/
def emit (e : Effect) : Traced Unit :=
  ⟨[e], .ok ()⟩

/-- Leaves a log line behind. -/
def log (level : Level) (message : String) : Traced Unit :=
  emit (.log level message)

/-- Leaves an event behind. -/
def event (e : Event) : Traced Unit :=
  emit (.event e)

/-- Reads a tree; text that is no JSON leaves an error in the log. -/
def parseTree (source : Json) : Traced Tree :=
  match Tree.parse source with
  | .error (.unreadableTree (.notJson e) source) =>
    ⟨[.log .error (TreeProblem.notJson e).message], .error (.unreadableTree (.notJson e) source)⟩
  | r => lift r

/-- The log lines of a trace. -/
def logLines (effects : List Effect) : List (Level × String) :=
  effects.filterMap fun
    | .log level message => some (level, message)
    | _ => none

/-- The events of a trace. -/
def events (effects : List Effect) : List Event :=
  effects.filterMap fun
    | .event e => some e
    | _ => none

/-- The files of a trace. -/
def files (effects : List Effect) : List (String × String) :=
  effects.filterMap fun
    | .write path text => some (path, text)
    | _ => none

theorem effects_bind_ok {t : Traced α} {x : α} (h : t.result = .ok x) (f : α → Traced β) :
    (t >>= f).effects = t.effects ++ (f x).effects := by
  show (andThen t f).effects = _
  simp [andThen, h]

theorem effects_bind_error {t : Traced α} {e : Failure} (h : t.result = .error e) (f : α → Traced β) :
    (t >>= f).effects = t.effects := by
  show (andThen t f).effects = _
  simp [andThen, h]

end Traced

end HintQuality
