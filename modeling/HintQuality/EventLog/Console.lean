import HintQuality.EventLog.Icon
import HintQuality.Trace
/-!
# Console lines

An event on one line for people who watch a run: its icon and type, the assignment and request it is about, its
message and the rest of its data. Long lines are cut off. Main statement: `length_truncated`, no line is longer than
the width.
-/

namespace HintQuality.EventLog

/-- The number of characters in a line. -/
def lineWidth : Nat := 120

/-- The names of the fields that say where an event belongs. -/
def locatorNames : List String :=
  ["assignment_id", "request_id"]

/-- A line cut off to a width. -/
def truncated (width : Nat) (line : String) : String :=
  if width < line.length then String.ofList (line.toList.take (width - 3)) ++ "..." else line

/-- The words of an event. -/
def consoleWords (e : Event) : List String :=
  let locator := (locatorNames.filterMap e.data.get?).map Json.display
  let rest := e.data.filter fun f => f.1 ∉ locatorNames
  [icon e.type, e.type] ++ (if locator.isEmpty then [] else ["/".intercalate locator]) ++
    (if e.message.isEmpty then [] else [e.message]) ++ rest.map fun f => f.1 ++ "=" ++ f.2.display

/-- An event on one line. -/
def consoleLine (e : Event) : String :=
  truncated lineWidth (" ".intercalate (consoleWords e))

/-- No line is longer than the width. -/
theorem length_truncated {width : Nat} (h : 3 ≤ width) (line : String) : (truncated width line).length ≤ width := by
  simp only [truncated]
  split
  · have h3 : ("..." : String).length = 3 := rfl
    rw [String.length_append, String.length_ofList, List.length_take, h3]
    omega
  · omega

end HintQuality.EventLog
