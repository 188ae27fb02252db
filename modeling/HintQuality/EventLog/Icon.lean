/-!
# Icons

The signs that tell events apart at a glance.
-/

namespace HintQuality.EventLog

/-- The icons of the known types of events. -/
def icons : List (String × String) :=
  [("ConfigLoaded", "⚙️"),
   ("RatingRunStarted", "▶️"),
   ("RatingRunCompleted", "✅"),
   ("GoldStandardLoaded", "📚✅"),
   ("HintSetLoaded", "📂"),
   ("ResultsWritten", "💾"),
   ("AssignmentStarted", "📝"),
   ("RequestRated", "📊"),
   ("RequestSkipped", "⏭️"),
   ("NoHintsGenerated", "🈳"),
   ("AssignmentSummary", "📈"),
   ("warning", "⚠️"),
   ("exception", "🔥"),
   ("info", "ℹ️")]

/-- The icon of an event; a question mark if its type is not known. -/
def icon (type : String) : String :=
  (icons.lookup type).getD "❓"

end HintQuality.EventLog
