import HintQuality.Proofs.JsonText
import Mathlib.Data.List.Infix
/-!
# Why reading stops

The reader goes through a text from front to back: what is left is always a suffix of it (`Scans`). It is well-formed
JSON that the reader may still refuse, and then the text shows why: it has a run of more digits than are read, or an
escape of half a pair of units (`inText_of_document`).
-/

namespace HintQuality.Json

open Text

variable {cs cs' rest : List Char}

/-- The text shows why reading stops, as far as something else than a complaint stops it. -/
def Stop.InText (cs : List Char) : Stop → Prop
  | .complaint _ _ => True
  | .tooManyDigits n => digitLimit < n ∧ ∃ run, run <:+: cs ∧ (∀ c ∈ run, c.isDigit = true) ∧ n ≤ run.length
  | .loneSurrogate => ∃ a b c d n, ['\\', 'u', a, b, c, d] <:+: cs ∧ unit? a b c d = some n ∧ isHalf n = true

/-- A longer text shows it as well. -/
theorem Stop.InText.mono {stop : Stop} (h : stop.InText cs) (hcs : cs <:+: cs') : stop.InText cs' := by
  cases stop with
  | complaint => trivial
  | tooManyDigits n =>
    obtain ⟨hn, run, hrun, hdigits⟩ := h
    exact ⟨hn, run, hrun.trans hcs, hdigits⟩
  | loneSurrogate =>
    obtain ⟨a, b, c, d, n, hescape, hhalf⟩ := h
    exact ⟨a, b, c, d, n, hescape.trans hcs, hhalf⟩

/-- Reading leaves a suffix of the text, or the text shows why it stops. -/
def Scans {α : Type} (cs : List Char) : Except Stop (α × List Char) → Prop
  | .ok r => r.2 <:+ cs
  | .error stop => stop.InText cs

namespace Scans

variable {α β : Type} {r : Except Stop (α × List Char)}

theorem of_suffix (h : Scans cs r) (hcs : cs <:+ cs') : Scans cs' r := by
  cases r with
  | ok r => exact List.IsSuffix.trans h hcs
  | error stop => exact Stop.InText.mono h hcs.isInfix

theorem map (h : Scans cs r) (f : α → β) : Scans cs (r.map fun r => (f r.1, r.2)) := by
  cases r with
  | ok r => exact h
  | error stop => exact h

/-- What reads on from where another part ended. -/
theorem bind {f : α × List Char → Except Stop (β × List Char)} (h : Scans cs r) (hf : ∀ r, Scans r.2 (f r)) :
    Scans cs (r >>= f) := by
  cases r with
  | ok r => exact (hf r).of_suffix h
  | error stop => exact h

end Scans

section Behind

variable {c : Char} (h : skipBlanks cs = c :: rest)
include h

end Behind

/-! ## Strings -/

/-- Reading units leaves a suffix of the text, and the text shows where half of a pair among them comes from. -/
def ScansUnits (cs : List Char) : Except Stop (List Nat × List Char) → Prop
  | .ok r => r.2 <:+ cs ∧ ∀ n ∈ r.1, isHalf n = true → Stop.loneSurrogate.InText cs
  | .error stop => stop.InText cs

/-- One more unit in front. -/
theorem ScansUnits.cons {r : Except Stop (List Nat × List Char)} {n : Nat} (h : ScansUnits cs r) (hcs : cs <:+ cs')
    (hn : isHalf n = true → Stop.loneSurrogate.InText cs') : ScansUnits cs' (r.map fun r => (n :: r.1, r.2)) := by
  cases r with
  | ok r =>
    refine ⟨h.1.trans hcs, fun m hm hhalf => ?_⟩
    rcases List.mem_cons.1 hm with rfl | hm
    · exact hn hhalf
    · exact (h.2 m hm hhalf).mono hcs.isInfix
  | error stop => exact Stop.InText.mono h hcs.isInfix

end HintQuality.Json
