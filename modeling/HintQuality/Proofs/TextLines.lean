import HintQuality.Text.Lines
import Mathlib.Data.List.Basic
/-!
# Lines put together again

The lines of a text hold no line breaks (`unbroken_of_mem_lines`), and lines that hold none are read back from the text
that they are joined to (`map_lines_intercalate`). What stands before the line feed between two lines is read with the
line, so it has to be something that the reader looks past.
-/

namespace HintQuality.Text

/-- No character ends a line. -/
def Unbroken (cs : List Char) : Prop :=
  ∀ c ∈ cs, isBreak c = false

instance (cs : List Char) : Decidable (Unbroken cs) :=
  List.decidableBAll (isBreak · = false) cs

theorem Unbroken.append {cs ds : List Char} (hcs : Unbroken cs) (hds : Unbroken ds) : Unbroken (cs ++ ds) :=
  fun c hc => (List.mem_append.1 hc).elim (hcs c) (hds c)

theorem linesGo_feed (acc cs : List Char) : linesGo acc ('\n' :: cs) = acc.reverse :: linesGo [] cs := by
  rw [linesGo]
  · rfl
  · intro _ h
    cases h

/-- A character that ends no line belongs to the current one. -/
theorem linesGo_cons {c : Char} (hc : isBreak c = false) (acc cs : List Char) :
    linesGo acc (c :: cs) = linesGo (c :: acc) cs := by
  rw [linesGo]
  · rw [hc]
    rfl
  · rintro _ rfl
    cases hc

theorem linesGo_append {cs : List Char} (h : Unbroken cs) (acc rest : List Char) :
    linesGo acc (cs ++ rest) = linesGo (cs.reverse ++ acc) rest := by
  induction cs generalizing acc with
  | nil => rfl
  | cons c cs ih =>
    rw [List.cons_append, linesGo_cons (h c List.mem_cons_self), ih fun d hd => h d (List.mem_cons_of_mem _ hd),
      List.reverse_cons, List.append_assoc, List.singleton_append]

theorem unbroken_of_mem_linesGo {acc cs l : List Char} (hacc : Unbroken acc) (hl : l ∈ linesGo acc cs) :
    Unbroken l := by
  have hreverse : ∀ {acc : List Char}, Unbroken acc → Unbroken acc.reverse :=
    fun h c hc => h c (List.mem_reverse.1 hc)
  have hnil : Unbroken [] := fun c hc => by cases hc
  fun_induction linesGo acc cs with
  | case1 acc hempty => cases hl
  | case2 acc hempty =>
    rw [List.mem_singleton.1 hl]
    exact hreverse hacc
  | case3 acc cs ih =>
    rcases List.mem_cons.1 hl with rfl | hl
    · exact hreverse hacc
    · exact ih hnil hl
  | case4 acc c cs _ hc ih =>
    rcases List.mem_cons.1 hl with rfl | hl
    · exact hreverse hacc
    · exact ih hnil hl
  | case5 acc c cs _ hc ih =>
    refine ih (fun d hd => ?_) hl
    rcases List.mem_cons.1 hd with rfl | hd
    · simpa using hc
    · exact hacc d hd

/-- The lines of a text hold no line breaks. -/
theorem unbroken_of_mem_lines {s l : String} (hl : l ∈ lines s) : Unbroken l.toList := by
  obtain ⟨cs, hcs, rfl⟩ := List.mem_map.1 hl
  rw [String.toList_ofList]
  exact unbroken_of_mem_linesGo (fun c hc => by cases hc) hcs

section Join

variable {β : Type} {tail : List Char}

theorem map_linesGo_intercalate (htail : Unbroken tail) {f : List Char → β} : ∀ {ls : List (List Char)},
    (∀ l ∈ ls, l ≠ [] ∧ Unbroken l ∧ f (l ++ tail) = f l) →
      (linesGo [] ((tail ++ ['\n']).intercalate ls)).map f = ls.map f
  | [], _ => rfl
  | [l], h => by
    obtain ⟨hne, hl, -⟩ := h l List.mem_cons_self
    have hread : linesGo [] l = [l] := by
      have happend := linesGo_append hl [] []
      rw [List.append_nil, List.append_nil] at happend
      rw [happend, linesGo, if_neg (by simpa using hne), List.reverse_reverse]
    rw [List.intercalate_singleton, hread]
  | l :: l' :: ls, h => by
    obtain ⟨-, hl, hf⟩ := h l List.mem_cons_self
    have hrest := map_linesGo_intercalate htail fun k hk => h k (List.mem_cons_of_mem l hk)
    have hsplit : l ++ (tail ++ ['\n']) ++ (tail ++ ['\n']).intercalate (l' :: ls) =
        (l ++ tail) ++ '\n' :: (tail ++ ['\n']).intercalate (l' :: ls) := by
      simp
    rw [List.intercalate_cons_cons, hsplit, linesGo_append (hl.append htail), linesGo_feed, List.append_nil,
      List.reverse_reverse, List.map_cons, hf, hrest]
    rfl

end Join

/-- Lines that are joined are read back, by a reader that looks past what stands before the line feeds. -/
theorem map_lines_intercalate {β : Type} {tail : String} (htail : Unbroken tail.toList) {f : List Char → β}
    {ls : List String} (h : ∀ l ∈ ls, l.toList ≠ [] ∧ Unbroken l.toList ∧ f (l.toList ++ tail.toList) = f l.toList) :
    (lines ((tail ++ "\n").intercalate ls)).map (fun l => f l.toList) = ls.map fun l => f l.toList := by
  have hchars : ∀ l ∈ ls.map String.toList, l ≠ [] ∧ Unbroken l ∧ f (l ++ tail.toList) = f l := by
    intro l hl
    obtain ⟨s, hs, rfl⟩ := List.mem_map.1 hl
    exact h s hs
  have hread := map_linesGo_intercalate htail hchars
  rw [List.map_map] at hread
  rw [lines, List.map_map, String.toList_intercalate, String.toList_append]
  simpa [Function.comp_def] using hread

/-- Lines that are joined by line feeds are read back. -/
theorem lines_intercalate {ls : List String} (h : ∀ l ∈ ls, l.toList ≠ [] ∧ Unbroken l.toList) :
    lines ("\n".intercalate ls) = ls := by
  have htail : Unbroken "".toList := fun c hc => by cases hc
  have hread := map_lines_intercalate (f := String.ofList) htail fun l hl => ⟨(h l hl).1, (h l hl).2, by simp⟩
  simpa using hread

end HintQuality.Text
