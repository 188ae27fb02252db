import HintQuality.Proofs.DiffContext
import HintQuality.Proofs.LongestBlocks
import HintQuality.Proofs.TextLines
import HintQuality.Proofs.Twins
/-!
# Line diffs lose nothing

The lines of a difference are those of its texts: without the added ones they are the first text, without the removed
ones the second (`left_diffLines`, `right_diffLines`), since the segments of an alignment make up both lists and what
is paired is the same line. None is changed exactly if the texts have the same lines (`forall_kept_iff`). The shown text
is read line by line (`lines_diff`), so that both texts can be had from it again (`diff_lossless`).
-/

namespace HintQuality.Diff

/-! ## Both sides -/

/-- Without added lines a segment is its part of the first text. -/
theorem left_segmentLines (s : Segment String String) :
    ((segmentLines s).filter (·.mark ≠ .added)).map Line.text = s.left := by
  cases s with
  | same pairs => simp [segmentLines, Segment.left, List.filter_map, Function.comp_def]
  | changed old new => simp [segmentLines, Segment.left, List.filter_map, Function.comp_def]

/-- Without removed lines a segment is its part of the second text, if its pairs are pairs of the same line. -/
theorem right_segmentLines {s : Segment String String} (h : ∀ pairs, s = .same pairs → ∀ p ∈ pairs, p.1 = p.2) :
    ((segmentLines s).filter (·.mark ≠ .removed)).map Line.text = s.right := by
  cases s with
  | same pairs =>
    have hpairs : pairs.map Prod.fst = pairs.map Prod.snd := List.map_congr_left (h pairs rfl)
    simpa [segmentLines, Segment.right, List.filter_map, Function.comp_def] using hpairs
  | changed old new => simp [segmentLines, Segment.right, List.filter_map, Function.comp_def]

variable {a b : List String}

theorem left_diffLines (a b : List String) : ((diffLines a b).filter (·.mark ≠ .added)).map Line.text = a := by
  rw [diffLines, List.filter_flatMap, List.map_flatMap, funext left_segmentLines]
  exact left_align _ a b

theorem right_diffLines (a b : List String) : ((diffLines a b).filter (·.mark ≠ .removed)).map Line.text = b := by
  have hsame : ∀ s ∈ align (· == ·) a b, ((segmentLines s).filter (·.mark ≠ .removed)).map Line.text = s.right := by
    refine fun s hs => right_segmentLines fun pairs he p hp => ?_
    subst he
    exact eq_of_beq (agree_of_mem_align (· == ·) hs hp)
  rw [diffLines, List.filter_flatMap, List.map_flatMap, List.flatMap_congr hsame]
  exact right_align _ a b

/-- Every line is a line of one of the texts. -/
theorem text_mem {l : Line} (hl : l ∈ diffLines a b) : l.text ∈ a ∨ l.text ∈ b := by
  by_cases hm : l.mark = .added
  · right
    rw [← right_diffLines a b]
    exact List.mem_map_of_mem (List.mem_filter.2 ⟨hl, by simp [hm]⟩)
  · left
    rw [← left_diffLines a b]
    exact List.mem_map_of_mem (List.mem_filter.2 ⟨hl, by simp [hm]⟩)

/-- No line is changed exactly if there is no difference. -/
theorem forall_kept_iff : (∀ l ∈ diffLines a b, l.mark = .kept) ↔ a = b := by
  constructor
  · intro hkept
    have hall : ∀ m : Mark, m ≠ .kept → (diffLines a b).filter (·.mark ≠ m) = diffLines a b := by
      refine fun m hm => List.filter_eq_self.2 fun l hl => ?_
      rw [hkept l hl]
      exact decide_eq_true hm.symm
    have hleft := left_diffLines a b
    have hright := right_diffLines a b
    rw [hall _ (by decide)] at hleft hright
    exact hleft.symm.trans hright
  · rintro rfl l hl
    obtain ⟨s, hs, hl⟩ := List.mem_flatMap.1 hl
    rw [align_of_forall₂ (List.forall₂_same.2 fun x _ => beq_self_eq_true x)] at hs
    split at hs
    · cases hs
    · rw [List.mem_singleton.1 hs] at hl
      obtain ⟨p, -, rfl⟩ := List.mem_map.1 hl
      rfl

/-! ## Reading a difference -/

/-- Whether a shown line starts with the sign of a mark. -/
def Mark.leads (m : Mark) (l : String) : Bool :=
  (m.sign ++ " ").toList.isPrefixOf l.toList

/-- A shown line without its sign. -/
def withoutSign (l : String) : String :=
  String.ofList (l.toList.drop 2)

/-- The shown lines but those of a mark, without their signs. -/
def without (m : Mark) (shown : List String) : List String :=
  (shown.filter fun l => !m.leads l).map withoutSign

theorem leads_plain (m : Mark) (l : Line) : m.leads l.plain = decide (l.mark = m) := by
  obtain ⟨mark, text⟩ := l
  cases m <;> cases mark <;> simp [Mark.leads, Line.plain, Mark.sign, List.isPrefixOf]

theorem withoutSign_plain (l : Line) : withoutSign l.plain = l.text := by
  obtain ⟨mark, text⟩ := l
  cases mark <;> simp [withoutSign, Line.plain, Mark.sign]

theorem toList_plain (l : Line) : l.plain.toList = l.mark.sign.toList ++ ' ' :: l.text.toList := by
  simp [Line.plain]

theorem toList_plain_ne_nil (l : Line) : l.plain.toList ≠ [] := by
  simp [toList_plain]

theorem unbroken_plain {l : Line} (h : Text.Unbroken l.text.toList) : Text.Unbroken l.plain.toList := by
  have hsign : Text.Unbroken (l.mark.sign.toList ++ [' ']) := by
    cases l.mark <;> decide
  rw [toList_plain, ← List.singleton_append, ← List.append_assoc]
  exact hsign.append h

theorem without_map_plain (m : Mark) (lines : List Line) :
    without m (lines.map Line.plain) = (lines.filter (·.mark ≠ m)).map Line.text := by
  rw [without, List.filter_map, List.map_map]
  simp [Function.comp_def, leads_plain, withoutSign_plain]

theorem unbroken_diffLines (a b : String) :
    ∀ l ∈ diffLines (Text.lines a) (Text.lines b), Text.Unbroken l.text.toList :=
  fun _ hl => (text_mem hl).elim Text.unbroken_of_mem_lines Text.unbroken_of_mem_lines

/-- Everything shown in the plain style is a line of its own. -/
theorem render_plain {lines : List Line} (hlines : ∀ l ∈ lines, Text.Unbroken l.text.toList) {context : Option Int}
    {s : Shown} (hs : s ∈ inContext lines context) :
    (s.render .none lines).toList ≠ [] ∧ Text.Unbroken (s.render .none lines).toList := by
  rcases render_cases hs with rfl | ⟨l, hl, hrender⟩
  · have hgap : Shown.gap.render .none lines = "..." := rfl
    rw [hgap]
    decide
  · have hplain : l.render .none = l.plain := rfl
    rw [hrender, hplain]
    exact ⟨toList_plain_ne_nil l, unbroken_plain (hlines l hl)⟩

/-- A plain difference is read line by line. -/
theorem lines_diff (a b : String) (context : Option Int) :
    Text.lines (diff a b context) = renderedLines a b context .none := by
  refine Text.lines_intercalate fun t ht => ?_
  obtain ⟨s, hs, rfl⟩ := List.mem_map.1 ht
  exact render_plain (unbroken_diffLines a b) hs

/-- Without a context all lines are shown. -/
theorem renderedLines_all (a b : String) :
    renderedLines a b none .none = (diffLines (Text.lines a) (Text.lines b)).map Line.plain := by
  let lines := diffLines (Text.lines a) (Text.lines b)
  show ((List.range lines.length).map Shown.line).map (Shown.render .none lines) = lines.map (Line.render .none)
  rw [List.map_map]
  refine List.ext_getElem (by simp) fun i hi hi' => ?_
  rw [List.length_map] at hi'
  simp [Shown.render, hi']

/-- A difference of two texts that shows all lines holds both of them. Every line that it shows starts with a sign;
without those that start with the sign of an added line, and without signs, they are the lines of the first text, and
without those of removed lines they are the lines of the second. No line starts with either sign exactly if the texts
have the same lines. -/
theorem diff_lossless (a b : String) :
    (∀ l ∈ Text.lines (diff a b), ∃ m : Mark, m.leads l = true) ∧
      without .added (Text.lines (diff a b)) = Text.lines a ∧
        without .removed (Text.lines (diff a b)) = Text.lines b ∧
          (Text.lines a = Text.lines b ↔
            ∀ l ∈ Text.lines (diff a b), Mark.removed.leads l = false ∧ Mark.added.leads l = false) := by
  rw [lines_diff, renderedLines_all]
  refine ⟨?_, ?_, ?_, ?_⟩
  · rintro _ hl
    obtain ⟨l, -, rfl⟩ := List.mem_map.1 hl
    exact ⟨l.mark, by rw [leads_plain]; exact decide_eq_true rfl⟩
  · rw [without_map_plain, left_diffLines]
  · rw [without_map_plain, right_diffLines]
  · rw [← forall_kept_iff, List.forall_mem_map]
    refine forall₂_congr fun l _ => ?_
    rw [leads_plain, leads_plain]
    cases l.mark <;> decide

end HintQuality.Diff
