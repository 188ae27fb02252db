import HintQuality.Diff
import Mathlib.Data.List.Infix
import Mathlib.Tactic.SplitIfs
/-!
# Changes in context

The lines that a difference shows are those near a change. The numbers of the lines around one change are put among
those kept so far, so that they stay in order and without repetitions (`pairwise_addRange`) and none is lost
(`mem_addRange`). A gap is marked where the next number does not follow the last one
(`markGaps_append_cons_cons`), which is where lines were left out, since the numbers ascend (`showsContext_inContext`).
-/

namespace HintQuality.Diff

/-! ## Lines near a change -/

/-- A line that is changed is no further away than the context says. -/
def NearChange (lines : List Line) (context : Int) (k : Nat) : Prop :=
  ∃ (j : Nat) (l : Line), lines[j]? = some l ∧ l.mark ≠ .kept ∧ ((k : Int) - j).natAbs ≤ context

theorem mem_changedIndices {lines : List Line} {j : Nat} :
    j ∈ changedIndices lines ↔ ∃ l, lines[j]? = some l ∧ l.mark ≠ .kept := by
  rw [changedIndices, List.mem_map]
  constructor
  · rintro ⟨⟨l, i⟩, hl, rfl⟩
    obtain ⟨hmem, hmark⟩ := List.mem_filter.1 hl
    exact ⟨l, List.mem_zipIdx_iff_getElem?.1 hmem, of_decide_eq_true hmark⟩
  · rintro ⟨l, hl, hmark⟩
    exact ⟨(l, j), List.mem_filter.2 ⟨List.mem_zipIdx_iff_getElem?.2 hl, decide_eq_true hmark⟩, rfl⟩

theorem mem_addRange {first stop k : Nat} {kept : List Nat} :
    k ∈ addRange first stop kept ↔ (first ≤ k ∧ k < stop) ∨ k ∈ kept := by
  simp only [addRange, List.mem_append, List.mem_filter, List.mem_range'_1, decide_eq_true_eq]
  constructor
  · rintro ((⟨hk, -⟩ | hk) | ⟨hk, -⟩)
    · exact .inr hk
    · exact .inl (by omega)
    · exact .inr hk
  · rintro (hk | hk)
    · exact .inl (.inr (by omega))
    · by_cases hfirst : k < first
      · exact .inl (.inl ⟨hk, hfirst⟩)
      · by_cases hstop : k < stop
        · exact .inl (.inr (by omega))
        · exact .inr ⟨hk, by omega⟩

theorem pairwise_addRange {kept : List Nat} (h : kept.Pairwise (· < ·)) (first stop : Nat) :
    (addRange first stop kept).Pairwise (· < ·) := by
  rw [addRange, List.pairwise_append, List.pairwise_append]
  simp only [List.mem_append, List.mem_filter, List.mem_range'_1, decide_eq_true_eq]
  refine ⟨⟨h.filter _, List.pairwise_lt_range' _, ?_⟩, h.filter _, ?_⟩
  · rintro i ⟨-, hi⟩ j hj
    omega
  · rintro i (⟨-, hi⟩ | hi) j ⟨-, hj⟩
    · omega
    · omega

/-- The lines around line `i` are those that are no further from it than the context says. -/
theorem mem_addAround {n : Nat} {context : Int} {kept : List Nat} {i k : Nat} :
    k ∈ addAround n context kept i ↔ (k < n ∧ ((k : Int) - i).natAbs ≤ context) ∨ k ∈ kept := by
  rw [addAround, mem_addRange]
  refine or_congr_left ?_
  omega

theorem mem_foldl_addAround {n : Nat} {context : Int} {changed kept : List Nat} {k : Nat} :
    k ∈ changed.foldl (addAround n context) kept ↔
      (k < n ∧ ∃ j ∈ changed, ((k : Int) - j).natAbs ≤ context) ∨ k ∈ kept := by
  induction changed generalizing kept with
  | nil => simp
  | cons i changed ih =>
    rw [List.foldl_cons, ih, mem_addAround, List.exists_mem_cons_iff, and_or_left, or_assoc, or_left_comm]

theorem pairwise_foldl_addAround {n : Nat} {context : Int} {changed kept : List Nat} (h : kept.Pairwise (· < ·)) :
    (changed.foldl (addAround n context) kept).Pairwise (· < ·) := by
  induction changed generalizing kept with
  | nil => exact h
  | cons i changed ih => exact ih (pairwise_addRange h _ _)

/-- The lines that are kept are those near a changed line. -/
theorem mem_keptIndices {lines : List Line} {context : Int} {k : Nat} :
    k ∈ keptIndices lines context ↔ k < lines.length ∧ NearChange lines context k := by
  rw [keptIndices, mem_foldl_addAround]
  constructor
  · rintro (⟨hk, j, hj, hnear⟩ | hnil)
    · obtain ⟨l, hl, hmark⟩ := mem_changedIndices.1 hj
      exact ⟨hk, j, l, hl, hmark, hnear⟩
    · cases hnil
  · rintro ⟨hk, j, l, hl, hmark, hnear⟩
    exact .inl ⟨hk, j, mem_changedIndices.2 ⟨l, hl, hmark⟩, hnear⟩

theorem pairwise_keptIndices (lines : List Line) (context : Int) : (keptIndices lines context).Pairwise (· < ·) :=
  pairwise_foldl_addAround .nil

/-! ## Marks in the gaps -/

/-- The number of a line that is shown. -/
def Shown.line? : Shown → Option Nat
  | line i => some i
  | gap => none

theorem filterMap_line_cons (i : Nat) (shown : List Shown) :
    (.line i :: shown).filterMap Shown.line? = i :: shown.filterMap Shown.line? := rfl

theorem filterMap_gap_cons (shown : List Shown) :
    (.gap :: shown).filterMap Shown.line? = shown.filterMap Shown.line? := rfl

theorem filterMap_markGaps (last : Int) (is : List Nat) : (markGaps last is).filterMap Shown.line? = is := by
  fun_induction markGaps last is with
  | case1 last => rfl
  | case2 last i is _ ih => rw [filterMap_gap_cons, filterMap_line_cons, ih]
  | case3 last i is _ ih => rw [filterMap_line_cons, ih]

theorem filterMap_inContext (lines : List Line) (context : Int) :
    (inContext lines (some context)).filterMap Shown.line? = keptIndices lines context :=
  filterMap_markGaps _ _

theorem line_mem_iff {shown : List Shown} {i : Nat} : .line i ∈ shown ↔ i ∈ shown.filterMap Shown.line? := by
  rw [List.mem_filterMap]
  constructor
  · exact fun h => ⟨_, h, rfl⟩
  · rintro ⟨_ | _, hs, he⟩
    · cases he
      exact hs
    · cases he

/-- Only lines that there are get shown. -/
theorem lt_length_of_mem_inContext {lines : List Line} {context : Option Int} {i : Nat}
    (h : .line i ∈ inContext lines context) : i < lines.length := by
  cases context with
  | none =>
    obtain ⟨j, hj, he⟩ := List.mem_map.1 h
    cases he
    exact List.mem_range.1 hj
  | some context =>
    rw [line_mem_iff, filterMap_inContext] at h
    exact (mem_keptIndices.1 h).1

/-- Whatever is shown is the mark of a gap or one of the lines. -/
theorem render_cases {lines : List Line} {context : Option Int} {s : Shown} (hs : s ∈ inContext lines context) :
    s = .gap ∨ ∃ l ∈ lines, ∀ style, s.render style lines = l.render style := by
  cases s with
  | gap => exact .inl rfl
  | line i =>
    have hi := lt_length_of_mem_inContext hs
    refine .inr ⟨lines[i], List.getElem_mem hi, fun style => ?_⟩
    rw [Shown.render, List.getElem?_eq_getElem hi]
    rfl

/-- What is shown after a line depends on that line alone. -/
theorem markGaps_append_cons (last : Int) (pre : List Nat) (i : Nat) (post : List Nat) :
    ∃ before, markGaps last (pre ++ i :: post) = before ++ .line i :: markGaps i post := by
  induction pre generalizing last with
  | nil =>
    rw [List.nil_append, markGaps]
    split_ifs
    · exact ⟨[.gap], rfl⟩
    · exact ⟨[], rfl⟩
  | cons k pre ih =>
    obtain ⟨before, h⟩ := ih k
    rw [List.cons_append, markGaps, h]
    split_ifs
    · exact ⟨.gap :: .line k :: before, rfl⟩
    · exact ⟨.line k :: before, rfl⟩

/-- Between two numbers that follow each other in the list there is a mark exactly if one is left out. -/
theorem markGaps_append_cons_cons (last : Int) (pre : List Nat) (i j : Nat) (post : List Nat) :
    ∃ before after, markGaps last (pre ++ i :: j :: post) =
      before ++ .line i :: (if i + 1 < j then [.gap] else []) ++ .line j :: after := by
  obtain ⟨before, h⟩ := markGaps_append_cons last pre i (j :: post)
  refine ⟨before, markGaps j post, ?_⟩
  have hgap : (0 ≤ (i : Int) ∧ (i : Int) + 1 < j) ↔ i + 1 < j := by omega
  rw [h, markGaps, if_congr hgap rfl rfl]
  split_ifs <;> simp

theorem head?_markGaps (is : List Nat) : (markGaps (-1) is).head? = is.head?.map Shown.line := by
  cases is with
  | nil => rfl
  | cons i is =>
    rw [markGaps, if_neg (by omega)]
    rfl

theorem getLast?_markGaps (last : Int) (is : List Nat) : (markGaps last is).getLast? = is.getLast?.map Shown.line := by
  rcases List.eq_nil_or_concat' is with rfl | ⟨pre, i, rfl⟩
  · rfl
  · obtain ⟨before, h⟩ := markGaps_append_cons last pre i []
    rw [h]
    simp [markGaps]

/-- In ascending order there is nothing between two numbers that stand next to each other. -/
theorem not_mem_of_between {pre post : List Nat} {i j k : Nat} (h : (pre ++ i :: j :: post).Pairwise (· < ·))
    (hik : i < k) (hkj : k < j) : k ∉ pre ++ i :: j :: post := by
  rw [List.pairwise_append, List.pairwise_cons, List.pairwise_cons] at h
  obtain ⟨-, ⟨-, hj, -⟩, hpre⟩ := h
  intro hk
  rcases List.mem_append.1 hk with hk | hk
  · have := hpre k hk i List.mem_cons_self
    omega
  · rcases List.mem_cons.1 hk with rfl | hk
    · omega
    · rcases List.mem_cons.1 hk with rfl | hk
      · omega
      · have := hj k hk
        omega

/-- What is left out between two numbers that stand next to each other in ascending order. -/
theorem exists_omitted_iff {pre post : List Nat} {i j : Nat} (h : (pre ++ i :: j :: post).Pairwise (· < ·)) :
    (∃ k, i < k ∧ k < j ∧ k ∉ pre ++ i :: j :: post) ↔ i + 1 < j := by
  constructor
  · rintro ⟨k, hik, hkj, -⟩
    omega
  · intro hlt
    exact ⟨i + 1, by omega, hlt, not_mem_of_between h (by omega) hlt⟩

/-! ## What is shown -/

/-- The lines near a change are shown, with marks where lines are left out. -/
structure ShowsContext (lines : List Line) (context : Int) (shown : List Shown) : Prop where
  /-- The lines are shown in order and once. -/
  ascending : (shown.filterMap Shown.line?).Pairwise (· < ·)
  /-- They are those no further from a changed line than the context says. -/
  mem_iff : ∀ i, .line i ∈ shown ↔ i < lines.length ∧ NearChange lines context i
  /-- No changed line is hidden. -/
  changed_mem : ∀ i l, lines[i]? = some l → l.mark ≠ .kept → .line i ∈ shown
  /-- Between two lines shown next to each other there is one mark if a line between them is left out, else nothing. -/
  marks : ∀ i j, [i, j] <:+: shown.filterMap Shown.line? → ∃ before marks after,
    shown = before ++ .line i :: marks ++ .line j :: after ∧
      (marks = [.gap] ↔ ∃ k, i < k ∧ k < j ∧ .line k ∉ shown) ∧
        (marks = [] ↔ ¬∃ k, i < k ∧ k < j ∧ .line k ∉ shown)
  /-- No mark comes first. -/
  head : shown.head? ≠ some .gap
  /-- No mark comes last. -/
  last : shown.getLast? ≠ some .gap

/-- Whatever lines there are, a context shows those near a change, and marks the gaps between them. -/
theorem showsContext_inContext (lines : List Line) (context : Nat) :
    ShowsContext lines context (inContext lines (some context)) := by
  have hkept := filterMap_inContext lines context
  have hpairwise := pairwise_keptIndices lines context
  have hmem : ∀ i, .line i ∈ inContext lines (some context) ↔ i ∈ keptIndices lines context := by
    intro i
    rw [line_mem_iff, hkept]
  have hshown : inContext lines (some context) = markGaps (-1) (keptIndices lines context) := rfl
  constructor
  case ascending => rw [hkept]; exact hpairwise
  case mem_iff => exact fun i => (hmem i).trans mem_keptIndices
  case changed_mem =>
    intro i l hl hmark
    have hi : i < lines.length := (List.getElem?_eq_some_iff.1 hl).1
    exact (hmem i).2 (mem_keptIndices.2 ⟨hi, i, l, hl, hmark, by omega⟩)
  case marks =>
    intro i j hij
    rw [hkept] at hij
    obtain ⟨pre, post, hsplit⟩ := hij
    rw [List.append_assoc] at hsplit
    have homitted : (∃ k, i < k ∧ k < j ∧ .line k ∉ inContext lines (some context)) ↔ i + 1 < j := by
      simp only [hmem, ← hsplit] at hpairwise ⊢
      exact exists_omitted_iff hpairwise
    obtain ⟨before, after, hmarks⟩ := markGaps_append_cons_cons (-1) pre i j post
    refine ⟨before, if i + 1 < j then [.gap] else [], after, ?_, ?_, ?_⟩
    · rw [hshown, ← hsplit]
      exact hmarks
    · rw [homitted]
      split_ifs with h <;> simp [h]
    · rw [homitted]
      split_ifs with h <;> simp [h]
  case head =>
    rw [hshown, head?_markGaps]
    cases (keptIndices lines context).head? <;> simp
  case last =>
    rw [hshown, getLast?_markGaps]
    cases (keptIndices lines context).getLast? <;> simp

end HintQuality.Diff
