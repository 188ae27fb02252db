import HintQuality.Folder.Basic
import Mathlib
/-!
# Ways in a folder

A text that is put somewhere changes what is there and nothing else (`content?_put_of_ne`), and so does taking one away
(`content?_remove`). Which folders there are is told by the folders that were made and the ways to the texts
(`hasFolder_iff`). A path leads to its settled way as long as all folders on the way are there (`way?_eq_some_iff`), so
it leads there in every folder that has these (`way?_mono`), and once the folders above it were made it does
(`way?_of_make`).
-/

namespace HintQuality.Folder

variable {f f' : Folder} {way w v : List String} {text : String}

/-! ## Texts -/

theorem lookup_map_replace (hne : w ≠ way) (l : List (List String × String)) :
    (l.map fun t => if t.1 = way then (way, text) else t).lookup w = l.lookup w := by
  induction l with
  | nil => rfl
  | cons t l ih =>
    by_cases ht : t.1 = way
    · rw [List.map_cons, if_pos ht, List.lookup_cons, List.lookup_cons, ht, ih]
      simp [beq_false_of_ne hne]
    · rw [List.map_cons, if_neg ht, List.lookup_cons, List.lookup_cons, ih]

theorem content?_put_of_ne (hne : w ≠ way) : (f.put way text).content? w = f.content? w := by
  simp only [put, content?]
  split
  · exact lookup_map_replace hne f.texts
  · have hlast : [(way, text)].lookup w = none := by
      rw [List.lookup_cons, beq_false_of_ne hne]
      rfl
    rw [List.lookup_append, hlast, Option.or_none]

theorem content?_remove : (f.remove way).content? w = if w = way then none else f.content? w := by
  simp only [remove, content?]
  induction f.texts with
  | nil => simp
  | cons t l ih =>
    by_cases ht : t.1 = way
    · rw [List.filter_cons_of_neg (by simpa using ht), ih, List.lookup_cons, ht]
      by_cases hw : w = way
      · rw [if_pos hw, if_pos hw]
      · rw [if_neg hw, if_neg hw, beq_false_of_ne hw]
    · rw [List.filter_cons_of_pos (by simpa using ht), List.lookup_cons, List.lookup_cons, ih]
      by_cases hw : w = way
      · rw [if_pos hw, if_pos hw, hw, beq_false_of_ne (Ne.symm ht)]
      · rw [if_neg hw, if_neg hw]

theorem mem_keys_iff : way ∈ f.texts.map Prod.fst ↔ (f.content? way).isSome := by
  rw [content?, List.mem_map]
  induction f.texts with
  | nil => simp
  | cons t l ih =>
    by_cases ht : t.1 = way
    · simp [ht]
    · rw [List.lookup_cons, beq_false_of_ne (Ne.symm ht)]
      simp [ht, ← ih]

/-! ## Folders -/

/-- A way leads to a folder if one was made there or below, or a text is below. -/
theorem hasFolder_iff : f.hasFolder v ↔ v = [] ∨ (∃ w ∈ f.folders, v <+: w) ∨
    ∃ w, (f.content? w).isSome ∧ v <+: w ∧ v.length < w.length := by
  simp only [hasFolder, Bool.or_eq_true, List.isEmpty_iff, List.any_eq_true, Bool.and_eq_true, decide_eq_true_eq,
    List.isPrefixOf_iff_prefix, or_assoc, ← mem_keys_iff]
  refine or_congr_right (or_congr_right ⟨?_, ?_⟩)
  · rintro ⟨t, ht, h⟩
    exact ⟨t.1, List.mem_map_of_mem ht, h⟩
  · rintro ⟨w, hw, h⟩
    obtain ⟨t, ht, rfl⟩ := List.mem_map.1 hw
    exact ⟨t, ht, h⟩

theorem hasFolder_put (h : f.hasFolder v) : (f.put way text).hasFolder v := by
  rw [hasFolder_iff] at h ⊢
  refine h.imp_right (Or.imp_right ?_)
  rintro ⟨w, hw, hv⟩
  refine ⟨w, ?_, hv⟩
  by_cases hne : w = way
  · rw [hne, content?_put]
    rfl
  · rwa [content?_put_of_ne hne]

/-! ## Paths -/

/-- The way on which names lead from another one, when steps back are left out with the names before them. -/
def settleFrom (way names : List String) : List String :=
  names.foldl (fun way n => if n = ".." && way.any (· ≠ "..") then way.dropLast else way ++ [n]) way

/-- Following names ends at their settled way if all folders on the way are there, and nowhere else. -/
theorem follow_eq_some_iff {names : List String} : f.follow w names = some v ↔
    v = settleFrom w names ∧ ∀ i < names.length, f.hasFolder (settleFrom w (names.take i)) := by
  induction names generalizing w with
  | nil =>
    have hend : settleFrom w [] = w := rfl
    rw [follow, hend, Option.some.injEq, eq_comm]
    exact ⟨fun h => ⟨h, fun i hi => absurd hi (Nat.not_lt_zero i)⟩, And.left⟩
  | cons n names ih =>
    let next := if n = ".." && w.any (· ≠ "..") then w.dropLast else w ++ [n]
    have hnext : f.follow w (n :: names) = if !f.hasFolder w then none else f.follow next names := by
      rw [follow]
      split
      · rfl
      · show _ = f.follow (if _ then _ else _) names
        split <;> rfl
    have hsettle : ∀ rest, settleFrom w (n :: rest) = settleFrom next rest := fun rest => rfl
    rw [hnext, hsettle, List.length_cons]
    cases hw : f.hasFolder w with
    | false =>
      simp only [Bool.not_false, if_true, reduceCtorEq, false_iff, not_and]
      intro _ h
      have := h 0 (Nat.succ_pos _)
      rw [List.take_zero] at this
      exact absurd this (by simp [settleFrom, hw])
    | true =>
      rw [Bool.not_true, if_neg Bool.false_ne_true, ih]
      refine and_congr_right fun _ => ⟨fun h i hi => ?_, fun h i hi => h (i + 1) (Nat.succ_lt_succ hi)⟩
      cases i with
      | zero => exact hw
      | succ i => exact h i (Nat.lt_of_succ_lt_succ hi)

theorem way?_eq_some_iff {p : Path} : f.way? p = some v ↔
    v = p.settled ∧ ∀ i < p.way.length, f.hasFolder (Path.settle (p.way.take i)) :=
  follow_eq_some_iff

/-- A path leads to the same place if more folders are there. -/
theorem way?_mono {p : Path} (hmono : ∀ v, f.hasFolder v → f'.hasFolder v) (h : f.way? p = some v) :
    f'.way? p = some v := by
  obtain ⟨hv, hfolders⟩ := way?_eq_some_iff.1 h
  exact way?_eq_some_iff.2 ⟨hv, fun i hi => hmono _ (hfolders i hi)⟩

/-- Making a folder changes no text, keeps all folders and leaves none out on its way. -/
theorem make_eq_ok {p : Path} (h : f.make p = .ok f') : f'.texts = f.texts ∧ (∀ v, f.hasFolder v → f'.hasFolder v) ∧
    ∀ i ≤ p.way.length, f'.hasFolder (Path.settle (p.way.take i)) := by
  unfold make at h
  split at h
  · rename_i hfolder
    obtain rfl := Except.ok.inj h
    refine ⟨rfl, fun _ hv => hv, fun i hi => ?_⟩
    cases hway : f.way? p with
    | none => simp [isFolder, hway] at hfolder
    | some v =>
      obtain ⟨rfl, hfolders⟩ := way?_eq_some_iff.1 hway
      rcases Nat.lt_or_eq_of_le hi with hlt | rfl
      · exact hfolders i hlt
      · rw [List.take_length]
        rw [isFolder, hway] at hfolder
        exact hfolder
  · split at h
    · cases h
    split at h
    · cases h
    obtain rfl := Except.ok.inj h
    refine ⟨rfl, fun v hv => ?_, fun i hi => ?_⟩
    · rw [hasFolder_iff] at hv ⊢
      refine hv.imp_right (Or.imp_left ?_)
      rintro ⟨w, hw, hvw⟩
      exact ⟨w, List.mem_append_left _ hw, hvw⟩
    · rw [hasFolder_iff]
      cases i with
      | zero => exact .inl rfl
      | succ i =>
        refine .inr (.inl ⟨_, List.mem_append_right _ (List.mem_map_of_mem (List.mem_range.2 hi)), List.prefix_refl _⟩)

/-- When the folders above it were made, a path leads to its settled way, unless that is a folder itself. -/
theorem way?_of_make {p : Path} (h : f.make p.parent = .ok f') (hnot : f'.hasFolder p.settled = false) :
    f'.way? p = some p.settled := by
  obtain ⟨-, -, hfolders⟩ := make_eq_ok h
  refine way?_eq_some_iff.2 ⟨rfl, fun i hi => ?_⟩
  rcases List.eq_nil_or_concat' p.names with hnames | ⟨names, last, hnames⟩
  · have hparent : p.parent = p := by rw [Path.parent, hnames, List.dropLast_nil, ← hnames]
    have hself := hfolders p.way.length (by rw [hparent])
    rw [hparent, List.take_length] at hself
    exact absurd hself (by rw [Path.settled] at hnot; simp [hnot])
  · have hway : p.way = p.parent.way ++ [last] := by
      rw [Path.way, Path.way, Path.parent, hnames]
      split <;> simp
    rw [hway, List.length_append, List.length_singleton] at hi
    rw [hway, List.take_append_of_le_length (Nat.le_of_lt_succ hi)]
    exact hfolders i (Nat.le_of_lt_succ hi)

end HintQuality.Folder
