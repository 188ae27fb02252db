import HintQuality.Grove.Columns
import HintQuality.Proofs.DecimalText
import HintQuality.Proofs.GroveSteps
import Mathlib
/-!
# Labels as an index of the children

Whatever is done to the children of a node, their labels remain an index of them (`labels_index_children`): there are as
many labels as children, no two labels are the same, and each one leads to the child that it was given to, from the step
that put the child in to the last one. What is refused leaves no trace (`Columns.Sound`).

The two columns go the way of slots (`Columns.run_ofSlots`), and so does a node of a grove (`Grove.columns_run`). A slot
is either there from the start or was put in by some command and has stood ever since (`Slots.origin_of_mem_run`). A
label made up for a child is the first unused number, and there is always one (`exists_isFirstFree`).
-/

namespace HintQuality

open Text

/-! ## Unused numbers -/

theorem natText_injective : Function.Injective natText := by
  intro i j h
  have hij : (i : Int) = j := Decimal.intText_injective h
  exact Int.ofNat.inj hij

/-- Texts that differ in a number at their end are different. -/
theorem append_natText_injective (stem : String) : Function.Injective fun k => stem ++ natText k := by
  intro i j h
  have hchars := congrArg String.toList h
  rw [String.toList_append, String.toList_append] at hchars
  exact natText_injective (String.toList_injective (List.append_cancel_left hchars))

/-- The first number from `n` on whose decimal text is not used. -/
structure IsFirstFree (used : List String) (n k : Nat) : Prop where
  le : n ≤ k
  not_mem : natText k ∉ used
  mem_of_lt : ∀ j, n ≤ j → j < k → natText j ∈ used

/-- The texts of more numbers than there are used ones are not all used. -/
theorem exists_unused (used : List String) (n : Nat) : ∃ i, i ≤ used.length ∧ natText (n + i) ∉ used := by
  by_contra hnone
  have hall : ∀ i, i ≤ used.length → natText (n + i) ∈ used := by
    intro i hi
    by_contra hfree
    exact hnone ⟨i, hi, hfree⟩
  have hnodup : ((List.range (used.length + 1)).map fun i => natText (n + i)).Nodup := by
    apply List.Nodup.map _ List.nodup_range
    intro i j hij
    have := natText_injective hij
    omega
  have hsub : (List.range (used.length + 1)).map (fun i => natText (n + i)) ⊆ used := by
    intro text htext
    obtain ⟨i, hi, rfl⟩ := List.mem_map.1 htext
    apply hall
    have := List.mem_range.1 hi
    omega
  have hlength := (List.subperm_of_subset hnodup hsub).length_le
  rw [List.length_map, List.length_range] at hlength
  omega

/-- The search for an unused number ends. -/
theorem exists_isFirstFree (used : List String) (n : Nat) :
    ∃ k, k ≤ n + used.length ∧ IsFirstFree used n k := by
  have hfree : ∃ i, natText (n + i) ∉ used := (exists_unused used n).imp fun _ h => h.2
  obtain ⟨i, hi, hunused⟩ := exists_unused used n
  refine ⟨n + Nat.find hfree, ?_, ?_, Nat.find_spec hfree, ?_⟩
  · have := Nat.find_min' hfree hunused
    omega
  · omega
  · intro j hnj hj
    have hmin := Nat.find_min hfree (m := j - n) (by omega)
    rw [Nat.add_sub_cancel' hnj] at hmin
    exact not_not.1 hmin

namespace Slots

/-- The search finds the first unused number if it is allowed to go that far. -/
theorem freshFrom_eq {used : List String} {k : Nat} : ∀ {fuel n : Nat}, IsFirstFree used n k → k < n + fuel →
    freshFrom used fuel n = natText k
  | 0, n, h, hk => by
    have := h.le
    omega
  | fuel + 1, n, h, hk => by
    rw [freshFrom]
    by_cases hn : n = k
    · rw [if_neg (hn ▸ h.not_mem), hn]
    · have hlt : n < k := by
        have := h.le
        omega
      rw [if_pos (h.mem_of_lt n le_rfl hlt)]
      apply freshFrom_eq _ (by omega)
      exact ⟨hlt, h.not_mem, fun j hj => h.mem_of_lt j (by omega)⟩

theorem exists_freshFrom_eq (used : List String) (n : Nat) :
    ∃ k, IsFirstFree used n k ∧ freshFrom used (used.length + 1) n = natText k := by
  obtain ⟨k, hk, hfirst⟩ := exists_isFirstFree used n
  exact ⟨k, hfirst, freshFrom_eq hfirst (by omega)⟩

variable {α : Type} {slots : List (Slot α)}

theorem freshRelation_not_mem (slots : List (Slot α)) : freshRelation slots ∉ relations slots := by
  obtain ⟨k, hfirst, htext⟩ := exists_freshFrom_eq (relations slots) slots.length
  rw [relations, List.length_map, ← relations] at htext
  rw [freshRelation, htext]
  exact hfirst.not_mem

end Slots

/-! ## Lists side by side -/

section OneList

variable {β γ : Type}

theorem map_insertAt (f : β → γ) (xs : List β) (index : Int) (x : β) :
    (insertAt xs index x).map f = insertAt (xs.map f) index (f x) := by
  simp [insertAt, List.map_take, List.map_drop]

theorem popAt?_map (f : β → γ) (xs : List β) (index : Int) :
    popAt? (xs.map f) index = (popAt? xs index).map fun p => (f p.1, p.2.map f) := by
  simp only [popAt?, List.length_map]
  cases Slots.removalPoint? xs.length index with
  | none => rfl
  | some i =>
    cases h : xs[i]? <;> simp [h, List.eraseIdx_map]

theorem removalPoint?_lt {n i : Nat} {index : Int} (h : Slots.removalPoint? n index = some i) : i < n := by
  unfold Slots.removalPoint? at h
  split at h <;> split at h <;> cases h <;> omega

theorem removalPoint?_eq_none_iff {n : Nat} {index : Int} :
    Slots.removalPoint? n index = none ↔ index < -n ∨ n ≤ index := by
  unfold Slots.removalPoint?
  split <;> split <;> simp <;> omega

theorem popAt?_eq_none_iff {xs : List β} {index : Int} :
    popAt? xs index = none ↔ index < -xs.length ∨ xs.length ≤ index := by
  rw [← removalPoint?_eq_none_iff, popAt?]
  cases h : Slots.removalPoint? xs.length index with
  | none => simp
  | some i =>
    have hi := removalPoint?_lt h
    simp [hi]

/-- What is left stands as it stood. -/
theorem sublist_of_popAt? {xs rest : List β} {index : Int} {x : β} (h : popAt? xs index = some (x, rest)) :
    rest.Sublist xs := by
  unfold popAt? at h
  cases hpoint : Slots.removalPoint? xs.length index with
  | none => simp [hpoint] at h
  | some i =>
    simp only [hpoint, Option.bind_eq_bind, Option.bind_some, Option.bind_eq_some_iff] at h
    obtain ⟨y, -, hy⟩ := h
    cases hy
    exact List.eraseIdx_sublist ..

end OneList

namespace Slots

variable {α : Type} {slots : List (Slot α)} {x : Slot α}

theorem perform_add_of_mem {child : Option α} {relation : Option String} {index : Option Int}
    (h : relation.getD (freshRelation slots) ∈ relations slots) :
    perform slots (.add child relation index) = (.labelTaken, slots) := by
  simp [perform, insert, h]

theorem perform_add_of_not_mem {child : Option α} {relation : Option String} {index : Option Int}
    (h : relation.getD (freshRelation slots) ∉ relations slots) :
    perform slots (.add child relation index) =
      (.added, insertAt slots (index.getD slots.length) ⟨relation.getD (freshRelation slots), child⟩) := by
  simp [perform, insert, insertAt, h]

theorem removeAt_eq (slots : List (Slot α)) (index : Int) : removeAt slots index = popAt? slots index :=
  rfl

/-- What is refused changes nothing. -/
theorem perform_of_refused {command : ChildCommand α} (h : (perform slots command).1.refused = true) :
    (perform slots command).2 = slots := by
  cases command with
  | add child relation index =>
    cases hi : insert slots child relation index with
    | none => simp only [perform, hi]
    | some slots' => simp [perform, hi, ChildReply.refused] at h
  | remove index =>
    cases hr : removeAt slots index with
    | none => simp only [perform, hr]
    | some p => simp [perform, hr, ChildReply.refused] at h
  | clear => cases h

/-- Labels stay distinct whatever is done. -/
theorem nodup_perform (hd : (relations slots).Nodup) (command : ChildCommand α) :
    (relations (perform slots command).2).Nodup := by
  cases command with
  | add child relation index =>
    cases h : insert slots child relation index with
    | none => simpa only [perform, h] using hd
    | some slots' => simpa only [perform, h] using nodup_insert h hd
  | remove index =>
    cases h : removeAt slots index with
    | none => simpa only [perform, h] using hd
    | some p =>
      have hsub : (relations p.2).Sublist (relations slots) := (sublist_of_popAt? h).map _
      simpa only [perform, h] using hd.sublist hsub
  | clear => exact List.nodup_nil

theorem nodup_run (hd : (relations slots).Nodup) (history : List (ChildCommand α)) :
    (relations (run slots history)).Nodup := by
  induction history generalizing slots with
  | nil => exact hd
  | cons command history ih => exact ih (nodup_perform hd command)

/-- A slot that is there after a command was there before or has been put in by it, under a label that was unused. -/
theorem mem_perform {command : ChildCommand α} (hx : x ∈ (perform slots command).2) :
    x ∈ slots ∨ ∃ child relation index, command = .add child relation index ∧
      x = ⟨relation.getD (freshRelation slots), child⟩ ∧ x.relation ∉ relations slots := by
  cases command with
  | add child relation index =>
    by_cases htaken : relation.getD (freshRelation slots) ∈ relations slots
    · rw [perform_add_of_mem htaken] at hx
      exact .inl hx
    · rw [perform_add_of_not_mem htaken, insertAt, List.mem_append, List.mem_cons] at hx
      rcases hx with hx | rfl | hx
      · exact .inl (List.mem_of_mem_take hx)
      · exact .inr ⟨child, relation, index, rfl, rfl, htaken⟩
      · exact .inl (List.mem_of_mem_drop hx)
  | remove index =>
    cases h : removeAt slots index with
    | none =>
      simp only [perform, h] at hx
      exact .inl hx
    | some p =>
      simp only [perform, h] at hx
      exact .inl ((sublist_of_popAt? h).subset hx)
  | clear => cases hx

theorem run_concat (slots : List (Slot α)) (history : List (ChildCommand α)) (command : ChildCommand α) :
    run slots (history ++ [command]) = (perform (run slots history) command).2 := by
  rw [run, List.foldl_append]
  rfl

/-- The slot has been there since the first part of the history. -/
def StandsSince (slots : List (Slot α)) (first history : List (ChildCommand α)) (x : Slot α) : Prop :=
  first <+: history ∧ ∀ done, first <+: done → done <+: history → x ∈ run slots done

theorem StandsSince.concat {first history : List (ChildCommand α)} {command : ChildCommand α}
    (h : StandsSince slots first history x) (hx : x ∈ run slots (history ++ [command])) :
    StandsSince slots first (history ++ [command]) x := by
  refine ⟨h.1.trans (List.prefix_append _ _), fun done hfirst hdone => ?_⟩
  rcases List.prefix_concat_iff.1 hdone with rfl | hdone
  · exact hx
  · exact h.2 done hfirst hdone

/-- Each slot has stood from the start, or since some command put it in under a label that was unused. -/
theorem origin_of_mem_run {history : List (ChildCommand α)} (hx : x ∈ run slots history) :
    StandsSince slots [] history x ∨ ∃ before child relation index,
      StandsSince slots (before ++ [.add child relation index]) history x ∧
      x = ⟨relation.getD (freshRelation (run slots before)), child⟩ ∧
      x.relation ∉ relations (run slots before) := by
  induction history using List.reverseRecOn with
  | nil =>
    refine .inl ⟨List.prefix_rfl, fun done _ hdone => ?_⟩
    rw [List.prefix_nil.1 hdone]
    exact hx
  | append_singleton history command ih =>
    have hstep := mem_perform (run_concat slots history command ▸ hx)
    rcases hstep with hold | ⟨child, relation, index, rfl, hnew, hunused⟩
    · rcases ih hold with hstart | ⟨before, child, relation, index, hsince, hput⟩
      · exact .inl (hstart.concat hx)
      · exact .inr ⟨before, child, relation, index, hsince.concat hx, hput⟩
    · refine .inr ⟨history, child, relation, index, ⟨List.prefix_rfl, fun done hfirst hdone => ?_⟩, hnew, hunused⟩
      rw [← List.IsPrefix.eq_of_length hfirst (Nat.le_antisymm hfirst.length_le hdone.length_le)]
      exact hx

end Slots

/-! ## Columns of slots -/

namespace Columns

variable {α : Type}

/-- What holds of the children of a node and their labels at any time. -/
structure Sound (c : Columns α) : Prop where
  /-- There is a label for each child. -/
  length_eq : c.children.length = c.relations.length
  /-- No two labels are the same. -/
  nodup : c.relations.Nodup
  /-- A child is turned away exactly if it is to go by a label that is taken. -/
  labelTaken_iff : ∀ child relation index,
    (c.perform (.add child relation index)).1 = .labelTaken ↔ ∃ r ∈ relation, r ∈ c.relations
  /-- A child that comes without a label gets in, under the first unused number from the count of children on. -/
  unlabelled : ∀ child index, ∃ k, IsFirstFree c.relations c.children.length k ∧
    c.perform (.add child none index) = c.perform (.add child (some (natText k)) index) ∧
    (c.perform (.add child none index)).1 = .added
  /-- Nothing is taken out exactly if the index is out of range. -/
  outOfRange_iff : ∀ index,
    (c.perform (.remove index)).1 = .outOfRange ↔ index < -c.children.length ∨ c.children.length ≤ index
  /-- Nothing changes if a command is refused. -/
  unchanged : ∀ command, (c.perform command).1.refused = true → (c.perform command).2 = c

/-- The label has led to the child since the first part of the history. -/
def LeadsSince (c : Columns α) (first history : List (ChildCommand α)) (relation : String)
    (child : Option α) : Prop :=
  first <+: history ∧ ∀ done, first <+: done → done <+: history →
    relation ∈ (c.run done).relations ∧ (c.run done).child? relation = child

variable {slots : List (Slot α)} {x : Slot α}

theorem labelFor_ofSlots (slots : List (Slot α)) (relation : Option String) :
    (ofSlots slots).labelFor relation = relation.getD (Slots.freshRelation slots) := by
  simp [labelFor, ofSlots, Slots.freshRelation, Slots.relations]

/-- The columns go the way of the slots. -/
theorem perform_ofSlots (slots : List (Slot α)) (command : ChildCommand α) :
    (ofSlots slots).perform command = (Slots.perform slots command).map id ofSlots := by
  cases command with
  | add child relation index =>
    have hlabels : (ofSlots slots).relations = Slots.relations slots := rfl
    by_cases htaken : relation.getD (Slots.freshRelation slots) ∈ Slots.relations slots
    · rw [Slots.perform_add_of_mem htaken, perform, add, labelFor_ofSlots, hlabels, if_pos htaken]
      rfl
    · rw [Slots.perform_add_of_not_mem htaken, perform, add, labelFor_ofSlots, hlabels, if_neg htaken]
      simp [ofSlots, Slots.relations, map_insertAt]
  | remove index =>
    rw [perform, remove, Slots.perform, Slots.removeAt_eq]
    simp only [ofSlots, Slots.relations, popAt?_map]
    cases popAt? slots index <;> rfl
  | clear => rfl

theorem run_ofSlots (slots : List (Slot α)) (history : List (ChildCommand α)) :
    (ofSlots slots).run history = ofSlots (Slots.run slots history) := by
  induction history generalizing slots with
  | nil => rfl
  | cons command history ih =>
    rw [run, List.foldl_cons, perform_ofSlots]
    exact ih _

/-- Among distinct labels, that of a slot leads to its child. -/
theorem child?_of_mem (hd : (Slots.relations slots).Nodup) (hx : x ∈ slots) :
    (ofSlots slots).child? x.relation = x.child := by
  induction slots with
  | nil => cases hx
  | cons y slots ih =>
    have hhead : y.relation ∉ Slots.relations slots := (List.nodup_cons.1 hd).1
    rcases List.mem_cons.1 hx with rfl | hx
    · simp [child?, ofSlots, Slots.relations, List.idxOf?_cons]
    · have hne : ¬y.relation = x.relation := fun he => hhead (he ▸ List.mem_map_of_mem hx)
      have hrest := ih (List.nodup_cons.1 hd).2 hx
      simp only [child?, ofSlots, Slots.relations, List.map_cons, List.idxOf?_cons, beq_iff_eq, if_neg hne] at hrest ⊢
      simpa [Option.bind_map, Function.comp_def] using hrest

theorem sound_ofSlots (hd : (Slots.relations slots).Nodup) : (ofSlots slots).Sound where
  length_eq := by simp [ofSlots, Slots.relations]
  nodup := hd
  labelTaken_iff := by
    intro child relation index
    rw [perform_ofSlots]
    show _ ↔ ∃ r ∈ relation, r ∈ Slots.relations slots
    cases relation with
    | none =>
      rw [Slots.perform_add_of_not_mem (Slots.freshRelation_not_mem slots)]
      simp
    | some r =>
      by_cases htaken : r ∈ Slots.relations slots
      · rw [Slots.perform_add_of_mem htaken]
        simp [htaken]
      · rw [Slots.perform_add_of_not_mem htaken]
        simp [htaken]
  unlabelled := by
    intro child index
    obtain ⟨k, hfirst, htext⟩ := Slots.exists_freshFrom_eq (Slots.relations slots) (ofSlots slots).children.length
    refine ⟨k, hfirst, ?_, ?_⟩
    · have hlabel : (ofSlots slots).labelFor none = (ofSlots slots).labelFor (some (natText k)) := htext
      simp only [perform, add, hlabel]
    · rw [perform_ofSlots, Slots.perform_add_of_not_mem (Slots.freshRelation_not_mem slots)]
      rfl
  outOfRange_iff := by
    intro index
    rw [perform_ofSlots, ofSlots, List.length_map, ← popAt?_eq_none_iff, Slots.perform, Slots.removeAt_eq]
    cases popAt? slots index <;> simp
  unchanged := by
    intro command hrefused
    rw [perform_ofSlots] at hrefused ⊢
    rw [Prod.map_fst] at hrefused
    rw [Prod.map_snd, Slots.perform_of_refused hrefused]

/-- The label of a slot has led to its child for as long as the slot has stood. -/
theorem leadsSince_of_standsSince {first history : List (ChildCommand α)} (hd : (Slots.relations slots).Nodup)
    (h : Slots.StandsSince slots first history x) : (ofSlots slots).LeadsSince first history x.relation x.child := by
  refine ⟨h.1, fun done hfirst hdone => ?_⟩
  have hx := h.2 done hfirst hdone
  rw [run_ofSlots]
  exact ⟨List.mem_map_of_mem hx, child?_of_mem (Slots.nodup_run hd done) hx⟩

end Columns

/-! ## The children of a node in a grove -/

namespace Grove

variable {g : Grove} {n : Nat}

/-- A node of a grove answers like its slots, and they become what they become by themselves. -/
theorem perform_spec (hn : n < g.size) (command : ChildCommand Nat) :
    (g.perform n command).1 = (Slots.perform (g.slots n) command).1 ∧
    (g.perform n command).2.slots n = (Slots.perform (g.slots n) command).2 ∧ n < (g.perform n command).2.size := by
  have hp := List.getElem?_eq_getElem hn
  cases command with
  | add child relation index =>
    cases h : Slots.insert (g.slots n) child relation index with
    | none =>
      have hadd : g.add n child relation index = none := by rw [add, h]; rfl
      simp [perform, hadd, Slots.perform, h, hn]
    | some s =>
      obtain ⟨g', hadd, hmaps⟩ := maps_add h
      simp only [perform, hadd, Slots.perform, h]
      exact ⟨trivial, (hmaps.slots hp).trans (if_pos rfl), hmaps.lt_size hn⟩
  | remove index =>
    cases h : Slots.removeAt (g.slots n) index with
    | none =>
      have hremove : g.remove n index = .error .indexOutOfRange := by rw [remove, h]
      simp [perform, hremove, Slots.perform, h, hn]
    | some p =>
      obtain ⟨g', hremove, hmaps⟩ := maps_removeAt h
      simp only [perform, hremove, Slots.perform, h]
      exact ⟨trivial, (hmaps.slots hp).trans (if_pos rfl), hmaps.lt_size hn⟩
  | clear =>
    have hmaps := maps_clear g n
    exact ⟨rfl, (hmaps.slots hp).trans (if_pos rfl), hmaps.lt_size hn⟩

/-- What is refused changes nothing in the whole grove. -/
theorem perform_of_refused {command : ChildCommand Nat} (h : (g.perform n command).1.refused = true) :
    (g.perform n command).2 = g := by
  cases command with
  | add child relation index =>
    cases hadd : g.add n child relation index with
    | none => simp only [perform, hadd]
    | some g' => simp [perform, hadd, ChildReply.refused] at h
  | remove index =>
    cases hremove : g.remove n index with
    | error e => simp only [perform, hremove]
    | ok p => simp [perform, hremove, ChildReply.refused] at h
  | clear => cases h

theorem run_spec (hn : n < g.size) (history : List (ChildCommand Nat)) :
    (g.run n history).slots n = Slots.run (g.slots n) history ∧ n < (g.run n history).size := by
  induction history generalizing g with
  | nil => exact ⟨rfl, hn⟩
  | cons command history ih =>
    obtain ⟨-, hslots, hsize⟩ := perform_spec hn command
    obtain ⟨hrun, hrunsize⟩ := ih hsize
    refine ⟨hrun.trans ?_, hrunsize⟩
    rw [hslots, Slots.run, Slots.run, List.foldl_cons]

theorem columns_run (hn : n < g.size) (history : List (ChildCommand Nat)) :
    (g.run n history).columns n = (g.columns n).run history := by
  rw [columns, (run_spec hn history).1, columns, Columns.run_ofSlots]

theorem reply_run (hn : n < g.size) (history : List (ChildCommand Nat)) (command : ChildCommand Nat) :
    ((g.run n history).perform n command).1 = (((g.columns n).run history).perform command).1 := by
  obtain ⟨hslots, hsize⟩ := run_spec hn history
  rw [(perform_spec hsize command).1, columns, Columns.run_ofSlots, Columns.perform_ofSlots, hslots]
  rfl

/-- Labels are an index of the children of a node, whatever is done to them. The node of a grove goes the way of two
columns and gives their answers, and a refusal leaves the grove as it is; the columns are sound at any time; and each
label that is in use leads to the child it led to at the start, or else to the one that it came with when it was unused,
and has done so ever since. -/
theorem labels_index_children (hn : n < g.size) (hd : (g.columns n).relations.Nodup)
    (history : List (ChildCommand Nat)) :
    (g.run n history).columns n = (g.columns n).run history ∧
    (∀ command, ((g.run n history).perform n command).1 = (((g.columns n).run history).perform command).1) ∧
    (∀ command, ((g.run n history).perform n command).1.refused = true →
      ((g.run n history).perform n command).2 = g.run n history) ∧
    ((g.columns n).run history).Sound ∧
    ∀ r ∈ ((g.columns n).run history).relations,
      (g.columns n).LeadsSince [] history r ((g.columns n).child? r) ∨
      ∃ before child relation index,
        (g.columns n).LeadsSince (before ++ [.add child relation index]) history r child ∧
        ((g.columns n).run before).labelFor relation = r ∧ r ∉ ((g.columns n).run before).relations := by
  refine ⟨columns_run hn history, reply_run hn history, fun command => perform_of_refused, ?_, fun r hr => ?_⟩
  · rw [columns, Columns.run_ofSlots]
    exact Columns.sound_ofSlots (Slots.nodup_run hd history)
  · rw [columns, Columns.run_ofSlots] at hr
    obtain ⟨x, hx, rfl⟩ := List.mem_map.1 hr
    rcases Slots.origin_of_mem_run hx with hstart | ⟨before, child, relation, index, hsince, hput, hunused⟩
    · have hmem : x ∈ g.slots n := hstart.2 [] List.prefix_rfl List.nil_prefix
      rw [columns, Columns.child?_of_mem hd hmem]
      exact .inl (Columns.leadsSince_of_standsSince hd hstart)
    · have hleads := Columns.leadsSince_of_standsSince hd hsince
      refine .inr ⟨before, child, relation, index, ?_, ?_, ?_⟩
      · rw [hput] at hleads ⊢
        exact hleads
      · rw [columns, Columns.run_ofSlots, Columns.labelFor_ofSlots, hput]
      · rw [columns, Columns.run_ofSlots]
        exact hunused

/-- A node with two slots, one of them empty, and two nodes that stand alone. -/
def sampleChildren : Grove where
  plants := [{ label := { type := "list" }, slots := [⟨"1", none⟩, ⟨"last", some 1⟩] },
    { label := { type := "a" }, parent := some 0 }, { label := { type := "b" } }]

/-- Commands, some of which are refused. Twice the number that a label is sought from is taken. -/
def sampleHistory : List (ChildCommand Nat) :=
  [.add (some 2) none (some (-1)), .add (some 1) (some "1") none, .remove 3, .remove (-3), .add none none (some 9),
    .add (some 2) (some "first") (some (-9)), .remove 0, .add (some 1) none none]

theorem labels_index_children_of_taken_number :
    0 < sampleChildren.size ∧ (sampleChildren.columns 0).relations.Nodup ∧
    (sampleChildren.run 0 sampleHistory).columns 0 = ⟨[some 2, some 1, none, some 1], ["2", "last", "3", "4"]⟩ ∧
    ((sampleChildren.columns 0).run sampleHistory).Sound ∧
    ∃ before child relation index,
      (sampleChildren.columns 0).LeadsSince (before ++ [.add child relation index]) sampleHistory "2" (some 2) := by
  have hsize : 0 < sampleChildren.size := by decide
  have hnodup : (sampleChildren.columns 0).relations.Nodup := by decide
  have hend : (sampleChildren.columns 0).run sampleHistory =
      ⟨[some 2, some 1, none, some 1], ["2", "last", "3", "4"]⟩ := by cbv
  obtain ⟨hcolumns, -, -, hsound, hleads⟩ := labels_index_children hsize hnodup sampleHistory
  refine ⟨hsize, hnodup, hcolumns.trans hend, hsound, ?_⟩
  rcases hleads "2" (by rw [hend]; decide) with hstart | ⟨before, child, relation, index, hsince, -⟩
  · have hold := (hstart.2 [] List.prefix_rfl List.nil_prefix).1
    exact absurd hold (by decide)
  · have hchild := (hsince.2 sampleHistory hsince.1 List.prefix_rfl).2
    rw [hend] at hchild
    have htwo : child = some 2 := hchild.symm.trans (by decide)
    exact ⟨before, child, relation, index, htwo ▸ hsince⟩

end Grove

end HintQuality
