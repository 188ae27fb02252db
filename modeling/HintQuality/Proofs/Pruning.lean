import HintQuality.Normalize
import HintQuality.Proofs.Part
/-!
# What pruning takes out

Both passes of pruning restrict a tree to nodes that are told by what is below them in the tree as it was: the first to
the nodes that say something (`pruneLeftovers_eq_restrict`), the second to those that are not attached to an added node
(`detachFrom_eq_restrict`). A node with a child that is kept is kept itself, so a pass keeps what is above a node along
with it. So nodes that carry intent stay (`exists_of_carriesIntent`, `exists_of_not_trimmed`), and no node stays that a
pass is to take out (`not_isLeftover_of_pruneLeftovers`, `not_isAttachment_of_detachFrom`). A pass that comes later may
still empty a node.
-/

namespace HintQuality

open HintQuality.Tree

variable {policy : Policy}

/-! ## Leftovers -/

section Leftovers

variable (policy) in
/-- Whether the node at a position still says something when what is below it is pruned. -/
def saysSomething (t : Tree) (p : Position) : Bool :=
  !(t.subtree? p).any fun u => isLeftover policy (pruneLeftovers policy u)

theorem pruneSlots_eq_restrictSlots {keep : Position → Bool} {here : Position} : ∀ {n : Nat} {s : List (Slot Tree)},
    (∀ i u, s[i]?.bind Slot.child = some u → keep (here ++ [n + i]) = !isLeftover policy (pruneLeftovers policy u) ∧
      pruneLeftovers policy u = u.restrictFrom keep (here ++ [n + i])) →
    pruneSlots policy s = restrictSlots keep here n s
  | _, [], _ => rfl
  | n, ⟨r, none⟩ :: s, h => by
    rw [pruneSlots, restrictSlots, pruneSlots_eq_restrictSlots fun i u hu => ?_]
    rw [Nat.add_assoc, Nat.add_comm 1 i]
    exact h (i + 1) u hu
  | n, ⟨r, some t⟩ :: s, h => by
    obtain ⟨hkeep, ht⟩ := h 0 t rfl
    have hrest : pruneSlots policy s = restrictSlots keep here (n + 1) s := by
      refine pruneSlots_eq_restrictSlots fun i u hu => ?_
      rw [Nat.add_assoc, Nat.add_comm 1 i]
      exact h (i + 1) u hu
    rw [Nat.add_zero] at hkeep ht
    rw [pruneSlots, restrictSlots, hkeep, hrest, ← ht]
    cases isLeftover policy (pruneLeftovers policy t) <;> rfl

theorem pruneLeftovers_of_subtree? {t : Tree} (u : Tree) : ∀ {here : Position}, t.subtree? here = some u →
    pruneLeftovers policy u = u.restrictFrom (saysSomething policy t) here := by
  induction u using Tree.induct with
  | h l s ih =>
    intro here hu
    rw [pruneLeftovers, restrictFrom, pruneSlots_eq_restrictSlots fun i u hi => ?_]
    obtain ⟨⟨r, c⟩, hs, hc⟩ := Option.bind_eq_some_iff.1 hi
    obtain rfl : c = some u := hc
    have hchild : t.subtree? (here ++ [0 + i]) = some u := by
      rw [Nat.zero_add, subtree?_snoc, hu]
      exact hi
    exact ⟨by rw [saysSomething, hchild]; rfl, ih r u (List.mem_of_getElem? hs) hchild⟩

/-- Pruning takes out what says nothing and what is below it, and nothing else. -/
theorem pruneLeftovers_eq_restrict (t : Tree) : pruneLeftovers policy t = t.restrict (saysSomething policy t) :=
  pruneLeftovers_of_subtree? t rfl

end Leftovers

/-! ## What the editor attached -/

section Attached

variable (policy) in
/-- Whether a node is childless and of a type that the editor attaches to a new parent. -/
def isAttachment (t : Tree) : Bool :=
  policy.trimIfParentIsAdded t.label.type && t.slots.isEmpty

variable (policy) in
/-- Whether the node at a position is none that the editor attached to an added node. -/
def staysAttached (isAdded : Position → Bool) (t : Tree) (p : Position) : Bool :=
  !(!p.dropLast.isEmpty && isAdded p.dropLast &&
    (t.subtree? p).any fun u => isAttachment policy (detachFrom policy isAdded p u))

variable {isAdded : Position → Bool}

theorem detachSlots_eq_restrictSlots {keep : Position → Bool} {here : Position} (trims : Bool) :
    ∀ {n : Nat} {s : List (Slot Tree)},
    (∀ i u, s[i]?.bind Slot.child = some u →
      keep (here ++ [n + i]) = !(trims && isAttachment policy (detachFrom policy isAdded (here ++ [n + i]) u)) ∧
        detachFrom policy isAdded (here ++ [n + i]) u = u.restrictFrom keep (here ++ [n + i])) →
    (if trims then (detachSlots policy isAdded here n s).filter fun c => !isAttached policy c
      else detachSlots policy isAdded here n s) = restrictSlots keep here n s
  | _, [], _ => by simp [detachSlots, restrictSlots]
  | n, ⟨r, none⟩ :: s, h => by
    have hrest := detachSlots_eq_restrictSlots trims (n := n + 1) (s := s) fun i u hu => by
      rw [Nat.add_assoc, Nat.add_comm 1 i]
      exact h (i + 1) u hu
    rw [detachSlots, restrictSlots, ← hrest]
    cases trims <;> rfl
  | n, ⟨r, some t⟩ :: s, h => by
    have hrest := detachSlots_eq_restrictSlots trims (n := n + 1) (s := s) fun i u hu => by
      rw [Nat.add_assoc, Nat.add_comm 1 i]
      exact h (i + 1) u hu
    obtain ⟨hkeep, ht⟩ := h 0 t rfl
    rw [Nat.add_zero] at hkeep ht
    rw [detachSlots, restrictSlots, hkeep, ← hrest, ← ht]
    cases trims with
    | false => rfl
    | true =>
      rw [if_pos rfl, if_pos rfl, List.filter_cons]
      rfl

theorem detachFrom_of_subtree? {t : Tree} (u : Tree) : ∀ {here : Position}, t.subtree? here = some u →
    detachFrom policy isAdded here u = u.restrictFrom (staysAttached policy isAdded t) here := by
  induction u using Tree.induct with
  | h l s ih =>
    intro here hu
    rw [detachFrom, restrictFrom]
    rw [detachSlots_eq_restrictSlots _ fun i u hi => ?_]
    obtain ⟨⟨r, c⟩, hs, hc⟩ := Option.bind_eq_some_iff.1 hi
    obtain rfl : c = some u := hc
    have hchild : t.subtree? (here ++ [0 + i]) = some u := by
      rw [Nat.zero_add, subtree?_snoc, hu]
      exact hi
    exact ⟨by rw [staysAttached, hchild, List.dropLast_concat]; rfl, ih r u (List.mem_of_getElem? hs) hchild⟩

/-- Detaching takes out what the editor attached to added nodes below the root, and nothing else. -/
theorem detachFrom_eq_restrict (isAdded : Position → Bool) (t : Tree) :
    detachFrom policy isAdded [] t = t.restrict (staysAttached policy isAdded t) :=
  detachFrom_of_subtree? t rfl

end Attached

/-! ## What is left -/

namespace Tree

theorem labelAt_of_subtree? {t u : Tree} {p : Position} (h : t.subtree? p = some u) : t.labelAt p = u.label := by
  rw [labelAt, h]
  rfl

theorem slotsAt_eq_nil_iff {t u : Tree} {p : Position} (h : t.subtree? p = some u) :
    t.slotsAt p = [] ↔ u.slots = [] := by
  rw [slotsAt, h]
  simp

end Tree

/-- What holds of a node and goes up to parents holds of all nodes above it. -/
theorem Position.forall_prefix {P : Position → Prop} (p : Position) : P p →
    (∀ q i, q ++ [i] <+: p → P (q ++ [i]) → P q) → ∀ q, q <+: p → P q := by
  induction p using List.reverseRecOn with
  | nil =>
    intro hp _ q hq
    rwa [List.prefix_nil.1 hq]
  | append_singleton p j ih =>
    intro hp step q hq
    rcases List.prefix_concat_iff.1 hq with rfl | hq
    · exact hp
    · refine ih (step p j List.prefix_rfl hp) (fun q i hqi => step q i ?_) q hq
      exact hqi.trans (List.prefix_append _ _)

/-- The node means something by itself: it is no placeholder nor below one, and of no type that is trimmed. -/
structure CarriesIntent (policy : Policy) (t : Tree) (p : Position) : Prop where
  /-- No node on the way to it is a placeholder. -/
  notEmpty : ∀ q, q <+: p → q ≠ [] → (t.labelAt q).type ≠ emptyType
  /-- It means something without children. -/
  childless : policy.trimIfChildless (t.labelAt p).type = false
  /-- The editor does not attach nodes of its type. -/
  attached : policy.trimIfParentIsAdded (t.labelAt p).type = false

section Left

variable {isAdded : Position → Bool} {t : Tree} {p : Position}

theorem saysSomething_of_type (hempty : (t.labelAt p).type ≠ emptyType)
    (hchildless : policy.trimIfChildless (t.labelAt p).type = false) : saysSomething policy t p = true := by
  rw [saysSomething]
  cases hu : t.subtree? p with
  | none => rfl
  | some u =>
    obtain ⟨l, s⟩ := u
    rw [labelAt_of_subtree? hu] at hempty hchildless
    simp_all [isLeftover, pruneLeftovers, label]

/-- A node with a child that says something is no leftover. -/
theorem saysSomething_of_child {i : Nat} (hpi : p ++ [i] ∈ t.positions) (hempty : (t.labelAt p).type ≠ emptyType)
    (hchild : saysSomething policy t (p ++ [i]) = true) : saysSomething policy t p = true := by
  obtain ⟨u, hu⟩ := Option.isSome_iff_exists.1 (mem_positions.1 (mem_positions_of_snoc hpi))
  obtain ⟨w, hw⟩ := Option.isSome_iff_exists.1 (mem_positions.1 hpi)
  rw [subtree?_snoc, hu, Option.bind_some] at hw
  have hslots : (pruneLeftovers policy u).slots ≠ [] := by
    rw [pruneLeftovers_of_subtree? u hu]
    exact slots_restrictFrom_ne_nil hw hchild
  have hlabel : (pruneLeftovers policy u).label = u.label := by
    cases u
    rfl
  rw [labelAt_of_subtree? hu] at hempty
  simp_all [saysSomething, isLeftover]

theorem staysAttached_of_type (hattached : policy.trimIfParentIsAdded (t.labelAt p).type = false) :
    staysAttached policy isAdded t p = true := by
  rw [staysAttached]
  cases hu : t.subtree? p with
  | none => simp
  | some u =>
    obtain ⟨l, s⟩ := u
    rw [labelAt_of_subtree? hu] at hattached
    simp_all [isAttachment, detachFrom, label]

/-- A child does not stay exactly if its parent was added and it is a childless attachment when it has lost its own. -/
theorem staysAttached_eq_false_iff {i : Nat} {w : Tree} (hw : t.subtree? (p ++ [i]) = some w) :
    staysAttached policy isAdded t (p ++ [i]) = false ↔ p ≠ [] ∧ isAdded p = true ∧
      policy.trimIfParentIsAdded (t.labelAt (p ++ [i])).type = true ∧
        (detachFrom policy isAdded (p ++ [i]) w).slots = [] := by
  have hlabel : (detachFrom policy isAdded (p ++ [i]) w).label = w.label := by
    cases w
    rfl
  rw [staysAttached, hw, List.dropLast_concat, labelAt_of_subtree? hw, Option.any_some, isAttachment, hlabel]
  simp [and_assoc]

/-- A node with a child that stays is no attachment. -/
theorem staysAttached_of_child {i : Nat} (hpi : p ++ [i] ∈ t.positions)
    (hchild : staysAttached policy isAdded t (p ++ [i]) = true) : staysAttached policy isAdded t p = true := by
  obtain ⟨u, hu⟩ := Option.isSome_iff_exists.1 (mem_positions.1 (mem_positions_of_snoc hpi))
  obtain ⟨w, hw⟩ := Option.isSome_iff_exists.1 (mem_positions.1 hpi)
  rw [subtree?_snoc, hu, Option.bind_some] at hw
  have hslots : (detachFrom policy isAdded p u).slots ≠ [] := by
    rw [detachFrom_of_subtree? u hu]
    exact slots_restrictFrom_ne_nil hw hchild
  simp_all [staysAttached, isAttachment]

end Left

/-! ## Both passes -/

section Passes

variable {start goal : Tree} {isAdded : Position → Bool} {t v : Tree} {q : Position}

theorem pruneLeftovers_isPart (policy : Policy) (t : Tree) :
    (pruneLeftovers policy t).IsPart t (t.origin (saysSomething policy t)) := by
  rw [pruneLeftovers_eq_restrict]
  exact restrict_isPart _ _

theorem detachFrom_isPart (policy : Policy) (isAdded : Position → Bool) (t : Tree) :
    (detachFrom policy isAdded [] t).IsPart t (t.origin (staysAttached policy isAdded t)) := by
  rw [detachFrom_eq_restrict]
  exact restrict_isPart _ _

/-- What is below a node that is left is pruned itself. -/
theorem exists_of_pruneLeftovers (hv : (pruneLeftovers policy t).subtree? q = some v) :
    ∃ u, t.subtree? (t.origin (saysSomething policy t) q) = some u ∧ v = pruneLeftovers policy u := by
  have hq : q ∈ (pruneLeftovers policy t).positions := by rw [mem_positions, hv]; rfl
  rw [pruneLeftovers_eq_restrict] at hq hv
  obtain ⟨u, hu, hvu⟩ := subtree?_restrict q hq
  refine ⟨u, hu, ?_⟩
  rw [pruneLeftovers_of_subtree? u hu]
  exact Option.some.inj (hv.symm.trans hvu)

/-- No leftovers are left below the root. -/
theorem not_isLeftover_of_pruneLeftovers (hv : (pruneLeftovers policy t).subtree? q = some v) (hne : q ≠ []) :
    isLeftover policy v = false := by
  obtain ⟨u, hu, rfl⟩ := exists_of_pruneLeftovers hv
  have hq : q ∈ (pruneLeftovers policy t).positions := by rw [mem_positions, hv]; rfl
  rw [pruneLeftovers_eq_restrict] at hq
  have hkeep := keep_origin hq hne
  rw [saysSomething, hu] at hkeep
  simpa using hkeep

/-- What is below a node that stays is detached itself. -/
theorem exists_of_detachFrom (hv : (detachFrom policy isAdded [] t).subtree? q = some v) :
    ∃ u, t.subtree? (t.origin (staysAttached policy isAdded t) q) = some u ∧
      v = detachFrom policy isAdded (t.origin (staysAttached policy isAdded t) q) u := by
  have hq : q ∈ (detachFrom policy isAdded [] t).positions := by rw [mem_positions, hv]; rfl
  rw [detachFrom_eq_restrict] at hq hv
  obtain ⟨u, hu, hvu⟩ := subtree?_restrict q hq
  refine ⟨u, hu, ?_⟩
  rw [detachFrom_of_subtree? u hu]
  exact Option.some.inj (hv.symm.trans hvu)

/-- Added nodes below the root that are left have no attachments left. -/
theorem not_isAttachment_of_detachFrom {i : Nat} (hv : (detachFrom policy isAdded [] t).subtree? (q ++ [i]) = some v)
    (hne : q ≠ []) (hadded : isAdded (t.origin (staysAttached policy isAdded t) q) = true) :
    isAttachment policy v = false := by
  obtain ⟨u, hu, rfl⟩ := exists_of_detachFrom hv
  have hq : q ++ [i] ∈ (detachFrom policy isAdded [] t).positions := by rw [mem_positions, hv]; rfl
  rw [detachFrom_eq_restrict] at hq
  have hpart := restrict_isPart (staysAttached policy isAdded t) t
  obtain ⟨j, hj, -⟩ := hpart.exists_snoc hq
  have hbelow : t.origin (staysAttached policy isAdded t) q ≠ [] :=
    mt (hpart.way_eq_nil_iff (mem_positions_of_snoc hq)).1 hne
  have hkeep := keep_origin hq (by simp)
  rw [staysAttached, hu, hj, List.dropLast_concat, hadded] at hkeep
  rw [hj]
  simpa [hbelow] using hkeep

/-- Nodes that carry intent are left when leftovers are taken out. -/
theorem exists_of_carriesIntent {p : Position} (hp : p ∈ t.positions) (h : p = [] ∨ CarriesIntent policy t p) :
    ∃ r ∈ (pruneLeftovers policy t).positions, t.origin (saysSomething policy t) r = p := by
  rw [pruneLeftovers_eq_restrict, mem_range_origin hp]
  rcases h with rfl | h
  · exact fun r hr hne => absurd (List.prefix_nil.1 hr) hne
  · refine Position.forall_prefix (P := fun r => r ≠ [] → saysSomething policy t r = true) p ?_ ?_
    · exact fun hne => saysSomething_of_type (h.notEmpty p List.prefix_rfl hne) h.childless
    · intro r i hri hchild hne
      obtain ⟨r', hr'⟩ := hri
      have hnode : r ++ [i] ∈ t.positions := mem_positions_of_append (hr' ▸ hp)
      exact saysSomething_of_child hnode (h.notEmpty r ((List.prefix_append _ _).trans ⟨r', hr'⟩) hne)
        (hchild (by simp))

/-- Nodes that the editor does not attach stay when attachments are taken out. -/
theorem exists_of_not_trimmed {p : Position} (hp : p ∈ t.positions)
    (h : p = [] ∨ policy.trimIfParentIsAdded (t.labelAt p).type = false) :
    ∃ r ∈ (detachFrom policy isAdded [] t).positions, t.origin (staysAttached policy isAdded t) r = p := by
  rw [detachFrom_eq_restrict, mem_range_origin hp]
  rcases h with rfl | h
  · exact fun r hr hne => absurd (List.prefix_nil.1 hr) hne
  · refine fun r hr _ => Position.forall_prefix (P := fun r => staysAttached policy isAdded t r = true) p
      (staysAttached_of_type h) ?_ r hr
    rintro r i ⟨r', hr'⟩ hchild
    exact staysAttached_of_child (mem_positions_of_append (hr' ▸ hp)) hchild

end Passes

end HintQuality
