import HintQuality.Proofs.Faithful
import HintQuality.Proofs.WellFormed
import Mathlib.Data.List.Induction
/-!
# Goals recovered from their edits

The edits from a start to a tree determine the tree except for the relation labels of the nodes in place, and nothing
more (`sameExcept_inPlace_iff`); there are no edits only if the tree is the start up to relation labels
(`sameExcept_start`). What `SameExcept` leaves open are relation labels alone: trees without empty slots that are the
same except at no node are equal (`sameExcept_nowhere_iff`).
-/

namespace HintQuality

namespace Tree

/-- The trees have the same nodes in the same order with the same types, values and ids, and the same relation labels
except at the nodes that are free. -/
structure SameExcept (free : Position → Prop) (a b : Tree) : Prop where
  /-- The same nodes in the same order. -/
  positions : a.positions = b.positions
  /-- The same types, values and ids. -/
  label : ∀ p ∈ a.positions, a.labelAt p = b.labelAt p
  /-- The same relation labels, except at free nodes. -/
  relation : ∀ p ∈ a.positions, ¬free p → a.view.relation? p = b.view.relation? p

/-- The nodes that have a partner in the start and did not move. -/
def InPlace (start goal : Tree) (p : Position) : Prop :=
  (Correspondence.of start.view goal.view).inPlace p = true

instance (start goal : Tree) (p : Position) : Decidable (start.InPlace goal p) :=
  inferInstanceAs (Decidable (_ = true))

variable {start a b : Tree}

/-! ## Trees that are the same except at no node -/

/-- The relation label of a child is that of its slot. -/
theorem relation?_snoc {t : Tree} {p : Position} {i : Nat} (h : p ++ [i] ∈ t.positions) :
    t.view.relation? (p ++ [i]) = ((t.subtree? p).bind (·.slots[i]?)).map Slot.relation := by
  have hp : p ∈ t.view.nodes := by rw [view_nodes]; exact mem_positions_of_snoc h
  obtain ⟨before, r, after, hslots, hrel, -⟩ := t.view_lawful.exists_slot hp (mem_children_slotsAt.2 ⟨i, rfl, h⟩)
  have hget : (t.slotsAt p)[before.length]? = some ⟨r, some (p ++ [i])⟩ := by
    have hslots' : t.slotsAt p = before ++ ⟨r, some (p ++ [i])⟩ :: after := hslots
    simp [hslots']
  rw [slotsAt_getElem?] at hget
  obtain ⟨s, hs, he⟩ := Option.map_eq_some_iff.1 hget
  obtain ⟨hr, hc⟩ := Slot.mk.inj he
  obtain ⟨u, -, hu⟩ := Option.map_eq_some_iff.1 hc
  obtain rfl : before.length = i := by simpa using hu
  rw [hrel, hs, Option.map_some, hr]

/-- The slots of a node without empty slots are as many as its children. -/
theorem Full.mem_positions_snoc_iff {t u : Tree} (h : t.Full) {p : Position} (hu : t.subtree? p = some u) {i : Nat} :
    p ++ [i] ∈ t.positions ↔ (u.slots[i]?).isSome := by
  rw [mem_positions, subtree?_snoc, hu, Option.bind_some]
  cases hs : u.slots[i]? with
  | none => simp
  | some s => simpa using h.subtree? hu s (List.mem_of_getElem? hs)

/-- Nodes at one position of trees that are the same except at no node have the same slots. -/
theorem SameExcept.slots (h : SameExcept (fun _ => False) a b) (ha : a.Full) (hb : b.Full) {p : Position} {u v : Tree}
    (hu : a.subtree? p = some u) (hv : b.subtree? p = some v) :
    (u.slots.map fun s => (s.relation, s.child.isSome)) = v.slots.map fun s => (s.relation, s.child.isSome) := by
  refine List.ext_getElem? fun i => ?_
  rw [List.getElem?_map, List.getElem?_map]
  have hsnoc : (u.slots[i]?).isSome ↔ (v.slots[i]?).isSome := by
    rw [← ha.mem_positions_snoc_iff hu, ← hb.mem_positions_snoc_iff hv, h.positions]
  cases hi : u.slots[i]? with
  | none =>
    rw [hi] at hsnoc
    rw [Option.not_isSome_iff_eq_none.1 (hsnoc.not.1 (by simp))]
  | some s =>
    obtain ⟨s', hi'⟩ := Option.isSome_iff_exists.1 (hsnoc.1 (by rw [hi]; rfl))
    have hpi : p ++ [i] ∈ a.positions := (ha.mem_positions_snoc_iff hu).2 (by rw [hi]; rfl)
    have hr := h.relation _ hpi not_false
    rw [relation?_snoc hpi, relation?_snoc (h.positions ▸ hpi), hu, hv, Option.bind_some, Option.bind_some, hi,
      hi'] at hr
    have hc := ha.subtree? hu s (List.mem_of_getElem? hi)
    have hc' := hb.subtree? hv s' (List.mem_of_getElem? hi')
    rw [hi', Option.map_some, Option.map_some, hc, hc', Option.some.inj hr]

/-- Trees without empty slots are equal if they are the same except at no node. -/
theorem sameExcept_nowhere_iff (ha : a.Full) (hb : b.Full) : SameExcept (fun _ => False) a b ↔ a = b := by
  constructor
  · intro h
    refine ext_of_skeleton fun p => ?_
    have hiff : (a.subtree? p).isSome ↔ (b.subtree? p).isSome := by rw [← mem_positions, h.positions, mem_positions]
    cases hu : a.subtree? p with
    | none =>
      rw [hu] at hiff
      rw [Option.not_isSome_iff_eq_none.1 (hiff.not.1 (by simp))]
    | some u =>
      obtain ⟨v, hv⟩ := Option.isSome_iff_exists.1 (hiff.1 (by rw [hu]; rfl))
      have hl : u.label = v.label := by
        simpa [labelAt, hu, hv] using h.label p (by rw [mem_positions, hu]; rfl)
      rw [hv, Option.map_some, Option.map_some, skeleton, skeleton, hl, h.slots ha hb hu hv]
  · rintro rfl
    exact ⟨rfl, fun _ _ => rfl, fun _ _ _ => rfl⟩

/-! ## Trees of the same edits -/

/-- Nodes at one position have the same key, if the trees have the same edits. -/
theorem mem_positions_of_edits (hlabels : start.DistinctLabels) (ha : a.Full) (hb : b.Full)
    (h : ∀ e, e ∈ start.edits a ↔ e ∈ start.edits b) (p : Position) : p ∈ a.positions →
      p ∈ b.positions ∧ start.view.keyOf a.view p = start.view.keyOf b.view p := by
  have hs := start.view_lawful
  have hva := a.view_lawful
  have hvb := b.view_lawful
  induction p using List.reverseRecOn with
  | nil =>
    intro _
    refine ⟨b.nil_mem_positions, ?_⟩
    have hroot := (Correspondence.partner?_eq_some_iff hs hva).2 (Pairing.roots_mem hs hva)
    have hroot' := (Correspondence.partner?_eq_some_iff hs hvb).2 (Pairing.roots_mem hs hvb)
    exact (Correspondence.goalKey_of_partner hva hroot).trans (Correspondence.goalKey_of_partner hvb hroot').symm
  | append_singleton p i ih =>
    intro hpi
    have hp := mem_positions_of_snoc hpi
    obtain ⟨hq, hk⟩ := ih hp
    rw [← view_nodes] at hp hq
    have hkeys := View.childKeys_eq hs hva hvb hlabels.distinctPaths h hp hq hk
    -- the keys of the children number `i`
    have hi := congrArg (·[i]?) hkeys
    obtain ⟨u, hu⟩ := Option.isSome_iff_exists.1 (mem_positions.1 hpi)
    simp only [View.childKeys, List.getElem?_map, ha.getElem?_children, hb.getElem?_children, hu,
      Option.map_some] at hi
    obtain ⟨q, hq, hqk⟩ := Option.map_eq_some_iff.1 hi.symm
    obtain ⟨v, hv, rfl⟩ := Option.map_eq_some_iff.1 hq
    exact ⟨by rw [mem_positions, hv]; rfl, hqk.symm⟩

/-- Trees of the same edits are the same except for relation labels of nodes in place. -/
theorem sameExcept_of_edits (hlabels : start.DistinctLabels) (ha : a.Full) (hb : b.Full)
    (h : ∀ e, e ∈ start.edits a ↔ e ∈ start.edits b) : SameExcept (start.InPlace a) a b := by
  have hforth := mem_positions_of_edits hlabels ha hb h
  have hback := mem_positions_of_edits hlabels hb ha fun e => (h e).symm
  have hpos : a.positions = b.positions :=
    a.pairwise_positions.eq_of_mem_iff b.pairwise_positions fun p =>
      ⟨fun hp => (hforth p hp).1, fun hp => (hback p hp).1⟩
  refine ⟨hpos, fun p hp => ?_, fun p hp hfree => ?_⟩
  · obtain ⟨hq, hk⟩ := hforth p hp
    rw [← view_nodes] at hp hq
    exact View.label_eq start.view_lawful a.view_lawful b.view_lawful hlabels.distinctPaths h hp hq hk
  · obtain ⟨hq, hk⟩ := hforth p hp
    rw [← view_nodes] at hp hq
    exact View.relation?_eq start.view_lawful a.view_lawful b.view_lawful hlabels.distinctPaths h hp hq hk
      (Bool.eq_false_iff.2 hfree)

/-- Trees of the same edits have the same nodes in place. -/
theorem inPlace_of_edits (hlabels : start.DistinctLabels) (ha : a.Full) (hb : b.Full)
    (h : ∀ e, e ∈ start.edits a ↔ e ∈ start.edits b) {p : Position} (hp : p ∈ a.positions) :
    start.InPlace a p ↔ start.InPlace b p := by
  obtain ⟨hq, hk⟩ := mem_positions_of_edits hlabels ha hb h p hp
  rw [← view_nodes] at hp hq
  unfold InPlace
  rw [View.inPlace_eq start.view_lawful a.view_lawful b.view_lawful hlabels.distinctPaths h hp hq hk]

/-- Trees with the same positions and labels have the same nodes. -/
theorem sameNodes_view (hpos : a.positions = b.positions) (hlabel : ∀ p ∈ a.positions, a.labelAt p = b.labelAt p) :
    a.view.SameNodes b.view := by
  have hnone : ∀ {t : Tree} {p : Position}, p ∉ t.positions → t.subtree? p = none := by
    intro t p hp
    rwa [mem_positions, Option.not_isSome_iff_eq_none] at hp
  refine ⟨rfl, congrArg List.tail hpos, ?_, ?_, rfl⟩
  · funext p
    by_cases hp : p ∈ a.positions
    · exact hlabel p hp
    · have hp' : p ∉ b.positions := hpos ▸ hp
      show a.labelAt p = b.labelAt p
      rw [labelAt, labelAt, hnone hp, hnone hp']
  · funext p
    refine (a.pairwise_children_slotsAt p).eq_of_mem_iff (b.pairwise_children_slotsAt p) fun c => ?_
    exact mem_children_slotsAt.trans (hpos ▸ mem_children_slotsAt.symm)

/-- Trees have the same edits exactly if they are the same except for relation labels of nodes in place. -/
theorem sameExcept_inPlace_iff (hlabels : start.DistinctLabels) (ha : a.Full) (hb : b.Full) :
    SameExcept (start.InPlace a) a b ↔ ∀ e, e ∈ start.edits a ↔ e ∈ start.edits b := by
  constructor
  · intro h e
    refine (sameNodes_view h.positions h.label).mem_edits_iff a.view_lawful b.view_lawful (fun p hp hin => ?_)
      start.view_lawful
    rw [view_nodes] at hp
    exact h.relation p hp (Bool.eq_false_iff.1 hin)
  · exact sameExcept_of_edits hlabels ha hb

/-! ## Trees without edits -/

/-- Without edits, all nodes are in place and labelled like their partners, and all start nodes are kept. -/
theorem inPlace_of_edits_eq_nil (h : start.edits a = []) :
    (∀ p ∈ a.positions, ∃ q, (Correspondence.of start.view a.view).partner? p = some q ∧
      start.InPlace a p ∧ start.labelAt q = a.labelAt p) ∧
      ∀ q ∈ start.positions, (Correspondence.of start.view a.view).isKept q = true := by
  have hnone : ∀ e, e ∉ start.view.edits a.view := fun e he => by
    have he' : e ∈ start.edits a := he
    rw [h] at he'
    cases he'
  have hedits := fun e => (Correspondence.mem_edits_iff start.view_lawful a.view_lawful (e := e)).not.1 (hnone e)
  rw [← view_nodes, ← view_nodes]
  constructor
  · intro p hp
    have hin : (Correspondence.of start.view a.view).inPlace p = true := by
      by_contra hin
      exact hedits _ (.inr (.inl ⟨p, hp, Bool.eq_false_iff.2 hin, rfl⟩))
    obtain ⟨⟨q, hq⟩, -⟩ := Correspondence.inPlace_iff.1 hin
    refine ⟨q, hq, hin, ?_⟩
    by_contra hl
    exact hedits _ (.inr (.inr ⟨p, hp, hin, q, hq, hl, rfl⟩))
  · intro q hq
    by_contra hk
    exact hedits _ (.inl ⟨q, hq, Bool.eq_false_iff.2 hk, rfl⟩)

/-- Without edits, nothing is left out of the children of a node or its partner. -/
theorem children_of_edits_eq_nil (h : start.edits a = []) {p q : Position}
    (hq : (Correspondence.of start.view a.view).partner? p = some q) :
    (a.view.children p).filterMap (Correspondence.of start.view a.view).partner? = start.view.children q ∧
      ∀ c ∈ a.view.children p, ((Correspondence.of start.view a.view).partner? c).isSome := by
  have hs := start.view_lawful
  have hva := a.view_lawful
  obtain ⟨hplace, hkept⟩ := inPlace_of_edits_eq_nil h
  obtain ⟨hp, hqn⟩ := Pairing.mem_nodes_of hs hva ((Correspondence.partner?_eq_some_iff hs hva).1 hq)
  have hkid : ∀ c ∈ a.view.children p, c ∈ a.positions := fun c hc => by
    rw [← view_nodes]
    exact hva.mem_nodes_of_child hp hc
  have hin : (a.view.children p).filter (Correspondence.of start.view a.view).inPlace = a.view.children p :=
    List.filter_eq_self.2 fun c hc => by
      obtain ⟨_, -, h, -⟩ := hplace c (hkid c hc)
      exact h
  have hstay : (start.view.children q).filter (Correspondence.of start.view a.view).isKept = start.view.children q :=
    List.filter_eq_self.2 fun d hd => hkept d (by
      rw [← view_nodes]
      exact hs.mem_nodes_of_child hqn hd)
  have hkids := Correspondence.partners_inPlace hs hva hq
  rw [hin, hstay] at hkids
  refine ⟨hkids, fun c hc => ?_⟩
  obtain ⟨_, hd, -⟩ := hplace c (hkid c hc)
  rw [hd]
  rfl

/-- Without edits, every node stands where its partner does. -/
theorem partner?_of_edits_eq_nil (hstart : start.Full) (ha : a.Full) (h : start.edits a = []) (p : Position) :
    p ∈ a.positions → (Correspondence.of start.view a.view).partner? p = some p := by
  have hs := start.view_lawful
  have hva := a.view_lawful
  induction p using List.reverseRecOn with
  | nil => exact fun _ => (Correspondence.partner?_eq_some_iff hs hva).2 (Pairing.roots_mem hs hva)
  | append_singleton p i ih =>
    intro hpi
    obtain ⟨hkids, hsome⟩ := children_of_edits_eq_nil h (ih (mem_positions_of_snoc hpi))
    obtain ⟨q, hq, -⟩ := (inPlace_of_edits_eq_nil h).1 _ hpi
    obtain ⟨u, hu⟩ := Option.isSome_iff_exists.1 (mem_positions.1 hpi)
    -- the partner of child number `i` is child number `i`
    have hi := congrArg (·[i]?) hkids
    simp only [getElem?_filterMap hsome, ha.getElem?_children, hstart.getElem?_children, hu, Option.map_some,
      Option.bind_some, hq] at hi
    obtain ⟨v, -, hv⟩ := Option.map_eq_some_iff.1 hi.symm
    rw [hq, hv]

/-- There are no edits only if the tree is the start up to relation labels. -/
theorem sameExcept_start (hstart : start.Full) (ha : a.Full) (h : start.edits a = []) :
    SameExcept (fun _ => True) a start := by
  have hs := start.view_lawful
  have hva := a.view_lawful
  have hpartner := partner?_of_edits_eq_nil hstart ha h
  obtain ⟨hplace, hkept⟩ := inPlace_of_edits_eq_nil h
  have hpos : a.positions = start.positions := by
    refine a.pairwise_positions.eq_of_mem_iff start.pairwise_positions fun p => ⟨fun hp => ?_, fun hp => ?_⟩
    · rw [← view_nodes]
      exact (Pairing.mem_nodes_of hs hva ((Correspondence.partner?_eq_some_iff hs hva).1 (hpartner p hp))).2
    · obtain ⟨q, hq, -⟩ := (Correspondence.isKept_iff (Pairing.injective_of hs hva)).1 (hkept p hp)
      have hqn := (Pairing.mem_nodes_of hs hva ((Correspondence.partner?_eq_some_iff hs hva).1 hq)).1
      rw [view_nodes] at hqn
      rw [hpartner q hqn] at hq
      rwa [← Option.some.inj hq]
  refine ⟨hpos, fun p hp => ?_, fun _ _ hfree => absurd trivial hfree⟩
  obtain ⟨q, hq, -, hl⟩ := hplace p hp
  rw [hpartner p hp] at hq
  rw [← hl, Option.some.inj hq]

/-- Edits are faithful: trees with the same edits from one start are the same, except perhaps for the relation labels
of nodes in place in both, and a tree without edits is the start up to relation labels. -/
theorem edits_faithful (hlabels : start.DistinctLabels) (hstart : start.Full) (ha : a.Full) (hb : b.Full) :
    ((∀ e, e ∈ start.edits a ↔ e ∈ start.edits b) →
      SameExcept (fun p => start.InPlace a p ∧ start.InPlace b p) a b) ∧
        (start.edits a = [] → SameExcept (fun _ => True) a start) := by
  refine ⟨fun h => ?_, sameExcept_start hstart ha⟩
  have hsame := sameExcept_of_edits hlabels ha hb h
  refine ⟨hsame.positions, hsame.label, fun p hp hfree => hsame.relation p hp fun hin => hfree ⟨hin, ?_⟩⟩
  exact (inPlace_of_edits hlabels ha hb h hp).1 hin

/-- Two ways to add a child that differ in the relation label of the child that was there. -/
theorem edits_faithful_relabelled :
    let start := node ⟨"script", none, some "s"⟩ [⟨"0", some (leaf ⟨"move", none, some "m"⟩)⟩]
    let a := node ⟨"script", none, some "s"⟩
      [⟨"0", some (leaf ⟨"move", none, some "m"⟩)⟩, ⟨"1", some (leaf ⟨"turn", none, none⟩)⟩]
    let b := node ⟨"script", none, some "s"⟩
      [⟨"x", some (leaf ⟨"move", none, some "m"⟩)⟩, ⟨"1", some (leaf ⟨"turn", none, none⟩)⟩]
    a ≠ b ∧ SameExcept (fun p => start.InPlace a p ∧ start.InPlace b p) a b ∧
      SameExcept (fun _ => True) start start := by
  refine ⟨by decide, ?_, ?_⟩
  · refine (edits_faithful (by decide) (by decide) (by decide) (by decide)).1 fun e => ?_
    exact iff_of_eq (congrArg (e ∈ ·) (by decide +kernel))
  · exact (edits_faithful (b := default) (by decide) (by decide) (by decide) (by decide)).2 (by decide +kernel)

end Tree

end HintQuality
