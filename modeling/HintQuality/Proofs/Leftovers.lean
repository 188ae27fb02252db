import HintQuality.Proofs.ExtraNode
import HintQuality.Proofs.FreshNames
import HintQuality.Proofs.Insertion
import HintQuality.Proofs.Stability
/-!
# Empty leftovers

A placeholder, or a childless node of a type that needs children, is pruned wherever it stands
(`pruneLeftovers_insertSlot`), and leaves no trace in anything but ids (`withoutIds_leftover`). But ids are adopted
before that, and the leftover takes part in the alignment of its siblings. If it does not disturb their pairs, the
normal form is the same (`normalForm_leftover`), and if it does it may not be (`leftover_disturbs`).
-/

namespace HintQuality

variable {ω : Type}

/-! ## Trees with a leftover -/

/-- A leaf without an id is one more node. -/
theorem Tree.extends_insertSlot {t : Tree} {p : Position} {i : Nat} {r : String} {l : Label} (h : t.HasRoom p i)
    (hid : l.id = none) :
    t.view.Extends (t.insertSlot ⟨r, some (leaf l)⟩ i p).view (shifted i p) (p ++ [i]) p := by
  refine ⟨shifted_injective i p, fun q => shifted_ne i p q [], (shifted_nil i p).symm, fun k => ?_,
    labelAt_insertSlot h, fun q hq => children_insertSlot h hq, fun q => shifted_mem_children h, ?_⟩
  · rw [view_nodes, view_nodes, mem_positions_insertSlot h]
  · exact (congrArg Label.id (labelAt_insertSlot_new h)).trans hid

section Prune

variable {policy : Policy}

theorem pruneSlots_append : ∀ a b : List (Slot Tree),
    pruneSlots policy (a ++ b) = pruneSlots policy a ++ pruneSlots policy b
  | [], _ => rfl
  | ⟨r, none⟩ :: a, b => by rw [List.cons_append, pruneSlots, pruneSlots, pruneSlots_append a, List.cons_append]
  | ⟨r, some t⟩ :: a, b => by
    simp only [List.cons_append, pruneSlots, pruneSlots_append a]
    split <;> rfl

/-- Changing a child to one that is pruned to the same tree changes no pruned slots. -/
theorem pruneSlots_modify {f : Tree → Tree} (hf : ∀ t, pruneLeftovers policy (f t) = pruneLeftovers policy t) :
    ∀ (s : List (Slot Tree)) (k : Nat), pruneSlots policy (s.modify k fun c => c.map f) = pruneSlots policy s
  | [], _ => by simp
  | ⟨r, none⟩ :: s, 0 => rfl
  | ⟨r, some t⟩ :: s, 0 => by
    rw [List.modify_zero_cons, Slot.map, Option.map_some, pruneSlots, pruneSlots, hf]
  | ⟨r, none⟩ :: s, k + 1 => by
    rw [List.modify_succ_cons, pruneSlots, pruneSlots, pruneSlots_modify hf s k]
  | ⟨r, some t⟩ :: s, k + 1 => by
    rw [List.modify_succ_cons, pruneSlots, pruneSlots, pruneSlots_modify hf s k]

/-- Pruning takes out what says nothing, wherever it stands. -/
theorem pruneLeftovers_insertSlot {x : Tree} (hx : isLeftover policy (pruneLeftovers policy x) = true) (r : String)
    (i : Nat) (p : Position) (t : Tree) :
    pruneLeftovers policy (t.insertSlot ⟨r, some x⟩ i p) = pruneLeftovers policy t := by
  induction p generalizing t with
  | nil =>
    obtain ⟨l, s⟩ := t
    have hdrop : pruneSlots policy (⟨r, some x⟩ :: s.drop i) = pruneSlots policy (s.drop i) := by
      rw [pruneSlots]
      exact if_pos hx
    rw [Tree.insertSlot, pruneLeftovers, pruneLeftovers, pruneSlots_append, hdrop, ← pruneSlots_append,
      List.take_append_drop]
  | cons k p ih =>
    obtain ⟨l, s⟩ := t
    rw [Tree.insertSlot, pruneLeftovers, pruneLeftovers, pruneSlots_modify ih]

theorem isLeftover_mapLabelsFrom {g : Label → Label} (hg : ∀ l, (g l).type = l.type) (here : Position) (t : Tree) :
    isLeftover policy (t.mapLabelsFrom (fun _ => g) here) = isLeftover policy t := by
  obtain ⟨l, s⟩ := t
  have hempty : (Tree.mapSlotLabels (fun _ => g) here 0 s).isEmpty = s.isEmpty := by
    rcases s with _ | ⟨⟨r, _ | u⟩, s⟩ <;> rfl
  show (decide ((g l).type = Tree.emptyType) || (Tree.mapSlotLabels (fun _ => g) here 0 s).isEmpty &&
    policy.trimIfChildless (g l).type) = _
  rw [hg, hempty]
  rfl

theorem isLeftover_leaf {l l' : Label} (htype : l'.type = l.type) (hl : isLeftover policy (.leaf l) = true) :
    isLeftover policy (pruneLeftovers policy (.leaf l')) = true := by
  rw [Tree.leaf, pruneLeftovers, pruneSlots]
  show (decide (l'.type = Tree.emptyType) || policy.trimIfChildless l'.type) = true
  rw [htype]
  exact hl

mutual

/-- Pruning looks at types and slots only. -/
theorem pruneLeftovers_mapLabelsFrom {g : Label → Label} (hg : ∀ l, (g l).type = l.type) (here here' : Position) :
    ∀ t : Tree, pruneLeftovers policy (t.mapLabelsFrom (fun _ => g) here) =
      (pruneLeftovers policy t).mapLabelsFrom (fun _ => g) here'
  | .node l s => by
    rw [Tree.mapLabelsFrom, pruneLeftovers, pruneLeftovers, Tree.mapLabelsFrom,
      pruneSlots_mapSlotLabels hg here here' 0 0 s]

theorem pruneSlots_mapSlotLabels {g : Label → Label} (hg : ∀ l, (g l).type = l.type) (here here' : Position)
    (n n' : Nat) : ∀ s : List (Slot Tree), pruneSlots policy (Tree.mapSlotLabels (fun _ => g) here n s) =
      Tree.mapSlotLabels (fun _ => g) here' n' (pruneSlots policy s)
  | [] => rfl
  | ⟨r, none⟩ :: s => by
    rw [Tree.mapSlotLabels, pruneSlots, pruneSlots, Tree.mapSlotLabels,
      pruneSlots_mapSlotLabels hg here here' (n + 1) (n' + 1) s]
  | ⟨r, some t⟩ :: s => by
    rw [Tree.mapSlotLabels, pruneSlots, pruneSlots,
      pruneLeftovers_mapLabelsFrom hg (here ++ [n]) (here' ++ [n']) t]
    simp only [isLeftover_mapLabelsFrom hg]
    split
    · exact pruneSlots_mapSlotLabels hg here here' (n + 1) n' s
    · rw [Tree.mapSlotLabels, pruneSlots_mapSlotLabels hg here here' (n + 1) (n' + 1) s]

end

end Prune

section Normalize

variable {policy : Policy} {known : List String} {t : Tree} {p : Position} {i : Nat} {r : String} {l : Label}
  (h : t.HasRoom p i)
include h

theorem forgetValues_insertSlot : forgetValues policy known (t.insertSlot ⟨r, some (.leaf l)⟩ i p) =
    (forgetValues policy known t).insertSlot ⟨r, some (.leaf (forgetValue policy known (p ++ [i]) l))⟩ i p := by
  refine Tree.mapLabels_insertSlot h fun q _ => ?_
  simp only [forgetValue, List.isEmpty_iff, shifted_eq_nil_iff]

theorem adoptIds_insertSlot {start : View Position} (hsame : ∀ q ∈ t.positions,
      (Correspondence.of start (t.insertSlot ⟨r, some (.leaf l)⟩ i p).view).partner? (shifted i p q) =
        (Correspondence.of start t.view).partner? q) :
    ∃ l' : Label, l'.type = l.type ∧ adoptIds start (t.insertSlot ⟨r, some (.leaf l)⟩ i p) =
      (adoptIds start t).insertSlot ⟨r, some (.leaf l')⟩ i p := by
  refine ⟨_, ?_, Tree.mapLabels_insertSlot h fun q hq => ?_⟩
  · rw [adoptId]
    split <;> rfl
  · have hlookup : (Correspondence.of start (t.insertSlot ⟨r, some (.leaf l)⟩ i p).view).pairs.lookup (shifted i p q) =
        (Correspondence.of start t.view).pairs.lookup q := by
      rw [lookup_eq_partner?, lookup_eq_partner?]
      exact hsame q hq
    simp only [adoptId, List.isEmpty_iff, shifted_eq_nil_iff, hlookup]

end Normalize

/-! ## Ids aside -/

/-- The tree without any ids. -/
def Tree.withoutIds (t : Tree) : Tree :=
  t.mapLabels fun _ l => { l with id := none }

theorem Tree.withoutIds_insertSlot {t : Tree} {p : Position} {i : Nat} {r : String} {l : Label} (h : t.HasRoom p i) :
    (t.insertSlot ⟨r, some (leaf l)⟩ i p).withoutIds =
      t.withoutIds.insertSlot ⟨r, some (leaf { l with id := none })⟩ i p :=
  mapLabels_insertSlot h fun _ _ => rfl

theorem withoutIds_pruneLeftovers (policy : Policy) (t : Tree) :
    (pruneLeftovers policy t).withoutIds = pruneLeftovers policy t.withoutIds :=
  (pruneLeftovers_mapLabelsFrom (g := fun l => { l with id := none }) (fun _ => rfl) [] [] t).symm

/-- Adopting ids changes nothing else. -/
theorem withoutIds_adoptIds (start : View Position) (t : Tree) : (adoptIds start t).withoutIds = t.withoutIds := by
  refine Tree.ext_of_slotsAt (fun p _ => ?_) fun p hp => ?_
  · rw [Tree.withoutIds, Tree.withoutIds, adoptIds, Tree.slotsAt_mapLabels, Tree.slotsAt_mapLabels,
      Tree.slotsAt_mapLabels]
  · rw [Tree.withoutIds, Tree.positions_mapLabels] at hp
    rw [Tree.withoutIds, Tree.withoutIds, Tree.labelAt_mapLabels _ hp]
    rw [adoptIds, Tree.positions_mapLabels] at hp
    rw [adoptIds, Tree.labelAt_mapLabels _ hp, Tree.labelAt_mapLabels _ hp, adoptId]
    split <;> rfl

/-! ## What leftovers do -/

/-- Below the partner of the node at `p`, the old children of that node are paired as they were before a slot was
inserted at index `i`. -/
def Undisturbed (policy : Policy) (start t t' : Tree) (i : Nat) (p : Position) : Prop :=
  Pairing.Undisturbed start.view (forgetValues policy start.view.values t).view
    (forgetValues policy start.view.values t').view (shifted i p) p

section Leftover

variable {policy : Policy} {start t : Tree} {p : Position} {i : Nat} {r : String} {l : Label}
  (h : t.HasRoom p i) (hid : l.id = none)
include h hid

omit hid in
/-- Ids aside, a leftover leaves no trace among the values that are left after pruning. -/
theorem withoutIds_leftover (hleftover : isLeftover policy (.leaf l) = true) :
    (pruneLeftovers policy (normalizeValues policy start (t.insertSlot ⟨r, some (.leaf l)⟩ i p))).withoutIds =
      (pruneLeftovers policy (normalizeValues policy start t)).withoutIds := by
  have hroom : (forgetValues policy start.view.values t).HasRoom p i := h.mapLabels _
  have hids : ∀ u, (pruneLeftovers policy (normalizeValues policy start u)).withoutIds =
      pruneLeftovers policy (forgetValues policy start.view.values u).withoutIds := by
    intro u
    rw [withoutIds_pruneLeftovers, normalizeValues, normalizeValuesAgainst, withoutIds_adoptIds]
  rw [hids, hids, forgetValues_insertSlot h, Tree.withoutIds_insertSlot hroom,
    pruneLeftovers_insertSlot (isLeftover_leaf ?_ hleftover)]
  rw [forgetValue]
  split <;> rfl

theorem extends_forgetValues (known : List String) : (forgetValues policy known t).view.Extends
    (forgetValues policy known (t.insertSlot ⟨r, some (.leaf l)⟩ i p)).view (shifted i p) (p ++ [i]) p := by
  have hroom : (forgetValues policy known t).HasRoom p i := h.mapLabels _
  rw [forgetValues_insertSlot h]
  refine Tree.extends_insertSlot hroom ?_
  rw [forgetValue]
  split <;> exact hid

/-- The leftover leaves the partners of all other nodes alone exactly if it does not disturb its siblings. -/
theorem partners_iff_undisturbed :
    (∀ q ∈ t.positions,
      (Correspondence.of start.view
        (forgetValues policy start.view.values (t.insertSlot ⟨r, some (.leaf l)⟩ i p)).view).partner? (shifted i p q) =
          (Correspondence.of start.view (forgetValues policy start.view.values t).view).partner? q) ↔
      Undisturbed policy start t (t.insertSlot ⟨r, some (.leaf l)⟩ i p) i p := by
  have hs := start.view_lawful
  have hg := (forgetValues policy start.view.values t).view_lawful
  have hg' := (forgetValues policy start.view.values (t.insertSlot ⟨r, some (.leaf l)⟩ i p)).view_lawful
  have hnodes : (forgetValues policy start.view.values t).view.nodes = t.positions := by
    rw [Tree.view_nodes, forgetValues, Tree.positions_mapLabels]
  have hp : p ∈ (forgetValues policy start.view.values t).view.nodes := by
    rw [hnodes]
    exact h.mem_positions
  rw [Undisturbed, ← (extends_forgetValues h hid _).mem_of_iff_undisturbed hs hg hg' hp, hnodes]
  refine forall_congr' fun q => imp_congr_right fun _ => ?_
  rw [Option.ext_iff]
  simp only [Correspondence.partner?_eq_some_iff hs hg', Correspondence.partner?_eq_some_iff hs hg]

/-- A leftover that does not disturb its siblings leaves no trace in the normal form. -/
theorem normalForm_of_undisturbed (hleftover : isLeftover policy (.leaf l) = true)
    (hundisturbed : Undisturbed policy start t (t.insertSlot ⟨r, some (.leaf l)⟩ i p) i p) :
    normalForm policy start (t.insertSlot ⟨r, some (.leaf l)⟩ i p) = normalForm policy start t := by
  have hroom : (forgetValues policy start.view.values t).HasRoom p i := h.mapLabels _
  have hsame := (partners_iff_undisturbed h hid).2 hundisturbed
  have hpositions : t.positions = (forgetValues policy start.view.values t).positions :=
    (Tree.positions_mapLabels _ _).symm
  rw [forgetValues_insertSlot h, hpositions] at hsame
  obtain ⟨l', htype, hadopt⟩ := adoptIds_insertSlot hroom hsame
  have htype : l'.type = l.type := by
    rw [htype, forgetValue]
    split <;> rfl
  have hnormal : normalizeValues policy start (t.insertSlot ⟨r, some (.leaf l)⟩ i p) =
      (normalizeValues policy start t).insertSlot ⟨r, some (.leaf l')⟩ i p := by
    rw [normalizeValues, normalizeValuesAgainst, forgetValues_insertSlot h, hadopt]
    rfl
  rw [normalForm, normalForm, hnormal, prune, prune, pruneAgainst, pruneAgainst,
    pruneLeftovers_insertSlot (isLeftover_leaf htype hleftover)]

/-- Ids aside, a leftover leaves no trace among the values that are left after pruning. It leaves the partners of all
other nodes alone exactly if it does not disturb the alignment of its siblings, and then the ids are the same too, and
with them the normal form and full matches. -/
theorem normalForm_leftover (hleftover : isLeftover policy (.leaf l) = true) :
    let t' := t.insertSlot ⟨r, some (.leaf l)⟩ i p
    (pruneLeftovers policy (normalizeValues policy start t')).withoutIds =
      (pruneLeftovers policy (normalizeValues policy start t)).withoutIds ∧
    ((∀ q ∈ t.positions,
        (Correspondence.of start.view (forgetValues policy start.view.values t').view).partner? (shifted i p q) =
          (Correspondence.of start.view (forgetValues policy start.view.values t).view).partner? q) ↔
      Undisturbed policy start t t' i p) ∧
    (Undisturbed policy start t t' i p → normalForm policy start t' = normalForm policy start t ∧
      ∀ (hints : List TutorHint) (o o' : Outcome ω), (∀ h ∈ hints, h.requestTree = some start) →
        o.result = some t → o'.result = some t' →
          SameRun (Option.Rel (SameVerdict fun p p' => p = o ∧ p' = o')) (Matching.full policy hints o)
            (Matching.full policy hints o')) := by
  intro t'
  refine ⟨withoutIds_leftover h hleftover, partners_iff_undisturbed h hid, fun hundisturbed => ?_⟩
  have hform := normalForm_of_undisturbed h hid hleftover hundisturbed
  refine ⟨hform, fun hints o o' hstart ho ho' => full_sameRun hstart ⟨rfl, rfl⟩ ?_⟩
  rw [ho, ho']
  exact .some hform.symm

end Leftover

/-- A comment at the end of a block leaves no trace if the children of the block in the start keep their ids. -/
theorem normalForm_leftover_at_end :
    let policy : Policy := { trimIfChildlessTypes := ["comment"] }
    let start : Tree := .node ⟨"script", none, some "s"⟩ [⟨"0", some (.leaf ⟨"move", none, some "m"⟩)⟩]
    let t : Tree := .node ⟨"script", none, some "s"⟩
      [⟨"0", some (.leaf ⟨"move", none, some "m"⟩)⟩, ⟨"1", some (.leaf ⟨"turn", none, none⟩)⟩]
    let t' := t.insertSlot ⟨"2", some (.leaf ⟨"comment", none, none⟩)⟩ 2 []
    t'.slots.length = 3 ∧ normalForm policy start t' = normalForm policy start t := by
  intro policy start t t'
  have h : t.HasRoom [] 2 := ⟨t, rfl, by decide⟩
  have hleftover : isLeftover policy (.leaf ⟨"comment", none, none⟩) = true := by decide
  have hs := start.view_lawful
  have hg := (forgetValues policy start.view.values t).view_lawful
  have hg' := (forgetValues policy start.view.values t').view_lawful
  have hundisturbed : Undisturbed policy start t t' 2 [] := by
    refine (extends_forgetValues h rfl _).undisturbed_of_taken hs hg hg' (Pairing.roots_mem hs hg) ?_
    decide +kernel
  refine ⟨rfl, ?_⟩
  exact ((normalForm_leftover (ω := Nat) (r := "2") h rfl hleftover).2.2 hundisturbed).1

/-- A placeholder behind a renamed child does disturb it: one child does not become two. -/
theorem leftover_disturbs :
    let start : Tree := .node ⟨"script", none, some "s"⟩ [⟨"0", some (.leaf ⟨"move", none, some "m"⟩)⟩]
    let t : Tree := .node ⟨"script", none, some "s"⟩ [⟨"0", some (.leaf ⟨"turn", none, none⟩)⟩]
    isLeftover {} (.leaf ⟨Tree.emptyType, none, none⟩) = true ∧
      normalForm {} start (t.insertSlot ⟨"1", some (.leaf ⟨Tree.emptyType, none, none⟩)⟩ 1 []) ≠
        normalForm {} start t := by
  decide +kernel

end HintQuality
