import HintQuality.Grove.Normalize
import HintQuality.Proofs.Position
/-!
# What changes in a grove

Every operation on a grove is told by what it makes of each node (`Grove.Maps`). Linking and adding change the slots of
one node and the parent of the child, taking out changes them back, and nothing else changes. All operations but the
planting of a node leave the nodes that there are.
-/

namespace HintQuality.Grove

variable {g g' : Grove}

/-- Each node of the second grove is told by what it was in the first one. -/
def Maps (g g' : Grove) (f : Nat → Plant → Plant) : Prop :=
  ∀ n, g'.plants[n]? = g.plants[n]?.map (f n)

theorem slots_of_plant {n : Nat} {p : Plant} (h : g.plants[n]? = some p) : p.slots = g.slots n := by
  rw [slots, h]
  rfl

namespace Maps

variable {f f' : Nat → Plant → Plant}

theorem trans {g'' : Grove} (h : g.Maps g' f) (h' : g'.Maps g'' f') : g.Maps g'' fun n p => f' n (f n p) := by
  intro n
  rw [h' n, h n, Option.map_map]
  rfl

theorem eq_some (h : g.Maps g' f) {n : Nat} {p : Plant} (hp : g.plants[n]? = some p) :
    g'.plants[n]? = some (f n p) := by
  rw [h n, hp, Option.map_some]

theorem slots (h : g.Maps g' f) {n : Nat} {p : Plant} (hp : g.plants[n]? = some p) :
    g'.slots n = (f n p).slots :=
  (slots_of_plant (h.eq_some hp)).symm

theorem lt_size (h : g.Maps g' f) {n : Nat} (hn : n < g.size) : n < g'.size :=
  (List.getElem?_eq_some_iff.1 (h.eq_some (List.getElem?_eq_getElem hn))).1

/-- What counts is what becomes of the nodes that there are. -/
theorem congr (h : g.Maps g' f) (hf : ∀ n p, g.plants[n]? = some p → f n p = f' n p) : g.Maps g' f' := by
  intro n
  rw [h n]
  exact Option.map_congr fun p hp => hf n p hp

end Maps

/-! ## Single changes -/

theorem maps_modify (g : Grove) (n : Nat) (f : Plant → Plant) :
    g.Maps (g.modify n f) fun m p => if m = n then f p else p := by
  intro m
  show (g.plants.modify n f)[m]? = _
  rw [List.getElem?_modify]
  have hnm : n = m ↔ m = n := eq_comm
  simp only [if_congr hnm rfl rfl]
  rfl

theorem maps_adopt (g : Grove) (parent c : Option Nat) :
    g.Maps (g.adopt parent c) fun m p => { p with parent := if c = some m then parent else p.parent } := by
  cases c with
  | none =>
    intro m
    show g.plants[m]? = _
    cases g.plants[m]? <;> rfl
  | some c =>
    refine (maps_modify g c fun p => { p with parent := parent }).congr fun m p _ => ?_
    by_cases hm : m = c
    · rw [if_pos hm, if_pos (congrArg some hm.symm)]
    · rw [if_neg hm, if_neg fun he => hm (Option.some.inj he).symm]

/-! ## Children in and out -/

/-- A slot is added at the end, and its child knows its parent. -/
theorem maps_link (g : Grove) (n : Nat) (r : String) (c : Option Nat) : g.Maps (g.link n r c) fun m p => { p with
    slots := if m = n then p.slots ++ [⟨r, c⟩] else p.slots
    parent := if c = some m then some n else p.parent } := by
  refine ((maps_modify g n fun p => { p with slots := p.slots ++ [⟨r, c⟩] }).trans
    (maps_adopt _ (some n) c)).congr fun m p _ => ?_
  by_cases hm : m = n <;> simp [hm]

/-- A slot is put in between, and its child knows its parent. -/
theorem maps_add {n : Nat} {c : Option Nat} {r : Option String} {i : Option Int} {s : List (Slot Nat)}
    (hs : Slots.insert (g.slots n) c r i = some s) : ∃ g', g.add n c r i = some g' ∧ g.Maps g' fun m p => { p with
      slots := if m = n then s else p.slots
      parent := if c = some m then some n else p.parent } := by
  refine ⟨_, by rw [add, hs]; rfl, ?_⟩
  refine ((maps_modify g n fun p => { p with slots := s }).trans (maps_adopt _ (some n) c)).congr fun m p _ => ?_
  by_cases hm : m = n <;> simp [hm]

theorem maps_foldl_adopt (parent : Option Nat) (s : List (Slot Nat)) : ∀ g : Grove,
    g.Maps (s.foldl (fun g c => g.adopt parent c.child) g) fun m p => { p with
      parent := if m ∈ Slots.children s then parent else p.parent } := by
  induction s with
  | nil =>
    intro g m
    rw [List.foldl_nil]
    cases g.plants[m]? <;> simp [Slots.children]
  | cons c s ih =>
    intro g
    refine ((maps_adopt g parent c.child).trans (ih _)).congr fun m p _ => ?_
    obtain ⟨r, c⟩ := c
    cases c with
    | none => simp [Slots.children]
    | some c =>
      by_cases hm : m = c
      · simp [Slots.children, hm]
      · have hcm : ¬c = m := fun e => hm e.symm
        simp [Slots.children, hm, hcm]

/-- All slots are taken out, and their children have no parents any more. -/
theorem maps_clear (g : Grove) (n : Nat) : g.Maps (g.clear n) fun m p => { p with
    slots := if m = n then [] else p.slots
    parent := if m ∈ Slots.children (g.slots n) then none else p.parent } := by
  refine ((maps_foldl_adopt none (g.slots n) g).trans (maps_modify _ n fun p => { p with slots := [] })).congr
    fun m p _ => ?_
  by_cases hm : m = n <;> simp [hm]

/-- A slot is taken out, and its child has no parent any more. -/
theorem maps_removeAt {n : Nat} {i : Int} {x : Slot Nat} {s : List (Slot Nat)}
    (hs : Slots.removeAt (g.slots n) i = some (x, s)) :
    ∃ g', g.remove n i = .ok (x.child, g') ∧ g.Maps g' fun m p => { p with
      slots := if m = n then s else p.slots
      parent := if x.child = some m then none else p.parent } := by
  refine ⟨_, by rw [remove, hs], ?_⟩
  refine ((maps_modify g n fun p => { p with slots := s }).trans (maps_adopt _ none x.child)).congr fun m p _ => ?_
  by_cases hm : m = n <;> simp [hm]

/-- The slot of a child is taken out of its parent. -/
theorem maps_remove {p n : Nat} {before after : List (Slot Nat)} {r : String}
    (hslots : g.slots p = before ++ ⟨r, some n⟩ :: after) :
    ∃ g', g.remove p before.length = .ok (some n, g') ∧ g.Maps g' fun m q => { q with
      slots := if m = p then before ++ after else q.slots
      parent := if m = n then none else q.parent } := by
  have hremove : Slots.removeAt (g.slots p) before.length = some (⟨r, some n⟩, before ++ after) := by
    have hpoint : Slots.removalPoint? (before ++ ⟨r, some n⟩ :: after).length before.length = some before.length := by
      have hlt : (before.length : Int) < (before ++ ⟨r, some n⟩ :: after).length := by
        rw [List.length_append, List.length_cons]
        omega
      rw [Slots.removalPoint?, if_pos (Int.natCast_nonneg _), if_pos hlt]
      rfl
    rw [hslots, Slots.removeAt, hpoint]
    simp [List.eraseIdx_append_of_length_le]
  obtain ⟨g', hg', hmaps⟩ := maps_removeAt hremove
  refine ⟨g', hg', hmaps.congr fun m q _ => ?_⟩
  have hmn : some n = some m ↔ m = n := by rw [Option.some_inj, eq_comm]
  rw [if_congr hmn rfl rfl]

/-- The place of a child that has one slot in its parent. -/
theorem slotIndex?_view {p n k : Nat} {before after : List (Slot Nat)} {r : String} (hparent : g.parent? n = some p)
    (hslots : g.slots p = before ++ ⟨r, some n⟩ :: after) (hbefore : n ∉ Slots.children before) :
    (g.view k).slotIndex? n = some before.length := by
  have hnone : before.findIdx? (fun s => decide (s.child = some n)) = none :=
    List.findIdx?_eq_none_iff.2 fun s hs => by
      simpa using fun e => hbefore (List.mem_filterMap.2 ⟨s, hs, e⟩)
  show (g.parent? n).bind (fun p => (g.slots p).findIdx? fun s => decide (s.child = some n)) = some before.length
  rw [hparent, Option.bind_some, hslots]
  simp [List.findIdx?_append, hnone, List.findIdx?_cons]

theorem place_eq {p n : Nat} {before after : List (Slot Nat)} {r : String} (hparent : g.parent? n = some p)
    (hslots : g.slots p = before ++ ⟨r, some n⟩ :: after) (hbefore : n ∉ Slots.children before) :
    g.place n = before.length := by
  rw [place, slotIndex?_view hparent hslots hbefore]
  rfl

theorem relation?_eq {p n : Nat} {before after : List (Slot Nat)} {r : String} (hparent : g.parent? n = some p)
    (hslots : g.slots p = before ++ ⟨r, some n⟩ :: after) (hbefore : n ∉ Slots.children before) :
    (g.view n).relation? n = some r := by
  have hindex : (g.view n).slotIndex? n = some before.length := slotIndex?_view hparent hslots hbefore
  show (g.parent? n).bind (fun p => ((g.view n).slotIndex? n).bind fun i => ((g.slots p)[i]?).bind fun s =>
    some s.relation) = some r
  rw [hparent, hindex, Option.bind_some, Option.bind_some, hslots]
  simp

/-! ## Labels and new nodes -/

theorem maps_relabel (g : Grove) (n : Nat) (f : Label → Label) :
    g.Maps (g.relabel n f) fun m p => { p with label := if m = n then f p.label else p.label } := by
  refine (maps_modify g n fun p => { p with label := f p.label }).congr fun m p _ => ?_
  by_cases hm : m = n <;> simp [hm]

end HintQuality.Grove
