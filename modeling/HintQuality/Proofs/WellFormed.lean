import HintQuality.Failure
import HintQuality.Proofs.Computations
import HintQuality.Proofs.Keys
/-!
# Well-formed trees

A tree is well formed if no node has an empty slot or two slots of one label. Trees that are read are well formed
(`wellFormed_of_parse`), and stay so when labels of nodes change (`WellFormed.mapLabels`). Without empty slots the
children of a node are numbered without gaps (`Full.getElem?_children`), and with distinct slot labels each node has
a way of its own from the root (`DistinctLabels.distinctPaths`).
-/

namespace HintQuality

namespace Tree

/-- No node has an empty slot. -/
def Full (t : Tree) : Prop :=
  ∀ u ∈ t.nodes, ∀ s ∈ u.slots, s.child.isSome

/-- No node has two slots of one label. -/
def DistinctLabels (t : Tree) : Prop :=
  ∀ u ∈ t.nodes, (Slots.relations u.slots).Nodup

instance (t : Tree) : Decidable t.Full :=
  inferInstanceAs (Decidable (∀ u ∈ t.nodes, ∀ s ∈ u.slots, s.child.isSome))

instance (t : Tree) : Decidable t.DistinctLabels :=
  inferInstanceAs (Decidable (∀ u ∈ t.nodes, (Slots.relations u.slots).Nodup))

/-- No empty slots and no two slots of one label. -/
structure WellFormed (t : Tree) : Prop where
  /-- No node has an empty slot. -/
  full : t.Full
  /-- No node has two slots of one label. -/
  distinctLabels : t.DistinctLabels

/-! ## Subtrees -/

mutual

/-- The nodes are what stands at the positions. -/
theorem mem_nodes_iff {u : Tree} : ∀ t : Tree, u ∈ t.nodes ↔ ∃ p, t.subtree? p = some u
  | node l s => by
    rw [nodes, List.mem_cons, mem_slotNodes_iff s]
    constructor
    · rintro (rfl | ⟨i, t, p, hi, hp⟩)
      · exact ⟨[], rfl⟩
      · exact ⟨i :: p, by simpa [subtree?, slots, hi] using hp⟩
    · rintro ⟨p, hp⟩
      cases p with
      | nil => exact .inl (Option.some.inj hp).symm
      | cons i p =>
        obtain ⟨t, hi, hp⟩ := Option.bind_eq_some_iff.1 hp
        exact .inr ⟨i, t, p, hi, hp⟩

theorem mem_slotNodes_iff {u : Tree} : ∀ s : List (Slot Tree), u ∈ slotNodes s ↔
    ∃ (i : Nat) (t : Tree) (p : Position), s[i]?.bind Slot.child = some t ∧ t.subtree? p = some u
  | [] => by simp [slotNodes]
  | ⟨_, none⟩ :: s => by
    rw [slotNodes, mem_slotNodes_iff s]
    constructor
    · rintro ⟨i, t, p, hi, hp⟩
      exact ⟨i + 1, t, p, by simpa using hi, hp⟩
    · rintro ⟨i, t, p, hi, hp⟩
      cases i with
      | zero => simp at hi
      | succ i => exact ⟨i, t, p, by simpa using hi, hp⟩
  | ⟨_, some t⟩ :: s => by
    rw [slotNodes, List.mem_append, mem_nodes_iff t, mem_slotNodes_iff s]
    constructor
    · rintro (⟨p, hp⟩ | ⟨i, t', p, hi, hp⟩)
      · exact ⟨0, t, p, by simp, hp⟩
      · exact ⟨i + 1, t', p, by simpa using hi, hp⟩
    · rintro ⟨i, t', p, hi, hp⟩
      cases i with
      | zero =>
        obtain rfl : t = t' := by simpa using hi
        exact .inl ⟨p, hp⟩
      | succ i => exact .inr ⟨i, t', p, by simpa using hi, hp⟩

end

theorem mem_nodes_of_subtree? {t u : Tree} {p : Position} (h : t.subtree? p = some u) : u ∈ t.nodes :=
  (mem_nodes_iff t).2 ⟨p, h⟩

/-- A property of all nodes is one of the root and of all nodes of the children. -/
theorem forall_nodes_iff {Q : Tree → Prop} {l : Label} {s : List (Slot Tree)} :
    (∀ u ∈ (node l s).nodes, Q u) ↔ Q (node l s) ∧ ∀ r t, ⟨r, some t⟩ ∈ s → ∀ u ∈ t.nodes, Q u := by
  constructor
  · intro h
    refine ⟨h _ (mem_nodes_of_subtree? (p := []) rfl), fun r t hm u hu => h u ?_⟩
    obtain ⟨i, hi⟩ := List.mem_iff_getElem?.1 hm
    obtain ⟨p, hp⟩ := (mem_nodes_iff t).1 hu
    exact mem_nodes_of_subtree? (p := i :: p) (by simpa [subtree?, slots, hi] using hp)
  · rintro ⟨hroot, hkids⟩ u hu
    obtain ⟨p, hp⟩ := (mem_nodes_iff _).1 hu
    cases p with
    | nil => rwa [← Option.some.inj hp]
    | cons i p =>
      obtain ⟨t, hi, hp⟩ := Option.bind_eq_some_iff.1 hp
      obtain ⟨⟨r, c⟩, hs, hc⟩ := Option.bind_eq_some_iff.1 hi
      obtain rfl : c = some t := hc
      exact hkids r t (List.mem_of_getElem? hs) u (mem_nodes_of_subtree? hp)

theorem WellFormed.node {l : Label} {s : List (Slot Tree)} (hfull : ∀ c ∈ s, ∃ t, c.child = some t ∧ t.WellFormed)
    (hlabels : (Slots.relations s).Nodup) : (Tree.node l s).WellFormed := by
  have hkid : ∀ {r t}, ⟨r, some t⟩ ∈ s → t.WellFormed := by
    intro r t hm
    obtain ⟨t', ht', hwf⟩ := hfull _ hm
    rwa [Option.some.inj ht']
  refine ⟨forall_nodes_iff.2 ⟨fun c hc => ?_, fun r t hm => (hkid hm).full⟩,
    forall_nodes_iff.2 ⟨hlabels, fun r t hm => (hkid hm).distinctLabels⟩⟩
  obtain ⟨t, ht, -⟩ := hfull c hc
  rw [ht, Option.isSome_some]

/-! ## Children and ways -/

theorem Full.subtree? {t u : Tree} {p : Position} (h : t.Full) (hu : t.subtree? p = some u) :
    ∀ c ∈ u.slots, c.child.isSome :=
  h u (mem_nodes_of_subtree? hu)

/-- Without empty slots, the children of a node are numbered without gaps. -/
theorem Full.getElem?_children {t : Tree} (h : t.Full) (p : Position) (i : Nat) :
    (t.view.children p)[i]? = (t.subtree? (p ++ [i])).map fun _ => p ++ [i] := by
  have hfull : ∀ c ∈ t.slotsAt p, c.child.isSome := by
    intro c hc
    obtain ⟨j, hj⟩ := List.mem_iff_getElem?.1 hc
    rw [slotsAt_getElem?] at hj
    obtain ⟨s, hs, rfl⟩ := Option.map_eq_some_iff.1 hj
    obtain ⟨u, hu, hs⟩ := Option.bind_eq_some_iff.1 hs
    rw [Option.isSome_map]
    exact h.subtree? hu s (List.mem_of_getElem? hs)
  rw [← slotsAt_child]
  exact getElem?_filterMap hfull i

/-- Slots of one label are the same. -/
theorem DistinctLabels.slot_unique {t : Tree} (h : t.DistinctLabels) {i j : Nat} {s s' : Slot Tree}
    (hi : t.slots[i]? = some s) (hj : t.slots[j]? = some s') (hr : s.relation = s'.relation) : i = j := by
  have hnd : (Slots.relations t.slots).Nodup := h t (mem_nodes_of_subtree? (p := []) rfl)
  have hri : (Slots.relations t.slots)[i]? = some s.relation := by
    rw [Slots.relations, List.getElem?_map, hi]
    rfl
  have hrj : (Slots.relations t.slots)[j]? = some s.relation := by
    rw [Slots.relations, List.getElem?_map, hj, hr]
    rfl
  exact (List.getElem?_inj (List.getElem?_eq_some_iff.1 hri).1 hnd).1 (hri.trans hrj.symm)

theorem DistinctLabels.relations_slotsAt {t : Tree} (h : t.DistinctLabels) (p : Position) :
    (Slots.relations (t.slotsAt p)).Nodup := by
  rw [Slots.relations, slotsAt, List.map_map]
  cases hu : t.subtree? p with
  | none => exact List.nodup_nil
  | some u =>
    have hnodup := h u (mem_nodes_of_subtree? hu)
    rw [Slots.relations, ← List.zipIdx_map_fst 0 u.slots, List.map_map] at hnodup
    exact hnodup

theorem DistinctLabels.child {t u : Tree} (h : t.DistinctLabels) {i : Nat} {r : String}
    (hi : t.slots[i]? = some ⟨r, some u⟩) : u.DistinctLabels := by
  intro w hw
  obtain ⟨p, hp⟩ := (mem_nodes_iff u).1 hw
  exact h w (mem_nodes_of_subtree? (p := i :: p) (by simpa [Tree.subtree?, hi] using hp))

/-- The way to a node below the root starts with the label of a slot. -/
theorem pathLabels_cons {t : Tree} {i : Nat} {p : Position} (h : (t.subtree? (i :: p)).isSome) :
    ∃ r u, t.slots[i]? = some ⟨r, some u⟩ ∧ t.pathLabels (i :: p) = r :: u.pathLabels p ∧ (u.subtree? p).isSome := by
  obtain ⟨v, hv⟩ := Option.isSome_iff_exists.1 h
  obtain ⟨u, hu, hv⟩ := Option.bind_eq_some_iff.1 hv
  obtain ⟨⟨r, c⟩, hs, hc⟩ := Option.bind_eq_some_iff.1 hu
  obtain rfl : c = some u := hc
  exact ⟨r, u, hs, by simp only [pathLabels, hs], by rw [hv]; rfl⟩

/-- With distinct slot labels, no two nodes are reached by the same labels. -/
theorem pathLabels_injective {t : Tree} (h : t.DistinctLabels) : ∀ {p q : Position}, (t.subtree? p).isSome →
    (t.subtree? q).isSome → t.pathLabels p = t.pathLabels q → p = q := by
  intro p
  induction p generalizing t with
  | nil =>
    intro q _ hq he
    cases q with
    | nil => rfl
    | cons j q =>
      obtain ⟨r, u, -, hl, -⟩ := pathLabels_cons hq
      rw [hl] at he
      cases he
  | cons i p ih =>
    intro q hp hq he
    obtain ⟨r, u, hi, hl, hp⟩ := pathLabels_cons hp
    cases q with
    | nil =>
      rw [hl] at he
      cases he
    | cons j q =>
      obtain ⟨r', u', hj, hl', hq⟩ := pathLabels_cons hq
      rw [hl, hl'] at he
      obtain ⟨hr, htail⟩ := List.cons.inj he
      obtain rfl := h.slot_unique hi hj hr
      obtain ⟨-, hu⟩ := Slot.mk.inj (Option.some.inj (hi.symm.trans hj))
      obtain rfl := Option.some.inj hu
      rw [ih (h.child hi) hp hq htail]

theorem DistinctLabels.distinctPaths {t : Tree} (h : t.DistinctLabels) : t.view.DistinctPaths := by
  intro p hp q hq he
  rw [view_nodes, mem_positions] at hp hq
  exact pathLabels_injective h hp hq he

/-! ## Where well-formed trees come from -/

/-- Changing labels of nodes keeps a tree well formed. -/
theorem WellFormed.mapLabels {t : Tree} (h : t.WellFormed) (f : Position → Label → Label) :
    (t.mapLabels f).WellFormed := by
  have hslots : ∀ u ∈ (t.mapLabels f).nodes, ∃ u' ∈ t.nodes, Slots.relations u.slots = Slots.relations u'.slots ∧
      (u.slots.map fun c => c.child.isSome) = u'.slots.map fun c => c.child.isSome := by
    intro u hu
    obtain ⟨p, hp⟩ := (mem_nodes_iff _).1 hu
    rw [subtree?_mapLabels] at hp
    obtain ⟨⟨l, s⟩, hu', rfl⟩ := Option.map_eq_some_iff.1 hp
    refine ⟨_, mem_nodes_of_subtree? hu', ?_, ?_⟩
    · refine List.ext_getElem? fun i => ?_
      simp [Slots.relations, mapLabelsFrom, slots, mapSlotLabels_getElem?, Function.comp_def]
    · refine List.ext_getElem? fun i => ?_
      simp [mapLabelsFrom, slots, mapSlotLabels_getElem?, Function.comp_def]
  refine ⟨fun u hu c hc => ?_, fun u hu => ?_⟩
  · obtain ⟨u', hu', -, hs⟩ := hslots u hu
    have hmem : c.child.isSome ∈ u'.slots.map fun c => c.child.isSome := hs ▸ List.mem_map_of_mem hc
    obtain ⟨c', hc', he⟩ := List.mem_map.1 hmem
    rw [← he]
    exact h.full u' hu' c' hc'
  · obtain ⟨u', hu', hr, -⟩ := hslots u hu
    rw [hr]
    exact h.distinctLabels u' hu'

/-- Inserting a well-formed child keeps the children well formed. -/
theorem forall_slots_insert {s s' : List (Slot Tree)} {t : Tree} {relation : Option String} {index : Option Int}
    (h : Slots.insert s (some t) relation index = some s') (ht : t.WellFormed)
    (hs : ∀ c ∈ s, ∃ t, c.child = some t ∧ t.WellFormed) : ∀ c ∈ s', ∃ t, c.child = some t ∧ t.WellFormed := by
  intro c hc
  simp only [Slots.insert] at h
  split at h
  · cases h
  · obtain rfl := Option.some.inj h
    rcases List.mem_append.1 hc with hc | hc
    · exact hs c (List.mem_of_mem_take hc)
    · rcases List.mem_cons.1 hc with rfl | hc
      · exact ⟨t, rfl, ht⟩
      · exact hs c (List.mem_of_mem_drop hc)

/-- Slots that are filled from well-formed candidates hold well-formed trees, under distinct labels. -/
theorem wellFormed_of_fillSlots {children : Json} {candidates : Candidates}
    (hcand : ∀ r t, (r, .ok t) ∈ candidates → t.WellFormed) {order : List Json} : ∀ {s s' : List (Slot Tree)},
    fillSlots children candidates s order = .ok s' → (∀ c ∈ s, ∃ t, c.child = some t ∧ t.WellFormed) →
      (Slots.relations s).Nodup → (∀ c ∈ s', ∃ t, c.child = some t ∧ t.WellFormed) ∧ (Slots.relations s').Nodup := by
  induction order with
  | nil =>
    intro s s' h hs hnd
    obtain rfl := Except.ok.inj h
    exact ⟨hs, hnd⟩
  | cons v order ih =>
    intro s s' h hs hnd
    obtain ⟨r, -, h⟩ := bind_eq_ok_iff.1 h
    cases hp : pick children candidates r with
    | error e => rw [hp] at h; cases h
    | ok t =>
      rw [hp] at h
      have ht : t.WellFormed := by
        unfold pick at hp
        split at hp
        · cases hl : candidates.lookup r with
          | none => rw [hl] at hp; cases hp
          | some x =>
            rw [hl, Option.getD_some] at hp
            exact hcand r t (hp ▸ Pairing.mem_of_partner? hl)
        · cases hp
      have hins : (∀ c ∈ (Slots.insert s (some t) (some r)).getD s, ∃ t, c.child = some t ∧ t.WellFormed) ∧
          (Slots.relations ((Slots.insert s (some t) (some r)).getD s)).Nodup := by
        cases hi : Slots.insert s (some t) (some r) with
        | none => exact ⟨hs, hnd⟩
        | some s'' => exact ⟨forall_slots_insert hi ht hs, Slots.nodup_insert hi hnd⟩
      exact ih h hins.1 hins.2

theorem wellFormed_leaf (l : Label) : (leaf l).WellFormed :=
  .node (by simp) (by simp [Slots.relations])

theorem wellFormed_of_assemble {fields : Json.Fields} {candidates : Candidates}
    (hcand : ∀ r t, (r, .ok t) ∈ candidates → t.WellFormed) {t : Tree} (h : assemble fields candidates = .ok t) :
    t.WellFormed := by
  unfold assemble at h
  cases hl : readLabel fields with
  | error e => rw [hl] at h; cases h
  | ok l =>
    rw [hl] at h
    simp only [bind, Except.bind] at h
    split at h
    · obtain rfl := Except.ok.inj h
      exact wellFormed_leaf l
    · split at h
      · obtain rfl := Except.ok.inj h
        exact wellFormed_leaf l
      · split at h
        · cases h
        · split at h
          · cases h
          · rename_i s hs
            obtain rfl := Except.ok.inj h
            obtain ⟨hkids, hnd⟩ := wellFormed_of_fillSlots hcand hs (by simp) (by simp [Slots.relations])
            exact .node hkids hnd

mutual

theorem wellFormed_of_ofJson : ∀ (v : Json) {t : Tree}, ofJson v = .ok t → t.WellFormed
  | .obj fields, t, h => by
    unfold ofJson at h
    exact wellFormed_of_assemble (wellFormed_of_candidates fields) h
  | .null, t, h | .bool _, t, h | .int _, t, h | .float _, t, h | .str _, t, h | .arr _, t, h => by
    unfold ofJson at h
    cases h

theorem wellFormed_of_candidates : ∀ (fields : List (String × Json)) (r : String) (t : Tree),
    (r, .ok t) ∈ candidates fields → t.WellFormed
  | [], r, t, h => by
    unfold candidates at h
    cases h
  | (name, v) :: fields, r, t, h => by
    unfold candidates at h
    split at h
    · exact wellFormed_of_entryCandidates v r t h
    · exact wellFormed_of_candidates fields r t h

theorem wellFormed_of_entryCandidates : ∀ (v : Json) (r : String) (t : Tree),
    (r, .ok t) ∈ entryCandidates v → t.WellFormed
  | .obj entries, r, t, h => wellFormed_of_listCandidates entries r t h
  | .null, r, t, h | .bool _, r, t, h | .int _, r, t, h | .float _, r, t, h | .str _, r, t, h | .arr _, r, t, h => by
    unfold entryCandidates at h
    cases h

theorem wellFormed_of_listCandidates : ∀ (entries : List (String × Json)) (r : String) (t : Tree),
    (r, .ok t) ∈ listCandidates entries → t.WellFormed
  | [], r, t, h => by
    unfold listCandidates at h
    cases h
  | (name, .null) :: entries, r, t, h => by
    unfold listCandidates at h
    rcases List.mem_cons.1 h with h | h
    · rw [Except.ok.inj (Prod.mk.inj h).2]
      exact wellFormed_leaf _
    · exact wellFormed_of_listCandidates entries r t h
  | (name, .obj fields) :: entries, r, t, h => by
    unfold listCandidates at h
    rcases List.mem_cons.1 h with h | h
    · exact wellFormed_of_ofJson (.obj fields) (Prod.mk.inj h).2.symm
    · exact wellFormed_of_listCandidates entries r t h
  | (name, .bool _) :: entries, r, t, h | (name, .int _) :: entries, r, t, h
  | (name, .float _) :: entries, r, t, h | (name, .str _) :: entries, r, t, h
  | (name, .arr _) :: entries, r, t, h => by
    unfold listCandidates at h
    rcases List.mem_cons.1 h with h | h
    · have := (Prod.mk.inj h).2
      unfold ofJson at this
      cases this
    · exact wellFormed_of_listCandidates entries r t h

end

/-- Trees that are read are well formed. -/
theorem wellFormed_of_parse {source : Json} {t : Tree} (h : parse source = .ok t) : t.WellFormed := by
  have hobj : ∀ {fields : Json.Fields}, (ofJson (.obj fields)).mapError
      (fun f => Failure.unreadable (.malformed f) source) = .ok t → t.WellFormed := by
    intro fields h
    cases ho : ofJson (.obj fields) with
    | error f => rw [ho] at h; cases h
    | ok u =>
      rw [ho] at h
      obtain rfl := Except.ok.inj h
      exact wellFormed_of_ofJson _ ho
  unfold parse at h
  split at h
  · rename_i text
    cases hp : (Json.parse text).mapError
        (Failure.ofReadError fun e => Failure.unreadableTree (.notJson e) (.str text)) with
    | error e => rw [hp] at h; cases h
    | ok v =>
      rw [hp] at h
      simp only [bind, Except.bind] at h
      split at h
      · exact hobj h
      · cases h
  · simp only [bind, Except.bind] at h
    split at h
    · exact hobj h
    · cases h

end Tree

end HintQuality
