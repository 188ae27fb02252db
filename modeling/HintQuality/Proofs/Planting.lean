import HintQuality.Proofs.Standing
/-!
# Planting trees

A tree that is planted in a grove stands there, at nodes that are new, and the nodes that were there stay as they are
(`Grove.plantsNew`). Slots are linked one after the other: a node with its first slots stands before the next one is
linked, and with it then (`Grove.Stands.link`).
-/

namespace HintQuality

namespace Tree

/-! ## One more slot -/

variable {l : Label} {s : List (Slot Tree)} {r : String} {c : Option Tree}

theorem slotsAt_nil_append : (node l (s ++ [⟨r, c⟩])).slotsAt [] =
    (node l s).slotsAt [] ++ [⟨r, c.map fun _ => [s.length]⟩] := by
  simp [slotsAt, subtree?, slots, List.zipIdx_append]

/-- Nodes below the other slots stay as they are. -/
theorem subtree?_append_of_lt {i : Nat} (hi : i < s.length) (p : Position) :
    (node l (s ++ [⟨r, c⟩])).subtree? (i :: p) = (node l s).subtree? (i :: p) := by
  simp [subtree?, slots, List.getElem?_append_left hi]

/-- Below the last slot is its child. -/
theorem subtree?_append_length : (node l (s ++ [⟨r, c⟩])).subtree? [s.length] = c := by
  cases c <;> simp [subtree?, slots]

/-- Nodes are the root, those below the other slots, and those below the last one. -/
theorem mem_positions_append {p : Position} (hp : p ∈ (node l (s ++ [⟨r, c⟩])).positions) :
    p = [] ∨ (∃ i q, p = i :: q ∧ i < s.length ∧ p ∈ (node l s).positions) ∨
      ∃ q u, p = s.length :: q ∧ c = some u ∧ q ∈ u.positions := by
  rw [mem_positions] at hp
  rcases p with _ | ⟨i, q⟩
  · exact .inl rfl
  · refine .inr ?_
    by_cases hi : i < s.length
    · rw [subtree?_append_of_lt hi] at hp
      exact .inl ⟨i, q, rfl, hi, mem_positions.2 hp⟩
    · obtain ⟨u, hu⟩ := Option.isSome_iff_exists.1 (Option.isSome_of_isSome_bind hp)
      obtain ⟨s', hs', -⟩ := Option.bind_eq_some_iff.1 hu
      have hlt : i < s.length + 1 := by simpa [slots] using (List.getElem?_eq_some_iff.1 hs').1
      obtain rfl : i = s.length := by omega
      have hchild := subtree?_append_length (l := l) (s := s) (r := r) (c := c)
      rw [subtree?, hu, Option.bind_some, subtree?] at hchild
      rw [subtree?, hu, Option.bind_some] at hp
      exact .inr ⟨q, u, rfl, hchild.symm, mem_positions.2 hp⟩

end Tree

namespace Grove

variable {g : Grove} {l : Label} {s : List (Slot Tree)} {r : String} {c : Option Tree} {name childName : Position → Nat}

/-- The names of the nodes when a slot is added to those at the root. -/
def slotName (n : Nat) (name childName : Position → Nat) : Position → Nat
  | [] => name []
  | i :: p => if i = n then childName p else name (i :: p)

theorem slotName_nil {n : Nat} : slotName n name childName [] = name [] :=
  rfl

theorem slotName_of_lt {n i : Nat} (hi : i < n) (p : Position) : slotName n name childName (i :: p) = name (i :: p) :=
  if_neg (Nat.ne_of_lt hi)

theorem slotName_self {n : Nat} (p : Position) : slotName n name childName (n :: p) = childName p :=
  if_pos rfl

/-- A node that stands with its first slots stands with the next one when that is linked. -/
theorem Stands.link (h : g.Stands (.node l s) name) (hc : ∀ u, c = some u → g.Stands u childName)
    (hapart : ∀ u, c = some u → ∀ p ∈ u.positions, ∀ q ∈ (Tree.node l s).positions, childName p ≠ name q) :
    (g.link (name []) r (c.map fun _ => childName [])).Stands (.node l (s ++ [⟨r, c⟩]))
      (slotName s.length name childName) := by
  have hroot := Tree.nil_mem_positions (.node l s)
  refine ⟨fun p hp q hq he => ?_, fun p hp => ?_⟩
  · have hold : ∀ p ∈ (Tree.node l (s ++ [⟨r, c⟩])).positions,
        (p ∈ (Tree.node l s).positions ∧ slotName s.length name childName p = name p) ∨
          ∃ q u, p = s.length :: q ∧ c = some u ∧ q ∈ u.positions := by
      intro p hp
      rcases Tree.mem_positions_append hp with rfl | ⟨i, q, rfl, hi, hq⟩ | hq
      · exact .inl ⟨hroot, rfl⟩
      · exact .inl ⟨hq, slotName_of_lt hi q⟩
      · exact .inr hq
    rcases hold p hp with ⟨hp, hnp⟩ | ⟨p, u, rfl, hu, hp⟩ <;> rcases hold q hq with ⟨hq, hnq⟩ | ⟨q, w, rfl, hw, hq⟩
    · exact h.injective p hp q hq (hnp.symm.trans (he.trans hnq))
    · rw [hnp, slotName_self] at he
      exact absurd he.symm (hapart w hw q hq p hp)
    · rw [hnq, slotName_self] at he
      exact absurd he (hapart u hu p hp q hq)
    · obtain rfl : u = w := Option.some.inj (hu.symm.trans hw)
      rw [slotName_self, slotName_self] at he
      rw [(hc u hu).injective p hp q hq he]
  · have hlink := maps_link g (name []) r (c.map fun _ => childName [])
    rw [plantAt_true]
    rcases Tree.mem_positions_append hp with rfl | ⟨i, q, rfl, hi, hq⟩ | ⟨q, u, rfl, hu, hq⟩
    · have hother : (c.map fun _ => childName []) ≠ some (name []) := by
        intro he
        obtain ⟨u, hu, he⟩ := Option.map_eq_some_iff.1 he
        exact hapart u hu [] u.nil_mem_positions [] hroot he
      have hnames : ((Tree.node l s).slotsAt []).map (Slot.map (slotName s.length name childName)) =
          ((Tree.node l s).slotsAt []).map (Slot.map name) := by
        refine Tree.map_slotsAt_congr fun d hd => ?_
        obtain ⟨i, rfl, hi⟩ := Tree.mem_children_slotsAt.1 hd
        obtain ⟨u, hu⟩ := Option.isSome_iff_exists.1 (Tree.mem_positions.1 hi)
        obtain ⟨s', hs', -⟩ := Option.bind_eq_some_iff.1 (Option.bind_eq_some_iff.1 hu).choose_spec.1
        exact slotName_of_lt (List.getElem?_eq_some_iff.1 hs').1 []
      rw [slotName_nil, hlink.eq_some (h.plant [] hroot), plantAt_true, if_pos rfl, if_neg hother,
        Tree.slotsAt_nil_append, List.map_append, hnames]
      simp [Slot.map, slotName_self, Tree.parentOf, Tree.labelAt, Tree.subtree?, Tree.label, Function.comp_def]
    · have hself : name (i :: q) ≠ name [] := fun he => absurd (h.injective _ hq _ hroot he) (List.cons_ne_nil i q)
      have hother : (c.map fun _ => childName []) ≠ some (name (i :: q)) := by
        intro he
        obtain ⟨u, hu, he⟩ := Option.map_eq_some_iff.1 he
        exact hapart u hu [] u.nil_mem_positions _ hq he
      have hsub := Tree.subtree?_append_of_lt (l := l) (r := r) (c := c) hi q
      have hslots : ((Tree.node l s).slotsAt (i :: q)).map (Slot.map name) =
          ((Tree.node l (s ++ [⟨r, c⟩])).slotsAt (i :: q)).map (Slot.map (slotName s.length name childName)) := by
        have hsame : (Tree.node l (s ++ [⟨r, c⟩])).slotsAt (i :: q) = (Tree.node l s).slotsAt (i :: q) := by
          rw [Tree.slotsAt, hsub, Tree.slotsAt]
        rw [hsame]
        refine Tree.map_slotsAt_congr fun d hd => ?_
        obtain ⟨j, rfl, -⟩ := Tree.mem_children_slotsAt.1 hd
        exact (slotName_of_lt hi _).symm
      have hparent : (Tree.parentOf (i :: q)).map name =
          (Tree.parentOf (i :: q)).map (slotName s.length name childName) := by
        cases q with
        | nil => rfl
        | cons j q => exact congrArg some (slotName_of_lt hi _).symm
      rw [slotName_of_lt hi, hlink.eq_some (h.plant _ hq), plantAt_true, if_neg hself, if_neg hother, hslots, hparent,
        Tree.labelAt, Tree.labelAt, hsub]
    · have hstands := hc u hu
      have hself : childName q ≠ name [] := hapart u hu q hq [] hroot
      have hchild : (Tree.node l (s ++ [⟨r, c⟩])).subtree? [s.length] = some u :=
        Tree.subtree?_append_length.trans hu
      have hslots : (u.slotsAt q).map (Slot.map childName) =
          ((Tree.node l (s ++ [⟨r, c⟩])).slotsAt (s.length :: q)).map
            (Slot.map (slotName s.length name childName)) := by
        rw [show s.length :: q = [s.length] ++ q from rfl, Tree.slotsAt_append hchild, List.map_map]
        refine List.map_congr_left fun s' _ => ?_
        simp [Slot.map, Function.comp_def, slotName_self]
      have hparent : (if (c.map fun _ => childName []) = some (childName q) then some (name [])
            else (Tree.parentOf q).map childName) =
          (Tree.parentOf (s.length :: q)).map (slotName s.length name childName) := by
        rw [hu, Option.map_some]
        cases q with
        | nil => rw [if_pos rfl]; rfl
        | cons j q =>
          have hne : childName [] ≠ childName (j :: q) := fun he =>
            absurd (hstands.injective _ u.nil_mem_positions _ hq he) (List.cons_ne_nil j q).symm
          rw [if_neg (mt Option.some.inj hne)]
          exact congrArg some (slotName_self _).symm
      rw [slotName_self, hlink.eq_some (hstands.plant _ hq), plantAt_true, if_neg hself, hslots, hparent,
        show s.length :: q = [s.length] ++ q from rfl, Tree.labelAt_append hchild]

/-! ## Whole trees -/

theorem plants_plant (g : Grove) (l : Label) : (g.plant l).1.plants = g.plants ++ [{ label := l }] :=
  rfl

/-- A node that is planted stands alone. -/
theorem stands_plant (g : Grove) (l : Label) : (g.plant l).1.Stands (.leaf l) fun _ => g.size := by
  have hroot : ∀ p ∈ (Tree.leaf l).positions, p = [] := by
    intro p hp
    exact List.mem_singleton.1 hp
  refine ⟨fun p hp q hq _ => (hroot p hp).trans (hroot q hq).symm, fun p hp => ?_⟩
  rw [hroot p hp, plants_plant, size, List.getElem?_concat_length]
  rfl

theorem keeps_plant (g : Grove) (l : Label) : g.Keeps (g.plant l).1 :=
  fun _ hn => List.getElem?_append_left hn

/-- Linking new nodes changes no other ones. -/
theorem Keeps.link {g g' : Grove} (h : g.Keeps g') {n : Nat} (hn : g.size ≤ n) (r : String) {c : Option Nat}
    (hc : ∀ m, c = some m → g.size ≤ m) : g.Keeps (g'.link n r c) := by
  intro m hm
  have hother : c ≠ some m := fun he => absurd (hc m he) (Nat.not_le.2 hm)
  have hne : m ≠ n := Nat.ne_of_lt (Nat.lt_of_lt_of_le hm hn)
  have hp : g.plants[m]? = some g.plants[m] := List.getElem?_eq_getElem hm
  rw [(maps_link g' n r c).eq_some ((h m hm).trans hp), if_neg hne, if_neg hother, hp]

/-- A slot is linked after its child was planted. -/
theorem StandsNew.link {g₀ g' : Grove} (h : g₀.StandsNew g (.node l s) name) (hkeeps : g.Keeps g')
    (hc : ∀ u, c = some u → g.StandsNew g' u childName) :
    g₀.StandsNew (g'.link (name []) r (c.map fun _ => childName [])) (.node l (s ++ [⟨r, c⟩]))
      (slotName s.length name childName) := by
  have hroot := h.new [] (Tree.nil_mem_positions _)
  have hnew : ∀ u, c = some u → ∀ p ∈ u.positions, g₀.size ≤ childName p := fun u hu p hp =>
    h.keeps.size_le.trans ((hc u hu).new p hp)
  have h' : g'.Stands (.node l s) name := h.stands.of_keeps hkeeps
  refine ⟨h'.link (fun u hu => (hc u hu).stands) fun u hu p hp q hq => ?_, fun p hp => ?_, ?_⟩
  · exact ((hc u hu).apart h.stands hq hp).symm
  · rcases Tree.mem_positions_append hp with rfl | ⟨i, q, rfl, hi, hq⟩ | ⟨q, u, rfl, hu, hq⟩
    · exact hroot
    · rw [slotName_of_lt hi]
      exact h.new _ hq
    · rw [slotName_self]
      exact hnew u hu q hq
  · refine (h.keeps.trans hkeeps).link hroot r fun m hm => ?_
    obtain ⟨u, hu, rfl⟩ := Option.map_eq_some_iff.1 hm
    exact hnew u hu [] u.nil_mem_positions

/-- A tree that is planted stands at new nodes, and nothing else changes. -/
def PlantsNew (t : Tree) : Prop :=
  ∀ g : Grove, ∃ name, (graft t g).2 = name [] ∧ g.StandsNew (graft t g).1 t name

/-- What is put into a slot is planted first. -/
theorem graftSlots_cons (hc : ∀ u, c = some u → PlantsNew u) (later : List (Slot Tree)) (n : Nat) (g : Grove) :
    ∃ g' childName, graftSlots (⟨r, c⟩ :: later) n g = graftSlots later n (g'.link n r (c.map fun _ => childName [])) ∧
      (∀ u, c = some u → g.StandsNew g' u childName) ∧ g.Keeps g' := by
  cases c with
  | none => exact ⟨g, fun _ => 0, rfl, nofun, fun _ _ => rfl⟩
  | some u =>
    obtain ⟨childName, hroot, hnew⟩ := hc u rfl g
    refine ⟨(graft u g).1, childName, ?_, ?_, hnew.keeps⟩
    · rw [Option.map_some, ← hroot]
      rfl
    · rintro w ⟨⟩
      exact hnew

/-- Slots are planted one after the other. -/
theorem standsNew_graftSlots {g₀ : Grove} (later : List (Slot Tree)) {earlier : List (Slot Tree)}
    (hlater : ∀ r u, ⟨r, some u⟩ ∈ later → PlantsNew u) (h : g₀.StandsNew g (.node l earlier) name) :
    ∃ name', name' [] = name [] ∧
      g₀.StandsNew (graftSlots later (name []) g) (.node l (earlier ++ later)) name' := by
  induction later generalizing earlier g name with
  | nil =>
    rw [List.append_nil]
    exact ⟨name, rfl, h⟩
  | cons slot later ih =>
    obtain ⟨r, c⟩ := slot
    obtain ⟨g', childName, hgraft, hchild, hkeeps⟩ := graftSlots_cons (r := r) (c := c)
      (fun u hu => hlater r u (by rw [hu]; exact List.mem_cons_self)) later (name []) g
    obtain ⟨name', hname', hrest⟩ := ih (fun r u hu => hlater r u (List.mem_cons_of_mem _ hu)) (h.link hkeeps hchild)
    rw [List.append_assoc, List.singleton_append] at hrest
    rw [hgraft]
    exact ⟨name', hname', hrest⟩

theorem plantsNew (t : Tree) : PlantsNew t := by
  induction t using Tree.induct with
  | h l s ih =>
    intro g
    have hleaf : g.StandsNew (g.plant l).1 (.leaf l) fun _ => g.size :=
      ⟨stands_plant g l, fun _ _ => Nat.le_refl _, keeps_plant g l⟩
    obtain ⟨name, hname, h⟩ := standsNew_graftSlots s ih hleaf
    exact ⟨name, hname.symm, h⟩

/-- Two trees that stand side by side, and their roots. -/
def side (start goal : Tree) : Grove × Nat × Nat :=
  let (g, n) := graft start {}
  let (g, m) := graft goal g
  (g, n, m)

/-- Trees that are planted side by side share no node. -/
theorem exists_stands_side (start goal : Tree) : ∃ g name' name, side start goal = (g, name' [], name []) ∧
    g.Stands start name' ∧ g.Stands goal name ∧ ∀ p ∈ start.positions, name' p ∉ goal.positions.map name := by
  obtain ⟨name', hroot', hstart⟩ := plantsNew start {}
  obtain ⟨name, hroot, hgoal⟩ := plantsNew goal (graft start {}).1
  refine ⟨_, name', name, by rw [side, ← hroot', ← hroot], hstart.stands.of_keeps hgoal.keeps, hgoal.stands,
    fun p hp hmem => ?_⟩
  obtain ⟨q, hq, he⟩ := List.mem_map.1 hmem
  exact hgoal.apart hstart.stands hp hq he.symm

end Grove

end HintQuality
