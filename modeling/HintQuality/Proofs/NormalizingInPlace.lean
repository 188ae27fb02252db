import HintQuality.Grove.Normalize
import HintQuality.Proofs.NormalValues
import HintQuality.Proofs.Planting
import HintQuality.Proofs.WellFormed
/-!
# Normalizing in place

Normalizing a tree of a grove gives a copy that is the normalized tree, and touches no node that was there
(`Grove.Stands.normalizeValues`). A node that loses its value is replaced by a new one, which goes by the name of the
old one from then on: after each turn the tree stands there with one more label changed
(`Grove.StandsNew.of_replaces`, `Grove.StandsNew.foldlM_forgetValue`). What normal values are is put together in
`normalizeValues_exact`.
-/

namespace HintQuality

namespace Tree

variable {t : Tree} {f f' : Position → Label → Label} {done : List Position} {p : Position}

/-! ## Relabelling node by node -/

/-- What counts is what becomes of the labels that there are. -/
theorem mapLabels_congr (h : ∀ p ∈ t.positions, f p (t.labelAt p) = f' p (t.labelAt p)) :
    t.mapLabels f = t.mapLabels f' := by
  refine ext_of_slotsAt (fun p _ => by rw [slotsAt_mapLabels, slotsAt_mapLabels]) fun p hp => ?_
  rw [positions_mapLabels] at hp
  rw [labelAt_mapLabels f hp, labelAt_mapLabels f' hp, h p hp]

/-- The tree with some labels changed. -/
def mapLabelsOn (done : List Position) (f : Position → Label → Label) (t : Tree) : Tree :=
  t.mapLabels fun p l => if p ∈ done then f p l else l

theorem mapLabelsOn_nil : t.mapLabelsOn [] f = t :=
  mapLabels_eq_self fun _ _ => rfl

theorem mapLabelsOn_of_subset (h : t.positions ⊆ done) : t.mapLabelsOn done f = t.mapLabels f :=
  mapLabels_congr fun _ hp => if_pos (h hp)

theorem mapLabelsOn_cons (hp : p ∉ done) :
    (t.mapLabelsOn done f).mapLabelsOn [p] f = t.mapLabelsOn (p :: done) f := by
  rw [mapLabelsOn, mapLabelsOn, mapLabels_mapLabels, mapLabelsOn]
  refine mapLabels_congr fun q _ => ?_
  by_cases hq : q = p
  · simp [hq, hp]
  · simp [hq]

theorem mapLabelsOn_singleton_eq_self (h : f p (t.labelAt p) = t.labelAt p) : t.mapLabelsOn [p] f = t := by
  refine mapLabels_eq_self fun q _ => ?_
  by_cases hq : q = p
  · simp [hq, h]
  · simp [hq]

theorem labelAt_mapLabelsOn {q : Position} (hq : q ∈ t.positions) :
    (t.mapLabelsOn done f).labelAt q = if q ∈ done then f q (t.labelAt q) else t.labelAt q :=
  labelAt_mapLabels _ hq

@[simp] theorem positions_mapLabelsOn : (t.mapLabelsOn done f).positions = t.positions :=
  positions_mapLabels _ t

@[simp] theorem slotsAt_mapLabelsOn : (t.mapLabelsOn done f).slotsAt p = t.slotsAt p :=
  slotsAt_mapLabels _ t p

end Tree

namespace Grove

open HintQuality.Tree

variable {g : Grove} {t : Tree} {name : Position → Nat}

/-! ## Replacing a node -/

/-- A slot under a label that is not taken is put in between. -/
theorem insert_between {before after : List (Slot Nat)} {c : Option Nat} {r : String}
    (hr : r ∉ Slots.relations (before ++ after)) :
    Slots.insert (before ++ after) c (some r) (some before.length) = some (before ++ ⟨r, c⟩ :: after) := by
  have hpoint : Slots.insertionPoint (before ++ after).length before.length = before.length := by
    rw [Slots.insertionPoint, if_neg (by omega), List.length_append]
    simp
  simp only [Slots.insert, Option.getD_some, hpoint]
  rw [if_neg hr, List.take_left, List.drop_left]

/-- Without a place it is added at the end. -/
theorem insert_end {s : List (Slot Nat)} {c : Option Nat} {r : String} (hr : r ∉ Slots.relations s) :
    Slots.insert s c (some r) = some (s ++ [⟨r, c⟩]) := by
  have hinsert := @insert_between s [] c r (by rwa [List.append_nil])
  rw [List.append_nil] at hinsert
  exact hinsert

theorem maps_foldl_add {n : Nat} (s : List (Slot Nat)) : ∀ {g : Grove}, n < g.size →
    (Slots.relations (g.slots n ++ s)).Nodup →
      g.Maps (s.foldl (fun g c => (g.add n c.child (some c.relation)).getD g) g) fun m p => { p with
        slots := if m = n then p.slots ++ s else p.slots
        parent := if m ∈ Slots.children s then some n else p.parent } := by
  induction s with
  | nil =>
    intro g _ _ m
    rw [List.foldl_nil]
    cases g.plants[m]? <;> simp [Slots.children]
  | cons c s ih =>
    intro g hn hd
    obtain ⟨r, c⟩ := c
    have hr : r ∉ Slots.relations (g.slots n) := by
      intro hmem
      rw [Slots.relations, List.map_append] at hd
      exact List.disjoint_of_nodup_append hd hmem List.mem_cons_self
    obtain ⟨g', hg', hadd⟩ := maps_add (insert_end (c := c) hr)
    have hslots : g'.slots n = g.slots n ++ [⟨r, c⟩] := by
      rw [hadd.slots (List.getElem?_eq_getElem hn), if_pos rfl]
    have hd' : (Slots.relations (g'.slots n ++ s)).Nodup := by
      rwa [hslots, List.append_assoc, List.singleton_append]
    rw [List.foldl_cons, hg', Option.getD_some]
    have hmem : ∀ m, m ∈ Slots.children (⟨r, c⟩ :: s) ↔ c = some m ∨ m ∈ Slots.children s := by
      intro m
      cases c <;> simp [Slots.children, eq_comm]
    refine (hadd.trans (ih (hadd.lt_size hn) hd')).congr fun m p hp => ?_
    have hparent : (if m ∈ Slots.children s then some n else if c = some m then some n else p.parent) =
        if m ∈ Slots.children (⟨r, c⟩ :: s) then some n else p.parent := by
      rw [if_congr (hmem m) rfl rfl]
      by_cases hc : c = some m
      · rw [if_pos (Or.inl hc), if_pos hc, ite_self]
      · rw [if_neg hc, if_congr (or_iff_right hc) rfl rfl]
    by_cases hm : m = n
    · subst hm
      simp [slots_of_plant hp, hparent]
    · simp [hm, hparent]

/-- All children of a node go to one that has none. -/
theorem maps_moveChildren {n m : Nat} (hnm : n ≠ m) (hm : m < g.size) (hnone : g.slots m = [])
    (hd : (Slots.relations (g.slots n)).Nodup) : g.Maps (g.moveChildren n m) fun k p => { p with
      slots := if k = m then g.slots n else if k = n then [] else p.slots
      parent := if k ∈ Slots.children (g.slots n) then some m else p.parent } := by
  have hclear := maps_clear g n
  have hslots : (g.clear n).slots m = [] := by
    have hp : g.plants[m]? = some g.plants[m] := List.getElem?_eq_getElem hm
    rw [hclear.slots hp, if_neg hnm.symm, slots_of_plant hp, hnone]
  refine (hclear.trans (maps_foldl_add (g.slots n) (hclear.lt_size hm) (by rwa [hslots]))).congr fun k p hp => ?_
  by_cases hk : k = m
  · subst hk
    have hp' : p.slots = [] := (slots_of_plant hp).trans hnone
    by_cases hc : k ∈ Slots.children (g.slots n) <;> simp [hp', hnm.symm, hc]
  · by_cases hc : k ∈ Slots.children (g.slots n) <;> simp [hk, hc]

/-- A child is taken out and another one put into its slot. -/
theorem exists_exchange {p n : Nat} (m : Nat) {before after : List (Slot Nat)} {r : String} (hp : p < g.size)
    (hslots : g.slots p = before ++ ⟨r, some n⟩ :: after) (hd : (Slots.relations (g.slots p)).Nodup) :
    ∃ g₁ g₂, g.remove p before.length = .ok (some n, g₁) ∧
      g₁.add p (some m) (some r) (some before.length) = some g₂ ∧ g.Maps g₂ fun k q => { q with
        slots := if k = p then before ++ ⟨r, some m⟩ :: after else q.slots
        parent := if k = m then some p else if k = n then none else q.parent } := by
  obtain ⟨g₁, hg₁, hremove⟩ := maps_remove hslots
  have hslots₁ : g₁.slots p = before ++ after := by
    rw [hremove.slots (List.getElem?_eq_getElem hp), if_pos rfl]
  -- the label is free again
  have hr : r ∉ Slots.relations (before ++ after) := by
    rw [hslots, Slots.relations, List.map_append, List.map_cons] at hd
    have hd' := List.nodup_middle.1 hd
    rw [List.nodup_cons, ← List.map_append] at hd'
    exact hd'.1
  obtain ⟨g₂, hg₂, hadd⟩ := maps_add (hslots₁ ▸ insert_between hr)
  refine ⟨g₁, g₂, hg₁, hg₂, (hremove.trans hadd).congr fun k q _ => ?_⟩
  have hmk : some m = some k ↔ k = m := by rw [Option.some_inj, eq_comm]
  rw [if_congr hmk rfl rfl]
  by_cases hk : k = p <;> simp [hk]

/-- A child of `p` is replaced by a new node without its value, which takes over its children; then `p` has the slots
that are given. -/
structure Replaces (g g' : Grove) (p n : Nat) (slots : List (Slot Nat)) : Prop where
  /-- The new node. -/
  new : g'.plants[g.size]? = some ⟨{ g.label n with value := none }, g.slots n, some p⟩
  /-- The nodes that were there. -/
  old : ∀ m < g.size, g'.plants[m]? = g.plants[m]?.map fun q => { q with
    slots := if m = p then slots else if m = n then [] else q.slots
    parent := if m ∈ Slots.children (g.slots n) then some g.size else if m = n then none else q.parent }

/-- A node is replaced by a new one in its place. -/
theorem exists_replaces {p n : Nat} {before after : List (Slot Nat)} {r : String} (hparent : g.parent? n = some p)
    (hslots : g.slots p = before ++ ⟨r, some n⟩ :: after) (hbefore : n ∉ Slots.children before) (hpn : p ≠ n)
    (hp : p < g.size) (hn : n < g.size) (hnew : g.size ∉ Slots.children (g.slots n))
    (hdp : (Slots.relations (g.slots p)).Nodup) (hdn : (Slots.relations (g.slots n)).Nodup) :
    ∃ g', g.replace p n = .ok g' ∧ g.Replaces g' p n (before ++ ⟨r, some g.size⟩ :: after) := by
  let l : Label := { g.label n with value := none }
  have hkeeps := keeps_plant g l
  have hthere : (g.plant l).1.plants[g.size]? = some ⟨l, [], none⟩ := List.getElem?_concat_length
  have hparent₀ : (g.plant l).1.parent? n = some p := (hkeeps.parent hn).trans hparent
  have hslots₀ : (g.plant l).1.slots p = before ++ ⟨r, some n⟩ :: after := (hkeeps.slots hp).trans hslots
  obtain ⟨g₁, g₂, hg₁, hg₂, hchange⟩ := exists_exchange g.size (Nat.lt_of_lt_of_le hp hkeeps.size_le) hslots₀
    (by rwa [hkeeps.slots hp])
  -- the children go along
  have hn₂ : g₂.slots n = g.slots n := by
    have hn₀ : (g.plant l).1.plants[n]? = some g.plants[n] := (hkeeps n hn).trans (List.getElem?_eq_getElem hn)
    rw [hchange.slots hn₀, if_neg hpn.symm, slots_of_plant (List.getElem?_eq_getElem hn)]
  have hnone : g₂.slots g.size = [] := by
    rw [hchange.slots hthere, if_neg (Nat.ne_of_gt hp)]
  have hsize : g.size < g₂.size := hchange.lt_size (List.getElem?_eq_some_iff.1 hthere).1
  have hmove := hchange.trans (maps_moveChildren (Nat.ne_of_lt hn) hsize hnone (hn₂ ▸ hdn))
  have hreplace : g.replace p n = .ok (g₂.moveChildren n g.size) := by
    have hplace : (g.plant l).1.place n = before.length := place_eq hparent₀ hslots₀ hbefore
    have hrelation : ((g.plant l).1.view n).relation? n = some r := relation?_eq hparent₀ hslots₀ hbefore
    have hrun : g.replace p n = ((g.plant l).1.remove p ((g.plant l).1.place n)).bind fun q =>
      .ok (((q.2.add p (some g.size) (((g.plant l).1.view n).relation? n) (some ((g.plant l).1.place n))).getD
        q.2).moveChildren n g.size) := rfl
    rw [hrun, hplace, hrelation, hg₁]
    show Except.ok _ = _
    rw [hg₂, Option.getD_some]
  refine ⟨_, hreplace, ?_, fun m hm => ?_⟩
  · rw [hmove.eq_some hthere, hn₂, if_pos rfl, if_neg hnew, if_pos rfl]
  · rw [hmove m, hkeeps m hm]
    refine Option.map_congr fun q _ => ?_
    have hne : m ≠ g.size := Nat.ne_of_lt hm
    by_cases hmp : m = p
    · subst hmp
      simp [hn₂, hne, hpn]
    · simp [hn₂, hne, hmp]

/-! ## Trees whose nodes are replaced -/

section Rename

variable {n : Nat} {p : Position}

/-- Slots where a node does not stand do not know of its new name. -/
theorem map_slots_update {s : List (Slot Position)} (hp : p ∉ Slots.children s) :
    s.map (Slot.map (Function.update name p n)) = s.map (Slot.map name) := by
  refine List.map_congr_left fun c hc => ?_
  have hne : ∀ d, c.child = some d → d ≠ p := by
    rintro d hd rfl
    exact hp (List.mem_filterMap.2 ⟨c, hc, hd⟩)
  exact congrArg (Slot.mk c.relation) (Option.map_congr fun d hd => Function.update_of_ne (hne d hd) n name)

/-- Nor do other parents. -/
theorem map_slotsAt_update {q x : Position} {i : Nat} (hx : x ≠ q) :
    (t.slotsAt x).map (Slot.map (Function.update name (q ++ [i]) n)) = (t.slotsAt x).map (Slot.map name) := by
  refine map_slots_update fun hc => ?_
  obtain ⟨j, he, -⟩ := mem_children_slotsAt.1 hc
  exact hx (List.append_inj' he rfl).1.symm

/-- Nor do nodes that are not its children. -/
theorem map_parentOf_update {x : Position} (hx : parentOf x ≠ some p) :
    (parentOf x).map (Function.update name p n) = (parentOf x).map name := by
  refine Option.map_congr fun y hy => Function.update_of_ne ?_ n name
  rintro rfl
  exact hx hy

end Rename

namespace Stands

variable {q : Position} {i : Nat} (h : g.Stands t name) (hp : q ++ [i] ∈ t.positions)
include h hp

/-- The nodes below the root can be replaced. -/
theorem exists_replaces (hd : ∀ p, (Slots.relations (t.slotsAt p)).Nodup) :
    ∃ g', g.replace (name q) (name (q ++ [i])) = .ok g' ∧ g.Replaces g' (name q) (name (q ++ [i]))
      ((t.slotsAt q).map (Slot.map (Function.update name (q ++ [i]) g.size))) := by
  have hq := mem_positions_of_snoc hp
  have hqp : name q ≠ name (q ++ [i]) := fun he => absurd (h.injective q hq _ hp he) (by simp)
  obtain ⟨before, after, r, hsplit, hbefore, hafter, hname, -⟩ := h.exists_slot hp rfl
  rw [filter_isLeft_true] at hsplit
  have hslots : g.slots (name q) =
      before.map (Slot.map name) ++ ⟨r, some (name (q ++ [i]))⟩ :: after.map (Slot.map name) := by
    rw [h.slots hq, hsplit, List.map_append, List.map_cons]
    rfl
  have hslots' : (t.slotsAt q).map (Slot.map (Function.update name (q ++ [i]) g.size)) =
      before.map (Slot.map name) ++ ⟨r, some g.size⟩ :: after.map (Slot.map name) := by
    rw [hsplit, List.map_append, List.map_cons, map_slots_update hbefore, map_slots_update hafter]
    simp [Slot.map]
  have hrelations : ∀ {p}, p ∈ t.positions → (Slots.relations (g.slots (name p))).Nodup := by
    intro p hp
    rw [h.slots hp, Slots.relations, List.map_map]
    exact hd p
  have hnew : g.size ∉ Slots.children (g.slots (name (q ++ [i]))) := by
    intro hmem
    obtain ⟨c, hc, he⟩ := h.exists_child hp hmem
    exact absurd he (h.lt_size (mem_children_slotsAt.1 hc).choose_spec.2).ne
  rw [hslots']
  exact Grove.exists_replaces (h.parent_snoc hp rfl) hslots hname hqp (h.lt_size hq) (h.lt_size hp) hnew
    (hrelations hq) (hrelations hp)

variable {g' : Grove} (hr : g.Replaces g' (name q) (name (q ++ [i]))
  ((t.slotsAt q).map (Slot.map (Function.update name (q ++ [i]) g.size))))
include hr

/-- A tree stands with the new node in the place of the old one. -/
theorem of_replaces {f : Position → Label → Label}
    (hf : f (q ++ [i]) (t.labelAt (q ++ [i])) = { t.labelAt (q ++ [i]) with value := none }) :
    g'.Stands (t.mapLabelsOn [q ++ [i]] f) (Function.update name (q ++ [i]) g.size) := by
  have hq := mem_positions_of_snoc hp
  have hqp : q ≠ q ++ [i] := by simp
  have hself : Function.update name (q ++ [i]) g.size (q ++ [i]) = g.size := Function.update_self _ _ _
  have hother : ∀ {x}, x ≠ q ++ [i] → Function.update name (q ++ [i]) g.size x = name x := fun hx =>
    Function.update_of_ne hx _ _
  refine ⟨fun x hx y hy he => ?_, fun x hx => ?_⟩
  · rw [positions_mapLabelsOn] at hx hy
    by_cases hxp : x = q ++ [i] <;> by_cases hyp : y = q ++ [i]
    · rw [hxp, hyp]
    · rw [hxp, hself, hother hyp] at he
      exact absurd he (h.lt_size hy).ne'
    · rw [hyp, hself, hother hxp] at he
      exact absurd he (h.lt_size hx).ne
    · rw [hother hxp, hother hyp] at he
      exact h.injective x hx y hy he
  · rw [positions_mapLabelsOn] at hx
    rw [plantAt_true, labelAt_mapLabelsOn hx, slotsAt_mapLabelsOn]
    by_cases hxp : x = q ++ [i]
    · subst hxp
      have hparent : parentOf (q ++ [i]) = some q := by simp [parentOf]
      rw [hself, hr.new, if_pos (List.mem_singleton_self _), hf, map_slotsAt_update hqp.symm, hparent,
        Option.map_some, hother hqp, h.label hp, h.slots hp]
    · have hslots : (if name x = name q then (t.slotsAt q).map (Slot.map (Function.update name (q ++ [i]) g.size))
            else if name x = name (q ++ [i]) then [] else (t.slotsAt x).map (Slot.map name)) =
          (t.slotsAt x).map (Slot.map (Function.update name (q ++ [i]) g.size)) := by
        by_cases hxq : x = q
        · rw [hxq, if_pos rfl]
        · rw [if_neg (mt (h.injective x hx q hq) hxq), if_neg (mt (h.injective x hx _ hp) hxp), map_slotsAt_update hxq]
      have hparent : (if name x ∈ Slots.children (g.slots (name (q ++ [i]))) then some g.size
            else if name x = name (q ++ [i]) then none else (parentOf x).map name) =
          (parentOf x).map (Function.update name (q ++ [i]) g.size) := by
        rw [if_congr (h.name_mem_children_slots hp hx) rfl rfl, if_neg (mt (h.injective x hx _ hp) hxp)]
        by_cases hbelow : parentOf x = some (q ++ [i])
        · rw [if_pos hbelow, hbelow, Option.map_some, hself]
        · rw [if_neg hbelow, map_parentOf_update hbelow]
      rw [hother hxp, hr.old _ (h.lt_size hx), h.plant x hx, plantAt_true, if_neg (mt List.mem_singleton.1 hxp)]
      exact congrArg some (congrArg₂ (Plant.mk (t.labelAt x)) hslots hparent)

/-- No other node changes. -/
theorem unchanged_of_replaces {m : Nat} (hm : m < g.size) (hmem : m ∉ t.positions.map name) :
    g'.plants[m]? = g.plants[m]? := by
  have hne : ∀ {x}, x ∈ t.positions → m ≠ name x := by
    rintro x hx rfl
    exact hmem (List.mem_map_of_mem hx)
  have hbelow : m ∉ Slots.children (g.slots (name (q ++ [i]))) := by
    intro hc
    obtain ⟨c, hc, he⟩ := h.exists_child hp hc
    exact hne (mem_children_slotsAt.1 hc).choose_spec.2 he.symm
  rw [hr.old m hm]
  simp only [if_neg (hne (mem_positions_of_snoc hp)), if_neg (hne hp), if_neg hbelow]
  exact Option.map_id'

end Stands

/-- If the node was new, so is the one in its place. -/
theorem StandsNew.of_replaces {g₀ g' : Grove} (h : g₀.StandsNew g t name) {q : Position} {i : Nat}
    (hp : q ++ [i] ∈ t.positions) (hr : g.Replaces g' (name q) (name (q ++ [i]))
      ((t.slotsAt q).map (Slot.map (Function.update name (q ++ [i]) g.size)))) {f : Position → Label → Label}
    (hf : f (q ++ [i]) (t.labelAt (q ++ [i])) = { t.labelAt (q ++ [i]) with value := none }) :
    g₀.StandsNew g' (t.mapLabelsOn [q ++ [i]] f) (Function.update name (q ++ [i]) g.size) := by
  refine ⟨h.stands.of_replaces hp hr hf, fun x hx => ?_, fun m hm => ?_⟩
  · rw [positions_mapLabelsOn] at hx
    by_cases hxp : x = q ++ [i]
    · rw [hxp, Function.update_self]
      exact h.keeps.size_le
    · rw [Function.update_of_ne hxp]
      exact h.new x hx
  · rw [h.stands.unchanged_of_replaces hp hr (Nat.lt_of_lt_of_le hm h.keeps.size_le), h.keeps m hm]
    intro hmem
    obtain ⟨x, hx, rfl⟩ := List.mem_map.1 hmem
    exact absurd hm (Nat.not_lt.2 (h.new x hx))

/-! ## Forgetting values -/

section Values

variable {g₀ : Grove} {policy : Policy} {known : List String} {p : Position}

theorem forgetValue_of_keeps {l : Label} (hkeep : l.value.all (keepsValue policy known) = true) :
    HintQuality.forgetValue policy known p l = l := by
  obtain ⟨type, value, id⟩ := l
  cases value with
  | none => simp [HintQuality.forgetValue]
  | some v => simp_all [HintQuality.forgetValue]

theorem forgetValue_of_not_keeps (hp : p ≠ []) {l : Label} (hkeep : l.value.all (keepsValue policy known) = false) :
    HintQuality.forgetValue policy known p l = { l with value := none } := by
  obtain ⟨type, value, id⟩ := l
  cases value with
  | none => simp [HintQuality.forgetValue]
  | some v => simp_all [HintQuality.forgetValue]

variable (policy known)

/-- A node loses its value when it is its turn, if the value is not kept. -/
theorem StandsNew.forgetValue (h : g₀.StandsNew g t name) (hd : ∀ p, (Slots.relations (t.slotsAt p)).Nodup)
    (hp : p ∈ t.positions) : ∃ g' name', Grove.forgetValue policy known g (name p) = .ok g' ∧ name' [] = name [] ∧
      (∀ q, q ≠ p → name' q = name q) ∧
      g₀.StandsNew g' (t.mapLabelsOn [p] (HintQuality.forgetValue policy known)) name' := by
  rcases List.eq_nil_or_concat' p with rfl | ⟨q, i, rfl⟩
  · refine ⟨g, name, ?_, rfl, fun _ _ => rfl, ?_⟩
    · rw [Grove.forgetValue, h.stands.parent_nil]
    · rwa [mapLabelsOn_singleton_eq_self rfl]
  · have hne : q ++ [i] ≠ [] := by simp
    rw [Grove.forgetValue, h.stands.parent_snoc hp rfl, h.stands.label hp]
    cases hkeep : (t.labelAt (q ++ [i])).value.all (keepsValue policy known) with
    | true =>
      refine ⟨g, name, rfl, rfl, fun _ _ => rfl, ?_⟩
      rwa [mapLabelsOn_singleton_eq_self (forgetValue_of_keeps hkeep)]
    | false =>
      obtain ⟨g', hg', hr⟩ := h.stands.exists_replaces hp hd
      exact ⟨g', Function.update name (q ++ [i]) g.size, hg', Function.update_of_ne hne.symm _ _,
        fun x hx => Function.update_of_ne hx _ _, h.of_replaces hp hr (forgetValue_of_not_keeps hne hkeep)⟩

/-- Nodes have their turn by the names that they had in the beginning. -/
theorem StandsNew.foldlM_forgetValue (hd : ∀ p, (Slots.relations (t.slotsAt p)).Nodup) (rest done : List Position)
    (hrest : rest ⊆ t.positions) (hnodup : (rest ++ done).Nodup)
    (h : g₀.StandsNew g (t.mapLabelsOn done (HintQuality.forgetValue policy known)) name) :
    ∃ g' name', (rest.map name).foldlM (Grove.forgetValue policy known) g = .ok g' ∧ name' [] = name [] ∧
      g₀.StandsNew g' (t.mapLabelsOn (rest.reverse ++ done) (HintQuality.forgetValue policy known)) name' := by
  induction rest generalizing done g name with
  | nil => exact ⟨g, name, rfl, rfl, h⟩
  | cons p rest ih =>
    obtain ⟨hp, hrest⟩ := List.cons_subset.1 hrest
    have hnew : p ∉ rest ++ done := (List.nodup_cons.1 hnodup).1
    obtain ⟨g₁, name₁, hg₁, hroot₁, hname₁, h₁⟩ := h.forgetValue policy known (by simpa using hd) (by simpa using hp)
    rw [mapLabelsOn_cons fun hdone => hnew (List.mem_append_right _ hdone)] at h₁
    obtain ⟨g₂, name₂, hg₂, hroot₂, h₂⟩ := ih (p :: done) hrest (List.nodup_middle.2 hnodup) h₁
    -- the others still go by their old names
    have hnames : rest.map name = rest.map name₁ := List.map_congr_left fun x hx =>
      (hname₁ x fun he => hnew (List.mem_append_left _ (he ▸ hx))).symm
    refine ⟨g₂, name₂, ?_, hroot₂.trans hroot₁, ?_⟩
    · rw [List.map_cons, List.foldlM_cons, hg₁, hnames]
      exact hg₂
    · rwa [List.reverse_cons, List.append_assoc, List.singleton_append]

theorem StandsNew.forgetValues (h : g₀.StandsNew g t name) (hd : ∀ p, (Slots.relations (t.slotsAt p)).Nodup) :
    ∃ g' name', (g.nodes (name [])).foldlM (Grove.forgetValue policy known) g = .ok g' ∧ name' [] = name [] ∧
      g₀.StandsNew g' (HintQuality.forgetValues policy known t) name' := by
  obtain ⟨g', name', hg', hroot, h'⟩ := StandsNew.foldlM_forgetValue policy known hd t.positions []
    (List.Subset.refl _) (by simpa using t.nodup_positions) (by rwa [mapLabelsOn_nil])
  rw [List.append_nil, mapLabelsOn_of_subset fun p hp => List.mem_reverse.2 hp] at h'
  exact ⟨g', name', by rw [h.stands.nodes, hg'], hroot, h'⟩

end Values

/-! ## Adopting ids -/

theorem Stands.relabel (h : g.Stands t name) {p : Position} (hp : p ∈ t.positions) {f : Position → Label → Label}
    {l : Label → Label} (hf : f p (t.labelAt p) = l (t.labelAt p)) :
    (g.relabel (name p) l).Stands (t.mapLabelsOn [p] f) name := by
  refine ⟨by simpa using h.injective, fun q hq => ?_⟩
  rw [positions_mapLabelsOn] at hq
  rw [(maps_relabel g (name p) l).eq_some (h.plant q hq), plantAt_true, plantAt_true, labelAt_mapLabelsOn hq,
    slotsAt_mapLabelsOn]
  by_cases hqp : q = p
  · rw [hqp, if_pos rfl, if_pos (List.mem_singleton_self p), hf]
  · rw [if_neg (mt (h.injective q hq p hp) hqp), if_neg (mt List.mem_singleton.1 hqp)]

theorem StandsNew.relabel {g₀ : Grove} (h : g₀.StandsNew g t name) {p : Position} (hp : p ∈ t.positions)
    {f : Position → Label → Label} {l : Label → Label} (hf : f p (t.labelAt p) = l (t.labelAt p)) :
    g₀.StandsNew (g.relabel (name p) l) (t.mapLabelsOn [p] f) name := by
  refine ⟨h.stands.relabel hp hf, by simpa using h.new, fun m hm => ?_⟩
  have hne : m ≠ name p := (Nat.lt_of_lt_of_le hm (h.new p hp)).ne
  have hm' : g.plants[m]? = some g₀.plants[m] := (h.keeps m hm).trans (List.getElem?_eq_getElem hm)
  rw [(maps_relabel g (name p) l).eq_some hm', if_neg hne, List.getElem?_eq_getElem hm]

section Ids

variable {g₀ : Grove} {start : Tree} {name' : Position → Nat} {c : Correspondence Position Position}
  {p : Position} (hs : g₀.Stands start name')
  (hc : ∀ p n, c.partner? p = some n → n ∈ start.positions)
include hs hc

/-- A node adopts the id of its start node when it is its turn. -/
theorem StandsNew.adoptId (h : g₀.StandsNew g t name) (hp : p ∈ t.positions) :
    g₀.StandsNew (Grove.adoptId g (name p, (c.partner? p).map name'))
      (t.mapLabelsOn [p] (HintQuality.adoptId start.view c)) name := by
  rcases List.eq_nil_or_concat' p with rfl | ⟨q, i, rfl⟩
  · rw [Grove.adoptId, h.stands.parent_nil, mapLabelsOn_singleton_eq_self rfl]
    exact h
  · have hs' : g.Stands start name' := hs.of_keeps h.keeps
    have hid : ((c.partner? (q ++ [i])).map name').bind (fun n => (g.label n).id) =
        (c.pairs.lookup (q ++ [i])).bind fun n => (start.view.label n).id := by
      rw [lookup_eq_partner?, Option.bind_map]
      refine Option.bind_congr fun n hn => ?_
      rw [Function.comp_apply, hs'.label (hc _ n hn)]
      rfl
    rw [Grove.adoptId, h.stands.parent_snoc hp rfl, if_neg (by simp)]
    refine h.relabel hp ?_
    rw [HintQuality.adoptId, if_neg (by simp), ← hid]

theorem StandsNew.foldl_adoptId (rest done : List Position) (hrest : rest ⊆ t.positions)
    (hnodup : (rest ++ done).Nodup) (h : g₀.StandsNew g (t.mapLabelsOn done (HintQuality.adoptId start.view c)) name) :
    g₀.StandsNew ((rest.map fun p => (name p, (c.partner? p).map name')).foldl Grove.adoptId g)
      (t.mapLabelsOn (rest.reverse ++ done) (HintQuality.adoptId start.view c)) name := by
  induction rest generalizing done g with
  | nil => exact h
  | cons p rest ih =>
    obtain ⟨hp, hrest⟩ := List.cons_subset.1 hrest
    have hnew : p ∉ rest ++ done := (List.nodup_cons.1 hnodup).1
    have h₁ := h.adoptId hs hc (p := p) (by simpa using hp)
    rw [mapLabelsOn_cons fun hdone => hnew (List.mem_append_right _ hdone)] at h₁
    rw [List.reverse_cons, List.append_assoc, List.singleton_append, List.map_cons, List.foldl_cons]
    exact ih (p :: done) hrest (List.nodup_middle.2 hnodup) h₁

end Ids

theorem Stands.values (h : g.Stands t name) : (g.view (name [])).values = t.view.values := by
  obtain ⟨k, -, hk⟩ := h.renamed
  rw [View.values, View.values, hk.nodes, List.filterMap_map]
  exact List.filterMap_congr fun p _ => congrArg Label.value (hk.label p)

theorem mem_positions_of_partner? {start : Tree} {p n : Position}
    (hn : (Correspondence.of start.view t.view).partner? p = some n) : n ∈ start.positions := by
  have hnode := (Correspondence.mem_nodes_of_partner? start.view_lawful t.view_lawful hn).2
  rwa [view_nodes] at hnode

/-- Start nodes are found by their names. -/
theorem Stands.table {start : Tree} {name' : Position → Nat} (hs : g.Stands start name') (h : g.Stands t name) :
    (Correspondence.of (g.view (name' [])) (g.view (name []))).table (g.view (name [])) =
      t.positions.map fun p => (name p, ((Correspondence.of start.view t.view).partner? p).map name') := by
  obtain ⟨k, hk, hstart⟩ := hs.renamed
  obtain ⟨f, hf, hgoal⟩ := h.renamed
  rw [hstart.table hgoal, Correspondence.table, t.view_nodes, List.map_map]
  refine List.map_congr_left fun p hp => ?_
  rw [Function.comp_apply, Prod.map_apply, hf p hp]
  refine congrArg _ (Option.map_congr fun n hn => hk n ?_)
  exact mem_positions_of_partner? hn

theorem StandsNew.adoptIds {g₀ : Grove} {start : Tree} {name' : Position → Nat} (hs : g₀.Stands start name')
    (h : g₀.StandsNew g t name) :
    g₀.StandsNew (g.adoptIds (name' []) (name [])) (HintQuality.adoptIds start.view t) name := by
  have hs' : g.Stands start name' := hs.of_keeps h.keeps
  have h' := StandsNew.foldl_adoptId hs (fun p n hn => mem_positions_of_partner? (t := t) hn) t.positions []
    (List.Subset.refl _) (by simpa using t.nodup_positions) (by rwa [mapLabelsOn_nil])
  rw [List.append_nil, mapLabelsOn_of_subset fun p hp => List.mem_reverse.2 hp] at h'
  rwa [Grove.adoptIds, hs'.table h.stands]

/-! ## Normalizing -/

/-- A tree of a grove is normalized on a copy, which stands at new nodes. -/
theorem Stands.normalizeValues {start : Tree} {name' : Position → Nat} (hs : g.Stands start name') (policy : Policy)
    {m : Nat} (hd : (g.tree m).DistinctLabels) : ∃ g' name,
      g.normalizeValues policy (name' []) m = .ok (g', name []) ∧
      g.StandsNew g' (HintQuality.normalizeValues policy start (g.tree m)) name := by
  obtain ⟨name₀, hroot₀, h₀⟩ := plantsNew (g.tree m) g
  have hs₀ : (graft (g.tree m) g).1.Stands start name' := hs.of_keeps h₀.keeps
  obtain ⟨g₁, name, hg₁, hroot, h₁⟩ := h₀.forgetValues policy start.view.values
    hd.relations_slotsAt
  refine ⟨_, name, ?_, h₁.adoptIds hs⟩
  have hrun : g.normalizeValues policy (name' []) m = (((graft (g.tree m) g).1.nodes (graft (g.tree m) g).2).foldlM
      (Grove.forgetValue policy ((graft (g.tree m) g).1.view (name' [])).values) (graft (g.tree m) g).1).bind
        fun g₁ => .ok (g₁.adoptIds (name' []) (graft (g.tree m) g).2, (graft (g.tree m) g).2) := rfl
  rw [hrun, hroot₀, hs₀.values, hg₁, ← hroot]
  rfl

/-- Of trees that are planted side by side one is normalized by the other one on a copy, and both stay as they are. -/
theorem normalizeValues_side (policy : Policy) (start : Tree) {goal : Tree} (hd : goal.DistinctLabels) :
    let (g, n, m) := side start goal
    ∃ g' k, g.normalizeValues policy n m = .ok (g', k) ∧
      g'.tree k = HintQuality.normalizeValues policy start goal ∧ g'.tree n = start ∧ g'.tree m = goal := by
  obtain ⟨g, name', name, hside, hs, h, -⟩ := exists_stands_side start goal
  rw [hside]
  obtain ⟨g', nameₖ, hg', hnew⟩ := hs.normalizeValues policy (m := name []) (by rwa [h.tree])
  have hs' : g'.Stands start name' := hs.of_keeps hnew.keeps
  have h' : g'.Stands goal name := h.of_keeps hnew.keeps
  rw [h.tree] at hnew
  exact ⟨g', nameₖ [], hg', hnew.stands.tree, hs'.tree, h'.tree⟩

end Grove

/-- Normalizing gives a copy with normal values, and the trees that there are stay as they are. Normal values differ
from the tree in nothing but values and ids, and not at the root. Below it, the values that are left are those that the
start knows and, where they matter, numbers. The ids that are left are ids of start nodes below the root, and one that
only one start node has is left at one node at most. -/
theorem normalizeValues_exact (policy : Policy) (start goal : Tree) :
    let normal := normalizeValues policy start goal
    (goal.DistinctLabels → let (g, n, m) := Grove.side start goal
      ∃ g' k, g.normalizeValues policy n m = .ok (g', k) ∧ g'.tree k = normal ∧ g'.tree n = start ∧ g'.tree m = goal) ∧
    normal.bare = goal.bare ∧ normal.label = goal.label ∧
      (∀ p ∈ goal.positions, p ≠ [] → ∀ v, (normal.labelAt p).value = some v ↔ (goal.labelAt p).value = some v ∧
        ((∃ q ∈ start.positions, (start.labelAt q).value = some v) ∨
          (policy.specificNumericLiterals = true ∧ isNumeral v = true))) ∧
      (∀ p ∈ goal.positions, p ≠ [] → ∀ x, (normal.labelAt p).id = some x →
        ∃ q ∈ start.positions, q ≠ [] ∧ (start.labelAt q).id = some x) ∧
      ∀ x q, start.view.withId x = [q] → ∀ p ∈ goal.positions, ∀ p' ∈ goal.positions, p ≠ [] → p' ≠ [] →
        (normal.labelAt p).id = some x → (normal.labelAt p').id = some x → p = p' := by
  intro normal
  refine ⟨Grove.normalizeValues_side policy start, bare_normalizeValues policy start goal,
    label_normalizeValues policy start goal, fun p hp hne v => ?_, fun p hp hne x hx => ?_,
    fun x q hq p hp p' hp' hne hne' hx hx' => ?_⟩
  · rw [labelAt_normalizeValues hp hne, Option.filter_eq_some_iff, keepsValue_iff]
  · obtain ⟨q, hq, hid⟩ := exists_startNode_of_id hp hne hx
    obtain ⟨hnode, hbelow, -⟩ := startNode?_spec hq
    exact ⟨q, hnode, hbelow hne, hid⟩
  · -- both nodes have the one start node with this id
    have honly : ∀ {p}, p ∈ goal.positions → p ≠ [] → (normal.labelAt p).id = some x →
        startNode? policy start goal p = some q := by
      intro p hp hne hx
      obtain ⟨q', hq', hid⟩ := exists_startNode_of_id hp hne hx
      have hmem : q' ∈ start.view.withId x :=
        Pairing.mem_withId.2 ⟨by rw [Tree.view_nodes]; exact (startNode?_spec hq').1, hid⟩
      rw [hq, List.mem_singleton] at hmem
      rwa [hmem] at hq'
    exact (startNode?_spec (honly hp' hne' hx')).2.2 (honly hp hne hx)

/-- A new name with a new name, a number and a known name below it, where the start's id has moved to another node. -/
theorem normalizeValues_exact_of_nested :
    let policy : Policy := { specificNumericLiterals := true }
    let start : Tree := .node ⟨"script", none, some "s"⟩ [⟨"0", some (.leaf ⟨"set", some "x", some "a"⟩)⟩]
    let goal : Tree := .node ⟨"script", none, some "s"⟩
      [⟨"0", some (.node ⟨"set", some "y", some "b"⟩ [⟨"l", some (.node ⟨"sum", some "z", none⟩
        [⟨"0", some (.leaf ⟨"number", some "3", some "c"⟩)⟩, ⟨"1", some (.leaf ⟨"var", some "x", some "a"⟩)⟩])⟩])⟩]
    let normal := normalizeValues policy start goal
    (let (g, n, m) := Grove.side start goal
      ∃ g' k, g.normalizeValues policy n m = .ok (g', k) ∧ g'.tree k = normal ∧ g'.tree n = start ∧ g'.tree m = goal) ∧
    normal.bare = goal.bare ∧ (normal.labelAt [0]).value = none ∧ (normal.labelAt [0, 0]).value = none ∧
      (normal.labelAt [0, 0, 0]).value = some "3" ∧ (normal.labelAt [0, 0, 1]).value = some "x" ∧
      (∃ q ∈ start.positions, q ≠ [] ∧ (start.labelAt q).id = some "a") ∧
      ∀ p ∈ goal.positions, p ≠ [] → (normal.labelAt p).id = some "a" → p = [0, 0, 1] := by
  intro policy start goal normal
  obtain ⟨hcopy, hbare, -, hvalue, hid, honly⟩ := normalizeValues_exact policy start goal
  have hthree : isNumeral "3" = true := by decide +kernel
  have hnew : ∀ v ∈ ["y", "z"], ¬((∃ q ∈ start.positions, (start.labelAt q).value = some v) ∨
      policy.specificNumericLiterals = true ∧ isNumeral v = true) := by decide +kernel
  have ha : (normal.labelAt [0, 0, 1]).id = some "a" := by decide +kernel
  have hnode : [0, 0, 1] ∈ goal.positions := by decide
  have hlabels : goal.DistinctLabels := by decide
  refine ⟨hcopy hlabels, hbare, ?_, ?_, ?_, ?_, hid _ hnode (by decide) "a" ha, fun p hp hne hpa => ?_⟩
  · refine Option.eq_none_iff_forall_ne_some.2 fun v hv => ?_
    obtain ⟨hy, hkept⟩ := (hvalue [0] (by decide) (by decide) v).1 hv
    obtain rfl : "y" = v := Option.some.inj hy
    exact absurd hkept (hnew "y" (by decide))
  · refine Option.eq_none_iff_forall_ne_some.2 fun v hv => ?_
    obtain ⟨hz, hkept⟩ := (hvalue [0, 0] (by decide) (by decide) v).1 hv
    obtain rfl : "z" = v := Option.some.inj hz
    exact absurd hkept (hnew "z" (by decide))
  · exact (hvalue [0, 0, 0] (by decide) (by decide) "3").2 ⟨by decide, .inr ⟨rfl, hthree⟩⟩
  · exact (hvalue [0, 0, 1] hnode (by decide) "x").2 ⟨by decide, .inl ⟨[0], by decide, by decide⟩⟩
  · exact honly "a" [0] (by decide) p hp [0, 0, 1] hnode hne (by decide) hpa ha

end HintQuality
