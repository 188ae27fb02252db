import HintQuality.Grove.Prune
import HintQuality.Proofs.Planting
import HintQuality.Proofs.Pruning
import HintQuality.Proofs.StableSort
/-!
# Pruning in place

Pruning a tree that stands in a grove leaves what pruning the tree by itself gives, at the same nodes, and touches no
other node (`Grove.Stands.prune`).
-/

namespace HintQuality.Grove

open HintQuality.Tree

variable {policy : Policy} {g : Grove} {t : Tree} {keep : Position → Bool} {name : Position → Nat}

/-! ## Taking a node out of its parent -/

/-- A node that has one slot in its parent is taken out of it. -/
theorem remove_place {n p : Nat} {before after : List (Slot Nat)} {r : String} (hparent : g.parent? n = some p)
    (hslots : g.slots p = before ++ ⟨r, some n⟩ :: after) (hbefore : n ∉ Slots.children before)
    (hafter : n ∉ Slots.children after) :
    ∃ g', (g.remove p (g.place n)).map Prod.snd = .ok g' ∧ g.TakesOut g' p [n] := by
  obtain ⟨g', hg', hmaps⟩ := maps_remove hslots
  refine ⟨g', by rw [place_eq hparent hslots hbefore, hg']; rfl, hmaps.congr fun m q hq => ?_⟩
  -- the other slots are left
  have hother : ∀ {s : List (Slot Nat)}, n ∉ Slots.children s → s.filter (fun s => s.child.all (· ∉ [n])) = s := by
    intro s hs
    refine List.filter_eq_self.2 fun c hc => ?_
    have hne : c.child ≠ some n := fun e => hs (List.mem_filterMap.2 ⟨c, hc, e⟩)
    cases hchild : c.child <;> simp_all
  have hleft : (g.slots p).filter (fun s => s.child.all (· ∉ [n])) = before ++ after := by
    rw [hslots, List.filter_append, hother hbefore, List.filter_cons_of_neg (by simp), hother hafter]
  have hslots' : (if m = p then q.slots.filter fun s => s.child.all (· ∉ [n]) else q.slots) =
      if m = p then before ++ after else q.slots := by
    by_cases hm : m = p
    · subst hm
      rw [if_pos rfl, if_pos rfl, slots_of_plant hq, hleft]
    · rw [if_neg hm, if_neg hm]
  rw [Plant.without, hslots', if_congr List.mem_singleton rfl rfl]

/-- A node of a tree is taken out of its parent. -/
theorem Holds.remove_place (h : g.Holds t keep name) {p : Position} {i : Nat} (hc : p ++ [i] ∈ t.positions)
    (hkeep : keep (p ++ [i]) = true) : ∃ g', (g.remove (name p) (g.place (name (p ++ [i])))).map Prod.snd = .ok g' ∧
      g.TakesOut g' (name p) [name (p ++ [i])] := by
  obtain ⟨before, after, r, hsplit, -, -, hbefore, hafter⟩ := h.exists_slot hc hkeep
  have hslots : g.slots (name p) =
      before.map (Slot.map name) ++ ⟨r, some (name (p ++ [i]))⟩ :: after.map (Slot.map name) := by
    rw [h.slots (mem_positions_of_snoc hc), hsplit, List.map_append, List.map_cons]
    rfl
  exact Grove.remove_place (h.parent_snoc hc hkeep) hslots hbefore hafter

/-! ## Leftovers -/

variable (policy) in
/-- Whether a node is left when the leftovers among `done` are taken out. -/
def leftAfter (t : Tree) (done : List Position) (p : Position) : Bool :=
  p ∉ done || saysSomething policy t p

variable {done : List Position} {p : Position}

theorem leftAfter_positions {p : Position} (hp : p ∈ t.positions) :
    leftAfter policy t t.positions p = saysSomething policy t p := by
  simp [leftAfter, hp]

/-- Once all nodes below it are done, a node is found to be a leftover where it is one when the tree is pruned. -/
theorem Holds.isLeftover (h : g.Holds t (leftAfter policy t done) name) (hp : p ∈ t.positions)
    (hbelow : ∀ c ∈ t.view.children p, c ∈ done) :
    ((g.label (name p)).type = emptyType ∨
      ((g.slots (name p)).isEmpty && policy.trimIfChildless (g.label (name p)).type) = true) ↔
        saysSomething policy t p = false := by
  obtain ⟨u, hu⟩ := Option.isSome_iff_exists.1 (mem_positions.1 hp)
  have hlabel : (pruneLeftovers policy u).label = t.labelAt p := by
    rw [labelAt_of_subtree? hu]
    cases u
    rfl
  have hslots : g.slots (name p) = [] ↔ (pruneLeftovers policy u).slots = [] := by
    rw [pruneLeftovers_of_subtree? u hu, slots_restrictFrom_eq_nil hu, h.slots hp, List.map_eq_nil_iff]
    refine iff_of_eq (congrArg (· = []) (List.filter_congr fun s hs => ?_))
    rw [isLeft, isLeft]
    cases hchild : s.child with
    | none => rfl
    | some c =>
      have hc : c ∈ done := hbelow c (List.mem_filterMap.2 ⟨s, hs, hchild⟩)
      simp [leftAfter, hc]
  rw [saysSomething, hu, Option.any_some, Bool.not_eq_false', HintQuality.isLeftover, hlabel, h.label hp,
    Bool.or_eq_true, decide_eq_true_iff, Bool.and_eq_true, Bool.and_eq_true, List.isEmpty_iff, List.isEmpty_iff, hslots]

/-- A node that comes when all nodes below it are done is taken out if it is a leftover. -/
theorem Holds.dropLeftover (h : g.Holds t (leftAfter policy t done) name) (hp : p ∈ t.positions) (hdone : p ∉ done)
    (hbelow : ∀ c ∈ t.view.children p, c ∈ done) : ∃ g', g.dropLeftover policy (name p) = .ok g' ∧
      g'.Holds t (leftAfter policy t (p :: done)) name ∧ g.SameBut g' (t.positions.map name) := by
  rcases List.eq_nil_or_concat' p with rfl | ⟨q, i, rfl⟩
  · refine ⟨g, by rw [Grove.dropLeftover, h.parent_nil], h.congr fun q _ hne => ?_, fun _ _ => rfl⟩
    simp [leftAfter, hne]
  · have hkeep : leftAfter policy t done (q ++ [i]) = true := by simp [leftAfter, hdone]
    rw [Grove.dropLeftover, h.parent_snoc hp hkeep]
    simp only [Bool.or_eq_true, decide_eq_true_iff, h.isLeftover hp hbelow]
    cases hsays : saysSomething policy t (q ++ [i]) with
    | true =>
      refine ⟨g, rfl, h.congr fun r _ _ => ?_, fun _ _ => rfl⟩
      by_cases hr : r = q ++ [i] <;> simp [leftAfter, hr, hdone, hsays]
    | false =>
      obtain ⟨g', hg', hout⟩ := h.remove_place hp hkeep
      have hq := mem_positions_of_snoc hp
      refine ⟨g', by rw [if_pos rfl, hg'], ?_, ?_⟩
      · have hgone : ∀ c ∈ [q ++ [i]], c ∈ t.view.children q := by
          intro c hc
          rw [List.mem_singleton.1 hc]
          exact mem_children_slotsAt.2 ⟨i, rfl, hp⟩
        refine (h.takeOut hq hgone hout).congr fun r _ _ => ?_
        by_cases hr : r = q ++ [i] <;> simp [leftAfter, hr, hdone, hsays]
      · refine hout.sameBut (List.mem_map_of_mem hq) fun n hn => ?_
        rw [List.mem_singleton.1 hn]
        exact List.mem_map_of_mem hp

/-- Nodes are taken out from the last one to the first. -/
theorem Holds.foldlM_dropLeftover {done : List Position} {g : Grove} (h : g.Holds t (leftAfter policy t done) name)
    (rest : List Position) (hpos : t.positions = rest ++ done) :
    ∃ g', (rest.map name).reverse.foldlM (Grove.dropLeftover policy) g = .ok g' ∧
      g'.Holds t (leftAfter policy t t.positions) name ∧ g.SameBut g' (t.positions.map name) := by
  induction rest using List.reverseRecOn generalizing done g with
  | nil =>
    rw [List.nil_append] at hpos
    exact ⟨g, rfl, hpos ▸ h, fun _ _ => rfl⟩
  | append_singleton rest p ih =>
    rw [List.append_assoc, List.singleton_append] at hpos
    have horder := t.pairwise_positions
    have hp : p ∈ t.positions := by rw [hpos]; simp
    rw [hpos, List.pairwise_append, List.pairwise_cons] at horder
    obtain ⟨-, ⟨hlate, -⟩, hearly⟩ := horder
    have hdone : p ∉ done := fun hmem => absurd (hlate p hmem) (List.lt_irrefl p)
    have hbelow : ∀ c ∈ t.view.children p, c ∈ done := by
      intro c hc
      obtain ⟨i, rfl, hc⟩ := mem_children_slotsAt.1 hc
      have hafter : p < p ++ [i] := by
        have : p ++ [] < p ++ [i] := List.append_left_lt (List.nil_lt_cons _ _)
        rwa [List.append_nil] at this
      rw [hpos, List.mem_append, List.mem_cons] at hc
      rcases hc with hc | hc | hc
      · exact absurd (List.lt_trans hafter (hearly _ hc p List.mem_cons_self)) (List.lt_irrefl p)
      · exact absurd hc (by simp)
      · exact hc
    obtain ⟨g₁, hg₁, h₁, hsame₁⟩ := h.dropLeftover hp hdone hbelow
    obtain ⟨g₂, hg₂, h₂, hsame₂⟩ := ih h₁ hpos
    refine ⟨g₂, ?_, h₂, hsame₁.trans hsame₂⟩
    rw [List.map_append, List.map_singleton, List.reverse_append, List.reverse_singleton, List.singleton_append,
      List.foldlM_cons, hg₁]
    exact hg₂

/-! ## What the editor attached -/

/-- What the editor attached is taken out of a node. -/
theorem takesOut_detachFrom (policy : Policy) {n p : Nat} (hparent : g.parent? n = some p) :
    g.TakesOut (g.detachFrom policy n) n (Slots.children ((g.slots n).filter (isAttached policy g))) := by
  have hleft : ∀ s ∈ g.slots n, (!isAttached policy g s) =
      s.child.all (· ∉ Slots.children ((g.slots n).filter (isAttached policy g))) := by
    intro s hs
    cases hchild : s.child with
    | none => simp [isAttached, hchild]
    | some c =>
      have hmem : c ∈ Slots.children ((g.slots n).filter (isAttached policy g)) ↔ isAttached policy g s = true := by
        rw [Slots.children, List.mem_filterMap]
        constructor
        · rintro ⟨s', hs', hc⟩
          have hattached := (List.mem_filter.1 hs').2
          simp only [isAttached, hc, hchild] at hattached ⊢
          exact hattached
        · exact fun hattached => ⟨s, List.mem_filter.2 ⟨hs, hattached⟩, hchild⟩
      rw [Option.all_some, Bool.eq_iff_iff, Bool.not_eq_true', decide_eq_true_iff, hmem, Bool.not_eq_true]
  rw [detachFrom, hparent, if_neg (by simp)]
  refine ((maps_foldl_adopt none _ g).trans (maps_modify _ n _)).congr fun m p hp => ?_
  by_cases hm : m = n
  · subst hm
    have hfilter : p.slots.filter (fun s => !isAttached policy g s) = p.slots.filter fun s =>
        s.child.all (· ∉ Slots.children ((g.slots m).filter (isAttached policy g))) := by
      rw [slots_of_plant hp]
      exact List.filter_congr hleft
    rw [if_pos rfl, hfilter, Plant.without, if_pos rfl]
  · rw [if_neg hm, Plant.without, if_neg hm]

variable (policy) in
/-- Whether a node stays when the nodes among `done` have lost what the editor attached to them. -/
def staysAfter (added : List Position) (t : Tree) (done : List Position) (p : Position) : Bool :=
  staysAttached policy (· ∈ added) t p || p.dropLast ∉ done

variable {added : List Position}

theorem staysAttached_of_not_added (hp : p.dropLast ∉ added) : staysAttached policy (· ∈ added) t p = true := by
  simp [staysAttached, hp]

theorem staysAttached_of_dropLast_eq_nil (hp : p.dropLast = []) : staysAttached policy (· ∈ added) t p = true := by
  simp [staysAttached, hp]

/-- Once all added nodes below it are done, a child is found to be attached where it is when the tree is pruned. -/
theorem Holds.isAttached (h : g.Holds t (staysAfter policy added t done) name) (hne : p ≠ []) (hadded : p ∈ added)
    {i : Nat} (hc : p ++ [i] ∈ t.positions) (hdone : p ++ [i] ∈ added → p ++ [i] ∈ done) :
    (policy.trimIfParentIsAdded (g.label (name (p ++ [i]))).type && (g.slots (name (p ++ [i]))).isEmpty) =
      !staysAttached policy (· ∈ added) t (p ++ [i]) := by
  obtain ⟨w, hw⟩ := Option.isSome_iff_exists.1 (mem_positions.1 hc)
  have hslots : g.slots (name (p ++ [i])) = [] ↔
      (HintQuality.detachFrom policy (· ∈ added) (p ++ [i]) w).slots = [] := by
    rw [detachFrom_of_subtree? w hw, slots_restrictFrom_eq_nil hw, h.slots hc, List.map_eq_nil_iff]
    refine iff_of_eq (congrArg (· = []) (List.filter_congr fun s hs => ?_))
    rw [isLeft, isLeft]
    cases hchild : s.child with
    | none => rfl
    | some d =>
      obtain ⟨j, rfl, -⟩ := mem_children_slotsAt.1 (List.mem_filterMap.2 ⟨s, hs, hchild⟩)
      by_cases hmem : p ++ [i] ∈ added
      · simp [staysAfter, hdone hmem]
      · have hstays : staysAttached policy (· ∈ added) t (p ++ [i] ++ [j]) = true :=
          staysAttached_of_not_added (by rwa [List.dropLast_concat])
        rw [Option.all_some, Option.all_some, staysAfter, hstays, Bool.true_or]
  rw [Bool.eq_iff_iff, Bool.not_eq_true', staysAttached_eq_false_iff hw, Bool.and_eq_true, List.isEmpty_iff, hslots,
    h.label hc, decide_eq_true_iff]
  exact ⟨fun hgone => ⟨hne, hadded, hgone⟩, fun hgone => hgone.2.2⟩

variable (policy) in
/-- The children that a node loses when it is its turn. -/
def lostChildren (added : List Position) (t : Tree) (done : List Position) (p : Position) : List Position :=
  (t.view.children p).filter fun c => staysAfter policy added t done c && !staysAttached policy (· ∈ added) t c

/-- The children that are found to be attached are those that the node loses. -/
theorem Holds.children_isAttached (h : g.Holds t (staysAfter policy added t done) name) (hp : p ∈ t.positions)
    (hne : p ≠ []) (hadded : p ∈ added) (hbelow : ∀ c ∈ t.view.children p, c ∈ added → c ∈ done) :
    Slots.children ((g.slots (name p)).filter (Grove.isAttached policy g)) =
      (lostChildren policy added t done p).map name := by
  rw [h.slots hp, List.filter_map, Slots.children_map, List.filter_filter]
  refine congrArg (List.map name) (Slots.children_filter fun s hs c hchild => ?_)
  have hc : c ∈ t.view.children p := List.mem_filterMap.2 ⟨s, hs, hchild⟩
  obtain ⟨i, rfl, hmem⟩ := mem_children_slotsAt.1 hc
  have hattached : Grove.isAttached policy g (s.map name) = !staysAttached policy (· ∈ added) t (p ++ [i]) := by
    rw [Slot.map, hchild]
    exact h.isAttached hne hadded hmem (hbelow _ hc)
  rw [Function.comp_apply, hattached, isLeft, hchild, Option.all_some, Bool.and_comm]

/-- After its turn, the children of a node that are left are those that stay. -/
theorem staysAfter_cons {q : Position} (hq : q ∈ t.positions) (hne : q ≠ []) :
    (staysAfter policy added t done q && q ∉ lostChildren policy added t done p) =
      staysAfter policy added t (p :: done) q := by
  obtain ⟨r, j, rfl⟩ : ∃ r j, q = r ++ [j] := ⟨_, _, (List.dropLast_append_getLast hne).symm⟩
  by_cases hrp : r = p
  · subst hrp
    have hchild : r ++ [j] ∈ t.view.children r := mem_children_slotsAt.2 ⟨j, rfl, hq⟩
    cases hstays : staysAttached policy (· ∈ added) t (r ++ [j]) <;>
      simp [staysAfter, lostChildren, hstays, hchild]
  · have hlost : r ++ [j] ∉ lostChildren policy added t done p := by
      intro hmem
      obtain ⟨k, he, -⟩ := mem_children_slotsAt.1 (List.mem_filter.1 hmem).1
      exact hrp (List.append_inj' he rfl).1
    simp [staysAfter, hlost, hrp]

/-- A node that comes when all added nodes below it are done loses what the editor attached to it. -/
theorem Holds.detachFrom (h : g.Holds t (staysAfter policy added t done) name) (hp : p ∈ t.positions)
    (hadded : p ∈ added) (habove : p ≠ [] → p.dropLast ∉ done)
    (hbelow : ∀ c ∈ t.view.children p, c ∈ added → c ∈ done) :
    (g.detachFrom policy (name p)).Holds t (staysAfter policy added t (p :: done)) name ∧
      g.SameBut (g.detachFrom policy (name p)) (t.positions.map name) := by
  rcases List.eq_nil_or_concat' p with rfl | ⟨q, i, rfl⟩
  · have hroot : g.detachFrom policy (name []) = g := by
      rw [Grove.detachFrom, h.parent_nil]
      rfl
    rw [hroot]
    refine ⟨h.congr fun r _ _ => ?_, fun _ _ => rfl⟩
    by_cases hr : r.dropLast = []
    · rw [staysAfter, staysAfter, staysAttached_of_dropLast_eq_nil hr, Bool.true_or, Bool.true_or]
    · simp [staysAfter, hr]
  · have hne : q ++ [i] ≠ [] := by simp
    have hkeep : staysAfter policy added t done (q ++ [i]) = true := by
      rw [staysAfter, decide_eq_true (habove hne), Bool.or_true]
    have hout := takesOut_detachFrom policy (h.parent_snoc hp hkeep)
    rw [h.children_isAttached hp hne hadded hbelow] at hout
    refine ⟨(h.takeOut hp (fun c hc => (List.mem_filter.1 hc).1) hout).congr fun r hr hrne => staysAfter_cons hr hrne,
      hout.sameBut (List.mem_map_of_mem hp) fun n hn => ?_⟩
    obtain ⟨c, hc, rfl⟩ := List.mem_map.1 hn
    obtain ⟨-, -, hc⟩ := mem_children_slotsAt.1 (List.mem_filter.1 hc).1
    exact List.mem_map_of_mem hc

/-- Added nodes have their turn from the deepest on. -/
theorem Holds.foldl_detachFrom {done : List Position} {g : Grove} (h : g.Holds t (staysAfter policy added t done) name)
    (rest : List Position) (hmem : ∀ p ∈ rest, p ∈ t.positions ∧ p ∈ added)
    (hsorted : rest.Pairwise fun p q => q.length ≤ p.length) (hdeep : ∀ p ∈ rest, ∀ d ∈ done, p.length ≤ d.length)
    (hall : ∀ p ∈ added, p ∈ done ∨ p ∈ rest) :
    ((rest.map name).foldl (Grove.detachFrom policy) g).Holds t (staysAttached policy (· ∈ added) t) name ∧
      g.SameBut ((rest.map name).foldl (Grove.detachFrom policy) g) (t.positions.map name) := by
  induction rest generalizing done g with
  | nil =>
    refine ⟨h.congr fun p _ _ => ?_, fun _ _ => rfl⟩
    by_cases hp : p.dropLast ∈ added
    · have hdone := (hall _ hp).resolve_right List.not_mem_nil
      simp [staysAfter, hdone]
    · rw [staysAfter, staysAttached_of_not_added hp, Bool.true_or]
  | cons p rest ih =>
    obtain ⟨hp, hadded⟩ := hmem p List.mem_cons_self
    rw [List.pairwise_cons] at hsorted
    have habove : p ≠ [] → p.dropLast ∉ done := by
      intro hne hdone
      have hle := hdeep p List.mem_cons_self _ hdone
      have hpos := List.length_pos_of_ne_nil hne
      rw [List.length_dropLast] at hle
      omega
    have hbelow : ∀ c ∈ t.view.children p, c ∈ added → c ∈ done := by
      intro c hc hca
      obtain ⟨i, rfl, -⟩ := mem_children_slotsAt.1 hc
      refine (hall _ hca).resolve_right fun hlate => ?_
      rcases List.mem_cons.1 hlate with he | hlate
      · exact absurd he (by simp)
      · have hle := hsorted.1 _ hlate
        rw [List.length_append, List.length_singleton] at hle
        omega
    obtain ⟨h', hsame⟩ := h.detachFrom hp hadded habove hbelow
    have hdeep' : ∀ q ∈ rest, ∀ d ∈ p :: done, q.length ≤ d.length := by
      intro q hq d hd
      rcases List.mem_cons.1 hd with rfl | hd
      · exact hsorted.1 q hq
      · exact hdeep q (List.mem_cons_of_mem _ hq) d hd
    have hall' : ∀ q ∈ added, q ∈ p :: done ∨ q ∈ rest := by
      intro q hq
      rcases hall q hq with hq | hq
      · exact .inl (List.mem_cons_of_mem _ hq)
      · rcases List.mem_cons.1 hq with rfl | hq
        · exact .inl List.mem_cons_self
        · exact .inr hq
    obtain ⟨h'', hsame'⟩ := ih h' (fun q hq => hmem q (List.mem_cons_of_mem _ hq)) hsorted.2 hdeep' hall'
    exact ⟨h'', hsame.trans hsame'⟩

/-! ## Both passes -/

/-- In place, the nodes that are new, moved or changed are those of the trees, the deepest first. -/
theorem addedByDepth_eq {start goal : Tree} {name' : Position → Nat} (hs : g.Stands start name')
    (h : g.Stands goal name) : g.addedByDepth (name' []) (name []) =
      (sortBy (fun p q => q.length ≤ p.length)
        ((Correspondence.of start.view goal.view).added start.view goal.view)).map name := by
  obtain ⟨k, -, hk⟩ := hs.renamed
  obtain ⟨f, hf, hgoal⟩ := h.renamed
  let added := (Correspondence.of start.view goal.view).added start.view goal.view
  have hnode : ∀ p ∈ added, p ∈ goal.positions := by
    intro p hp
    rw [← goal.view_nodes]
    exact (List.mem_filter.1 hp).1
  have hnames : added.map f = added.map name := List.map_congr_left fun p hp => hf p (hnode p hp)
  have hsorted : List.Forall₂ (fun (p : Position) (n : Nat) => p ∈ goal.positions ∧ name p = n)
      (sortBy (fun p q => q.length ≤ p.length) added)
      (sortBy (fun a b => g.depth b ≤ g.depth a) (added.map name)) := by
    refine forall₂_sortBy ?_ ?_
    · rintro p n q m ⟨hp, rfl⟩ ⟨hq, rfl⟩
      rw [h.depth hp, h.depth hq]
    · exact List.forall₂_map_right_iff.2 (List.forall₂_same.2 fun p hp => ⟨hnode p hp, rfl⟩)
  rw [addedByDepth, hk.added hgoal start.view_lawful goal.view_lawful, hnames]
  have heq := List.forall₂_map_left_iff.2 (List.Forall₂.imp (S := fun p n => name p = n) (fun _ _ hpn => hpn.2) hsorted)
  rw [List.forall₂_eq_eq_eq] at heq
  exact heq.symm

/-- Pruning a tree in a grove leaves the pruned tree, at the nodes that are left, and touches nothing outside. -/
theorem Stands.prune {start goal : Tree} {name' : Position → Nat} (policy : Policy) (hs : g.Stands start name')
    (h : g.Stands goal name) (hapart : ∀ p ∈ start.positions, name' p ∉ goal.positions.map name) :
    ∃ g' way, g.prune policy (name' []) (name []) = .ok g' ∧
      (HintQuality.prune policy start goal).IsPart goal way ∧
      g'.Stands (HintQuality.prune policy start goal) (name ∘ way) ∧ g.SameBut g' (goal.positions.map name) := by
  -- the leftovers
  have hnone : g.Holds goal (leftAfter policy goal []) name := h.congr fun p _ _ => by simp [leftAfter]
  obtain ⟨g₁, hg₁, h₁, hsame₁⟩ := hnone.foldlM_dropLeftover goal.positions (List.append_nil _).symm
  have htrimmed := (h₁.congr fun p hp _ => leftAfter_positions hp).restrict
  rw [← pruneLeftovers_eq_restrict] at htrimmed
  -- what is attached to the nodes that are added then
  let added := (Correspondence.of start.view (pruneLeftovers policy goal).view).added start.view
    (pruneLeftovers policy goal).view
  have hnode : ∀ p ∈ sortBy (fun p q => q.length ≤ p.length) added, p ∈ (pruneLeftovers policy goal).positions ∧
      p ∈ added := by
    intro p hp
    rw [mem_sortBy] at hp
    refine ⟨?_, hp⟩
    rw [← view_nodes]
    exact (List.mem_filter.1 hp).1
  have hsorted : (sortBy (fun p q => q.length ≤ p.length) added).Pairwise fun p q => q.length ≤ p.length := by
    refine (sortBy_pairwise (fun a b c hab hbc => ?_) (fun a b => ?_) added).imp fun {p q} hpq => ?_
    · simp only [decide_eq_true_iff] at *
      omega
    · simp only [Bool.or_eq_true, decide_eq_true_iff]
      omega
    · exact of_decide_eq_true hpq
  have hall : g₁.Holds (pruneLeftovers policy goal) (staysAfter policy added (pruneLeftovers policy goal) [])
      (name ∘ goal.origin (saysSomething policy goal)) := htrimmed.congr fun p _ _ => by simp [staysAfter]
  obtain ⟨h₂, hsame₂⟩ := hall.foldl_detachFrom _ hnode hsorted (fun _ _ _ hd => absurd hd List.not_mem_nil)
    fun p hp => .inr (mem_sortBy.2 hp)
  have hpruned := h₂.restrict
  rw [← detachFrom_eq_restrict] at hpruned
  have h₁part := pruneLeftovers_isPart policy goal
  refine ⟨_, _, ?_, (detachFrom_isPart policy (· ∈ added) _).trans h₁part, hpruned, hsame₁.trans (hsame₂.mono ?_)⟩
  · have hadded := addedByDepth_eq (hs.of_sameBut hsame₁ hapart) htrimmed
    have hroot : (name ∘ goal.origin (saysSomething policy goal)) [] = name [] := rfl
    rw [hroot] at hadded
    rw [Grove.prune, h.nodes, hg₁, ← hadded]
    rfl
  · intro n hn
    obtain ⟨p, hp, rfl⟩ := List.mem_map.1 hn
    exact List.mem_map_of_mem (h₁part.way_mem hp)

/-- Trees that are planted side by side can be pruned, and the start stays as it is. -/
theorem prune_side (policy : Policy) (start goal : Tree) :
    let (g, n, m) := side start goal
    ∃ g', g.prune policy n m = .ok g' ∧ g'.tree m = HintQuality.prune policy start goal ∧ g'.tree n = start := by
  obtain ⟨g, name', name, hside, hs, h, hapart⟩ := exists_stands_side start goal
  obtain ⟨g', way, hg', hpart, hpruned, hsame⟩ := hs.prune policy h hapart
  rw [hside]
  have hs' : g'.Stands start name' := hs.of_sameBut hsame hapart
  refine ⟨g', hg', ?_, hs'.tree⟩
  have htree := hpruned.tree
  rwa [Function.comp_apply, hpart.root] at htree

end HintQuality.Grove

namespace HintQuality

open HintQuality.Tree

/-- Pruning in place leaves the pruned tree. Nothing is taken out that carries intent, nor anything above it, and what
is left is as it was. There are no placeholders left below the root, and no attachments below nodes that were new, moved
or changed when the leftovers had been taken out. -/
theorem prune_keeps_intent (policy : Policy) (start goal : Tree) :
    let trimmed := pruneLeftovers policy goal
    let pruned := prune policy start goal
    let added := (Correspondence.of start.view trimmed.view).added start.view trimmed.view
    (let (g, n, m) := Grove.side start goal
      ∃ g', g.prune policy n m = .ok g' ∧ g'.tree m = pruned ∧ g'.tree n = start) ∧
    ∃ way₁ way₂ : Position → Position,
      trimmed.IsPart goal way₁ ∧ pruned.IsPart trimmed way₂ ∧ pruned.IsPart goal (way₁ ∘ way₂) ∧
      (∀ p ∈ goal.positions, p = [] ∨ CarriesIntent policy goal p → ∀ q, q <+: p →
        ∃ r ∈ pruned.positions, way₁ (way₂ r) = q) ∧
      (∀ r ∈ pruned.positions, r ≠ [] → (pruned.labelAt r).type ≠ emptyType) ∧
      ∀ r ∈ pruned.positions, r ≠ [] → way₂ r ∈ added → ∀ c ∈ pruned.view.children r, pruned.slotsAt c = [] →
        policy.trimIfParentIsAdded (pruned.labelAt c).type = false := by
  intro trimmed pruned added
  have h₁ := pruneLeftovers_isPart policy goal
  have h₂ : pruned.IsPart trimmed (trimmed.origin (staysAttached policy (· ∈ added) trimmed)) :=
    detachFrom_isPart policy _ trimmed
  have h := h₂.trans h₁
  refine ⟨Grove.prune_side policy start goal, _, _, h₁, h₂, h, fun p hp hintent q hq => ?_, fun r hr hne => ?_,
    fun r hr hne hadded c hc hslots => ?_⟩
  · -- the node is left by the first pass, then by the second, and with it the nodes above it
    obtain ⟨p₁, hp₁, rfl⟩ := exists_of_carriesIntent hp hintent
    have hstays : p₁ = [] ∨ policy.trimIfParentIsAdded (trimmed.labelAt p₁).type = false := by
      rcases hintent with he | hintent
      · exact .inl ((h₁.way_eq_nil_iff hp₁).1 he)
      · rw [h₁.label p₁ hp₁]
        exact .inr hintent.attached
    obtain ⟨p₂, hp₂, rfl⟩ : ∃ p₂ ∈ pruned.positions, _ = p₁ := exists_of_not_trimmed hp₁ hstays
    exact h.exists_above p₂ hp₂ hq
  · obtain ⟨v, hv⟩ := Option.isSome_iff_exists.1 (mem_positions.1 (h₂.way_mem hr))
    have hsays := not_isLeftover_of_pruneLeftovers hv (mt (h₂.way_eq_nil_iff hr).1 hne)
    rw [isLeftover, Bool.or_eq_false_iff] at hsays
    rw [h₂.label r hr, labelAt_of_subtree? hv]
    simpa using hsays.1
  · obtain ⟨i, rfl, hi⟩ := mem_children_slotsAt.1 hc
    obtain ⟨v, hv⟩ := Option.isSome_iff_exists.1 (mem_positions.1 hi)
    have hattached := not_isAttachment_of_detachFrom hv hne (by simpa using hadded)
    rw [slotsAt_eq_nil_iff hv] at hslots
    rw [labelAt_of_subtree? hv]
    simpa [isAttachment, hslots] using hattached

/-- A new loop keeps its variable and loses its literal, and goes on after a placeholder and an empty script. -/
theorem prune_keeps_intent_of_loop :
    let policy : Policy := { trimIfChildlessTypes := ["script"], trimIfParentIsAddedTypes := ["literal"] }
    let start : Tree := .leaf ⟨"script", none, some "s"⟩
    let goal : Tree := .node ⟨"script", none, some "s"⟩ [⟨"0", some (.leaf ⟨emptyType, none, none⟩)⟩,
      ⟨"1", some (.leaf ⟨"script", none, none⟩)⟩, ⟨"2", some (.node ⟨"loop", none, none⟩
        [⟨"0", some (.leaf ⟨"literal", some "3", none⟩)⟩, ⟨"1", some (.leaf ⟨"var", some "x", none⟩)⟩])⟩]
    let pruned := prune policy start goal
    (let (g, n, m) := Grove.side start goal
      ∃ g', g.prune policy n m = .ok g' ∧ g'.tree m = pruned) ∧
    ∃ way : Position → Position, pruned.IsPart goal way ∧ (∃ r ∈ pruned.positions, way r = [2, 1]) ∧
      (∃ r ∈ pruned.positions, way r = [2]) ∧ (∀ r ∈ pruned.positions, r ≠ [] → (pruned.labelAt r).type ≠ emptyType) ∧
      ∀ r ∈ pruned.positions, r ≠ [] → ∀ c ∈ pruned.view.children r, pruned.slotsAt c = [] →
        (pruned.labelAt c).type ≠ "literal" := by
  intro policy start goal pruned
  obtain ⟨⟨g', hg', htree, -⟩, way₁, way₂, -, h₂, h, hintent, hempty, hattached⟩ :=
    prune_keeps_intent policy start goal
  have hvar : CarriesIntent policy goal [2, 1] := by
    refine ⟨fun q hq hne => ?_, by decide, by decide⟩
    rcases List.prefix_concat_iff.1 (show q <+: [2] ++ [1] from hq) with rfl | hq
    · decide
    · rcases List.prefix_concat_iff.1 (show q <+: [] ++ [2] from hq) with rfl | hq
      · decide
      · exact absurd (List.prefix_nil.1 hq) hne
  have hstays := hintent [2, 1] (by decide) (.inr hvar)
  refine ⟨⟨g', hg', htree⟩, _, h, hstays _ List.prefix_rfl, hstays [2] (by decide), hempty,
    fun r hr hne c hc hslots htype => ?_⟩
  -- all nodes below the root are new
  have hadded : ∀ p ∈ (pruneLeftovers policy goal).positions, p ≠ [] →
      p ∈ (Correspondence.of start.view (pruneLeftovers policy goal).view).added start.view
        (pruneLeftovers policy goal).view := by decide +kernel
  have := hattached r hr hne (hadded _ (h₂.way_mem hr) (mt (h₂.way_eq_nil_iff hr).1 hne)) c hc hslots
  rw [htype] at this
  exact absurd this (by decide)

end HintQuality
