import HintQuality.Proofs.ChildLabels
import HintQuality.Proofs.NormalizingInPlace
/-!
# Ids by number

Giving ids to all nodes of a tree keeps the ids that there are, and a node without one gets the stem with the number of
ids given out before it (`Grove.GivesIds`, `Grove.ids_given`). A node that stands in several places gets its id
where it is met first. What is given out are the numbers from zero on (`perm_numbered`), whatever ids there are. So the
ids may be the same afterwards although all that were there before were different: they are different exactly if no
number that is given out was taken (`nodup_numbered_iff`).

Visiting the nodes one after the other, with a count of the ids given so far, comes to the same
(`Grove.foldl_assignId`).
-/

namespace HintQuality

open Text

/-! ## Numbering a list -/

section Lists

variable {stem : String}

/-- A missing id is made of the stem and the number of ids that were missing before. -/
theorem getElem?_numbered_of_none {n i : Nat} {ids : List (Option String)} (h : ids[i]? = some none) :
    (numbered stem n ids)[i]? = some (stem ++ natText (n + (ids.take i).count none)) := by
  induction ids generalizing n i with
  | nil => simp at h
  | cons y ids ih =>
    cases i with
    | zero =>
      have hy : y = none := by simpa using h
      subst hy
      simp [numbered]
    | succ i =>
      have ih := fun k => ih (n := k) (i := i) (by simpa using h)
      cases y with
      | none => simp [numbered, ih, Nat.add_assoc, Nat.add_comm 1]
      | some x => simp [numbered, ih]

/-- The ids are those that were there and one for each number that is given out. -/
theorem perm_numbered (n : Nat) (ids : List (Option String)) : (numbered stem n ids).Perm
    (ids.filterMap id ++ (List.range' n (ids.count none)).map fun k => stem ++ natText k) := by
  induction ids generalizing n with
  | nil => exact .nil
  | cons y ids ih =>
    cases y with
    | some x => simpa [numbered] using (ih n).cons x
    | none =>
      rw [numbered, List.count_cons_self, List.range'_succ, List.map_cons]
      exact ((ih (n + 1)).cons _).trans List.perm_middle.symm

/-- The ids are different if those that were there are and no number that is given out was taken. -/
theorem nodup_numbered_iff {n : Nat} {ids : List (Option String)} : (numbered stem n ids).Nodup ↔
    (ids.filterMap id).Nodup ∧ ∀ k, n ≤ k → k < n + ids.count none → some (stem ++ natText k) ∉ ids := by
  have hgiven : ((List.range' n (ids.count none)).map fun k => stem ++ natText k).Nodup :=
    List.Nodup.map (append_natText_injective stem) List.nodup_range'
  rw [(perm_numbered n ids).nodup_iff, List.nodup_append, and_iff_right hgiven]
  refine and_congr_right fun _ => ⟨fun h k hk hlt hmem => ?_, fun h x hx y hy hxy => ?_⟩
  · refine h _ (List.mem_filterMap.2 ⟨_, hmem, rfl⟩) _ (List.mem_map_of_mem ?_) rfl
    exact List.mem_range'_1.2 ⟨hk, hlt⟩
  · obtain ⟨k, hk, rfl⟩ := List.mem_map.1 hy
    obtain ⟨o, ho, rfl⟩ := List.mem_filterMap.1 hx
    rw [hxy] at ho
    exact h k (List.mem_range'_1.1 hk).1 (List.mem_range'_1.1 hk).2 ho

theorem eraseDups_eq_self {α : Type} [DecidableEq α] : ∀ {xs : List α}, xs.Nodup → xs.eraseDups = xs
  | [], _ => rfl
  | x :: xs, h => by
    obtain ⟨hx, hd⟩ := List.nodup_cons.1 h
    have hfilter : (xs.filter fun y => !y == x) = xs := List.filter_eq_self.2 fun y hy => by
      simpa using ne_of_mem_of_not_mem hy hx
    rw [List.eraseDups_cons, hfilter, eraseDups_eq_self hd]

/-- What stands beside an element is found. -/
theorem lookup_zip_of_getElem? {α β : Type} [BEq α] [LawfulBEq α] {ms : List α} {xs : List β} {i : Nat} {m : α} {x : β}
    (hd : ms.Nodup) (hm : ms[i]? = some m) (hx : xs[i]? = some x) : (ms.zip xs).lookup m = some x := by
  induction ms generalizing xs i with
  | nil => simp at hm
  | cons k ms ih =>
    cases xs with
    | nil => simp at hx
    | cons y xs =>
      cases i with
      | zero =>
        obtain rfl : k = m := by simpa using hm
        obtain rfl : y = x := by simpa using hx
        simp
      | succ i =>
        rw [List.getElem?_cons_succ] at hm hx
        have hne : m ≠ k := ne_of_mem_of_not_mem (List.mem_of_getElem? hm) (List.nodup_cons.1 hd).1
        rw [List.zip_cons_cons, List.lookup_cons, beq_false_of_ne hne]
        exact ih (List.nodup_cons.1 hd).2 hm hx

end Lists

namespace Grove

variable {g : Grove} {stem : String}

/-! ## Giving out ids -/

/-- The nodes below a node, each where it is met first. -/
def members (g : Grove) (n : Nat) : List Nat :=
  (g.nodes n).eraseDups

/-- The ids of the nodes below a node. -/
def ids (g : Grove) (n : Nat) : List (Option String) :=
  (g.members n).map fun m => (g.label m).id

/-- Gives ids to nodes. -/
def setIds (g : Grove) (given : List (Nat × String)) : Grove :=
  given.foldl (fun g p => g.relabel p.1 fun l => { l with id := some p.2 }) g

theorem autoId_eq (g : Grove) (n : Nat) (stem : String) :
    g.autoId n stem = g.setIds ((g.members n).zip (numbered stem 0 (g.ids n))) :=
  rfl

/-- Nodes that are told apart get the ids that are meant for them. -/
theorem maps_setIds (given : List (Nat × String)) (hd : (given.map Prod.fst).Nodup) : ∀ g : Grove,
    g.Maps (g.setIds given) fun m p =>
      { p with label := { p.label with id := (given.lookup m).or p.label.id } } := by
  induction given with
  | nil =>
    intro g m
    simp [setIds]
  | cons x given ih =>
    intro g
    obtain ⟨n, y⟩ := x
    obtain ⟨hn, hd⟩ := List.nodup_cons.1 hd
    have hrest := (maps_relabel g n fun l => { l with id := some y }).trans (ih hd _)
    refine hrest.congr fun m p _ => ?_
    by_cases hm : m = n
    · have hlookup : given.lookup n = none := List.lookup_eq_none_iff.2 fun z hz => by
        simpa using fun e : n = z.1 => hn (List.mem_map.2 ⟨z, hz, e.symm⟩)
      simp [hm, hlookup]
    · simp [hm, List.lookup_cons, beq_false_of_ne hm]

/-! ## Visiting the nodes -/

/-- What a visit does: a node without an id gets the stem with the number of ids given so far. -/
def assignId (stem : String) (state : Grove × Nat) (m : Nat) : Grove × Nat :=
  match (state.1.label m).id with
  | some _ => state
  | none => (state.1.relabel m fun l => { l with id := some (stem ++ natText state.2) }, state.2 + 1)

theorem label_relabel_self {m : Nat} (hm : m < g.size) (f : Label → Label) :
    (g.relabel m f).label m = f (g.label m) := by
  rw [label, maps_relabel g m f m, label, List.getElem?_eq_getElem hm]
  simp

theorem label_relabel_of_ne {k m : Nat} (hk : k ≠ m) (f : Label → Label) : (g.relabel m f).label k = g.label k := by
  rw [label, maps_relabel g m f k, label, Option.map_map]
  simp [Function.comp_def, hk]

theorem relabel_eq_self {m : Nat} {f : Label → Label} (hf : f (g.label m) = g.label m) : g.relabel m f = g := by
  refine congrArg Grove.mk (List.ext_getElem? fun k => ?_)
  have h := maps_relabel g m f k
  refine h.trans ?_
  cases hp : g.plants[k]? with
  | none => rfl
  | some p =>
    by_cases hk : k = m
    · subst hk
      rw [label, hp] at hf
      simpa using congrArg (fun l => { p with label := l }) hf
    · simp [hk]

@[simp] theorem size_relabel (m : Nat) (f : Label → Label) : (g.relabel m f).size = g.size :=
  List.length_modify _ _ _

/-- A visit leaves ids that there are. -/
theorem id_assignId {state : Grove × Nat} {k m : Nat} {x : String} (h : (state.1.label m).id = some x) :
    ((assignId stem state k).1.label m).id = some x := by
  unfold assignId
  split
  · exact h
  · rename_i hk
    have hne : m ≠ k := by
      rintro rfl
      rw [h] at hk
      cases hk
    rw [label_relabel_of_ne hne, h]

theorem assignId_of_some {state : Grove × Nat} {m : Nat} {x : String} (h : (state.1.label m).id = some x) :
    assignId stem state m = state := by
  rw [assignId, h]

/-- Further visits to a node that has an id do nothing. -/
theorem foldl_assignId_filter {m : Nat} {x : String} (visits : List Nat) {state : Grove × Nat}
    (h : (state.1.label m).id = some x) : visits.foldl (assignId stem) state =
      (visits.filter fun k => !k == m).foldl (assignId stem) state := by
  induction visits generalizing state with
  | nil => rfl
  | cons k visits ih =>
    by_cases hk : k = m
    · subst hk
      rw [List.foldl_cons, assignId_of_some h, ih h]
      simp
    · rw [List.foldl_cons, List.filter_cons_of_pos (by simpa using hk), List.foldl_cons]
      exact ih (id_assignId h)

theorem label_relabel_map {m : Nat} {visits : List Nat} (hm : m ∉ visits) (f : Label → Label) :
    (visits.map fun k => ((g.relabel m f).label k).id) = visits.map fun k => (g.label k).id :=
  List.map_congr_left fun _ hk => by rw [label_relabel_of_ne (ne_of_mem_of_not_mem hk hm)]

/-- Visiting nodes, each as often as it is met, gives each one the id that it gets where it is met first. -/
theorem foldl_assignId : ∀ (visits : List Nat) (g : Grove) (k : Nat), (∀ m ∈ visits, m < g.size) →
    visits.foldl (assignId stem) (g, k) =
      (g.setIds (visits.eraseDups.zip (numbered stem k (visits.eraseDups.map fun m => (g.label m).id))),
        k + (visits.eraseDups.map fun m => (g.label m).id).count none)
  | [], g, k, _ => by simp [setIds]
  | m :: visits, g, k, hsize => by
    have hm : m < g.size := hsize m List.mem_cons_self
    have hrest : ∀ n ∈ visits.filter fun n => !n == m, n < g.size := fun n hn =>
      hsize n (List.mem_cons_of_mem _ (List.mem_filter.1 hn).1)
    rw [List.eraseDups_cons, List.map_cons, List.foldl_cons]
    cases hid : (g.label m).id with
    | some x =>
      have hsame : (g.relabel m fun l => { l with id := some x }) = g := relabel_eq_self (by rw [← hid])
      rw [assignId_of_some hid, foldl_assignId_filter visits hid, foldl_assignId _ g k hrest, numbered,
        List.zip_cons_cons, setIds, setIds, List.foldl_cons, hsame, List.count_cons_of_ne (by simp)]
    | none =>
      let f : Label → Label := fun l => { l with id := some (stem ++ natText k) }
      have hvisit : assignId stem (g, k) m = (g.relabel m f, k + 1) := by rw [assignId, hid]
      have hnew : ((g.relabel m f).label m).id = some (stem ++ natText k) := by rw [label_relabel_self hm]
      have hnot : m ∉ (visits.filter fun n => !n == m).eraseDups := by simp
      rw [hvisit, foldl_assignId_filter visits hnew, foldl_assignId _ _ _ (by simpa using hrest),
        label_relabel_map hnot, numbered, List.zip_cons_cons, setIds, setIds, List.foldl_cons, List.count_cons_self]
      refine Prod.ext rfl ?_
      simp only
      omega
termination_by visits => visits.length
decreasing_by
  all_goals
    have := List.length_filter_le (fun n => !n == m) visits
    simp only [List.length_cons]
    omega

/-! ## All ids of a tree -/

/-- What counts for the nodes below a node are the slots. -/
theorem walkWithin_congr {g' : Grove} (hslots : ∀ n, g'.slots n = g.slots n) (fuel : Nat) :
    ∀ way n, g'.walkWithin fuel way n = g.walkWithin fuel way n := by
  induction fuel with
  | zero => exact fun _ _ => rfl
  | succ fuel ih =>
    intro way n
    simp only [walkWithin, hslots, ih]

theorem nodup_members (g : Grove) (n : Nat) : (g.members n).Nodup :=
  nodup_eraseDups _

theorem mem_members {m n : Nat} : m ∈ g.members n ↔ m ∈ g.nodes n :=
  List.mem_eraseDups

theorem maps_autoId (g : Grove) (n : Nat) (stem : String) : g.Maps (g.autoId n stem) fun m p =>
    { p with label := { p.label with
      id := (((g.members n).zip (numbered stem 0 (g.ids n))).lookup m).or p.label.id } } := by
  have hlength : (g.members n).length ≤ (numbered stem 0 (g.ids n)).length := by
    rw [length_numbered, ids, List.length_map]
  have hnodes : ((g.members n).zip (numbered stem 0 (g.ids n))).map Prod.fst = g.members n := List.map_fst_zip hlength
  exact maps_setIds _ (hnodes ▸ nodup_members g n) g

theorem slots_autoId (g : Grove) (n : Nat) (stem : String) (m : Nat) : (g.autoId n stem).slots m = g.slots m := by
  rw [slots, maps_autoId g n stem m, slots, Option.map_map]
  rfl

theorem size_autoId (g : Grove) (n : Nat) (stem : String) : (g.autoId n stem).size = g.size := by
  rw [autoId_eq]
  generalize (g.members n).zip (numbered stem 0 (g.ids n)) = given
  induction given generalizing g with
  | nil => rfl
  | cons x given ih => rw [setIds, List.foldl_cons, ← setIds, ih, size_relabel]

theorem nodes_autoId (g : Grove) (n : Nat) (stem : String) (m : Nat) : (g.autoId n stem).nodes m = g.nodes m := by
  rw [nodes, walk, walkWithin_congr (slots_autoId g n stem), size_autoId]
  rfl

/-- The id that a node gets. -/
theorem id_autoId {n m i : Nat} {x : String} (hm : (g.members n)[i]? = some m) (hsize : m < g.size)
    (hx : (numbered stem 0 (g.ids n))[i]? = some x) : ((g.autoId n stem).label m).id = some x := by
  have hplant : g.plants[m]? = some g.plants[m] := List.getElem?_eq_getElem hsize
  rw [label, (maps_autoId g n stem).eq_some hplant]
  simp [lookup_zip_of_getElem? (nodup_members g n) hm hx]

/-- What giving ids to the tree below a node does. -/
structure GivesIds (g g' : Grove) (n : Nat) (stem : String) : Prop where
  /-- The nodes are the same. -/
  nodes : g'.nodes n = g.nodes n
  /-- Nothing but ids changes. -/
  others : g.Maps g' fun m p => { p with label := { p.label with id := (g'.label m).id } }
  /-- Nothing changes elsewhere. -/
  elsewhere : ∀ m, m ∉ g.nodes n → g'.plants[m]? = g.plants[m]?
  /-- Every node has an id. -/
  all : ∀ m ∈ g.nodes n, ((g'.label m).id).isSome
  /-- Ids that there are stay. -/
  kept : ∀ m ∈ g.nodes n, ∀ x, (g.label m).id = some x → (g'.label m).id = some x
  /-- A missing id is made of the stem and the number of ids missing before. -/
  made : ∀ i m, (g.members n)[i]? = some m → (g.label m).id = none →
    (g'.label m).id = some (stem ++ natText (((g.ids n).take i).count none))
  /-- The ids are different exactly if those that were there are and no number that is given out was taken. -/
  distinct : (g'.ids n).Nodup ↔ ((g.ids n).filterMap id).Nodup ∧
    ∀ k, k < (g.ids n).count none → some (stem ++ natText k) ∉ g.ids n
  /-- Visiting the nodes one after the other does the same. -/
  visits : (g.nodes n).foldl (assignId stem) (g, 0) = (g', (g.ids n).count none)

theorem autoId_givesIds {n : Nat} (hsize : ∀ m ∈ g.nodes n, m < g.size) (stem : String) :
    g.GivesIds (g.autoId n stem) n stem := by
  have hids : ∀ {i m}, (g.members n)[i]? = some m → (g.ids n)[i]? = some (g.label m).id := fun h => by
    rw [ids, List.getElem?_map, h]
    rfl
  have hid : ∀ {i m x}, (g.members n)[i]? = some m → (numbered stem 0 (g.ids n))[i]? = some x →
      ((g.autoId n stem).label m).id = some x := fun h hx =>
    id_autoId h (hsize _ (mem_members.1 (List.mem_of_getElem? h))) hx
  have hkept : ∀ m ∈ g.nodes n, ∀ x, (g.label m).id = some x → ((g.autoId n stem).label m).id = some x := by
    intro m hm x hx
    obtain ⟨i, hi⟩ := List.mem_iff_getElem?.1 (mem_members.2 hm)
    exact hid hi (getElem?_numbered_of_some (by rw [hids hi, hx]))
  have hmade : ∀ i m, (g.members n)[i]? = some m → (g.label m).id = none →
      ((g.autoId n stem).label m).id = some (stem ++ natText (((g.ids n).take i).count none)) := by
    intro i m hi hm
    rw [← Nat.zero_add (((g.ids n).take i).count none)]
    exact hid hi (getElem?_numbered_of_none ((hids hi).trans (congrArg some hm)))
  have hall : (g.autoId n stem).ids n = (numbered stem 0 (g.ids n)).map some := by
    refine List.ext_getElem? fun i => ?_
    rw [ids, members, nodes_autoId, ← members, List.getElem?_map, List.getElem?_map]
    cases hi : (g.members n)[i]? with
    | none =>
      rw [List.getElem?_eq_none_iff] at hi
      rw [List.getElem?_eq_none (by rwa [length_numbered, ids, List.length_map])]
      rfl
    | some m =>
      have hlt : i < (numbered stem 0 (g.ids n)).length := by
        rw [length_numbered]
        exact (List.getElem?_eq_some_iff.1 (hids hi)).1
      rw [List.getElem?_eq_getElem hlt, Option.map_some, Option.map_some, hid hi (List.getElem?_eq_getElem hlt)]
  refine ⟨nodes_autoId g n stem n, ?_, fun m hm => ?_, fun m hm => ?_, hkept, hmade,
    ?_, ?_⟩
  · refine (maps_autoId g n stem).congr fun m p hp => ?_
    rw [label, (maps_autoId g n stem).eq_some hp]
    rfl
  · have hlookup : ((g.members n).zip (numbered stem 0 (g.ids n))).lookup m = none := by
      refine List.lookup_eq_none_iff.2 fun x hx => ?_
      have hne : m ≠ x.1 := fun e => hm (mem_members.1 (e ▸ (List.of_mem_zip hx).1))
      simpa using hne
    refine (maps_autoId g n stem m).trans ?_
    simp [hlookup]
  · obtain ⟨i, hi⟩ := List.mem_iff_getElem?.1 (mem_members.2 hm)
    cases hx : (g.label m).id with
    | some x => rw [hkept m hm x hx]; rfl
    | none => rw [hmade i m hi hx]; rfl
  · rw [hall, List.nodup_map_iff (Option.some_injective _), nodup_numbered_iff]
    simp
  · exact foldl_assignId (g.nodes n) g 0 hsize |>.trans (by simp [ids, members, autoId_eq])

end Grove

/-! ## Ids of a planted tree -/

namespace Tree

mutual

theorem map_subtree?_positionsFrom {t : Tree} : ∀ {u : Tree} {here : Position}, t.subtree? here = some u →
    (u.positionsFrom here).map t.subtree? = u.nodes.map some
  | node l s, here, h => by
    have hslots : ∀ i r u, s[i]? = some ⟨r, some u⟩ → t.subtree? (here ++ [0 + i]) = some u := by
      intro i r u hu
      rw [subtree?_append, h, Nat.zero_add, Option.bind_some, subtree?, slots, hu]
      rfl
    rw [positionsFrom, nodes, List.map_cons, List.map_cons, h, map_subtree?_slotPositions hslots]

theorem map_subtree?_slotPositions {t : Tree} {here : Position} : ∀ {s : List (Slot Tree)} {n : Nat},
    (∀ i r u, s[i]? = some ⟨r, some u⟩ → t.subtree? (here ++ [n + i]) = some u) →
      (slotPositions here n s).map t.subtree? = (slotNodes s).map some
  | [], _, _ => rfl
  | ⟨_, none⟩ :: s, n, h => by
    rw [slotPositions, slotNodes]
    refine map_subtree?_slotPositions fun i r u hu => ?_
    rw [Nat.add_assoc, Nat.add_comm 1]
    exact h (i + 1) r u (by simpa using hu)
  | ⟨q, some v⟩ :: s, n, h => by
    have hrest : ∀ i r u, s[i]? = some ⟨r, some u⟩ → t.subtree? (here ++ [n + 1 + i]) = some u := fun i r u hu => by
      rw [Nat.add_assoc, Nat.add_comm 1]
      exact h (i + 1) r u (by simpa using hu)
    have hfirst : t.subtree? (here ++ [n]) = some v := h 0 q v rfl
    rw [slotPositions, slotNodes, List.map_append, List.map_append, map_subtree?_positionsFrom hfirst,
      map_subtree?_slotPositions hrest]

end

/-- The nodes are met in the order of their positions. -/
theorem map_label_nodes (t : Tree) : t.nodes.map label = t.positions.map t.labelAt := by
  have hroot : t.subtree? [] = some t := rfl
  have h := congrArg (List.map fun u => (u.map label).getD { type := emptyType }) (map_subtree?_positionsFrom hroot)
  rw [List.map_map, List.map_map] at h
  exact (List.map_congr_left fun _ _ => rfl).trans (h.symm.trans (List.map_congr_left fun _ _ => rfl))

end Tree

namespace Grove

variable {g : Grove} {stem : String}

/-- A tree that stands in a grove gets its ids in place. -/
theorem Stands.autoId {t : Tree} {name : Position → Nat} (h : g.Stands t name) (stem : String) :
    (g.autoId (name []) stem).Stands (t.autoId stem) name := by
  have hmembers : g.members (name []) = t.positions.map name := by
    rw [members, h.nodes]
    exact eraseDups_eq_self (t.nodup_positions.map_on fun p hp q hq => h.injective p hp q hq)
  have hids : g.ids (name []) = t.nodes.map fun u => u.label.id := by
    have hlabels := congrArg (List.map Label.id) t.map_label_nodes
    rw [List.map_map, List.map_map] at hlabels
    rw [ids, hmembers, List.map_map]
    refine Eq.trans (List.map_congr_left fun p hp => ?_) hlabels.symm
    rw [Function.comp_apply, h.label hp]
    rfl
  have hpositions : (t.autoId stem).positions = t.positions := Tree.positions_mapLabels _ t
  refine ⟨fun p hp q hq => h.injective p (hpositions ▸ hp) q (hpositions ▸ hq), fun p hp => ?_⟩
  rw [hpositions] at hp
  obtain ⟨i, hi⟩ := List.mem_iff_getElem?.1 hp
  have hlt : i < (numbered stem 0 (g.ids (name []))).length := by
    rw [length_numbered, ids, List.length_map, hmembers, List.length_map]
    exact (List.getElem?_eq_some_iff.1 hi).1
  obtain ⟨x, hx⟩ : ∃ x, (numbered stem 0 (g.ids (name [])))[i]? = some x := ⟨_, List.getElem?_eq_getElem hlt⟩
  have hgiven := lookup_zip_of_getElem? (g.nodup_members _) (by rw [hmembers, List.getElem?_map, hi]; rfl) hx
  rw [hids] at hx
  have hmeant := lookup_zip_of_getElem? t.nodup_positions hi hx
  have hlabel : (t.autoId stem).labelAt p = { t.labelAt p with id := some x } :=
    (Tree.labelAt_mapLabels _ hp).trans (by rw [hmeant])
  have hslots : (t.autoId stem).slotsAt p = t.slotsAt p := Tree.slotsAt_mapLabels _ t p
  rw [(maps_autoId g (name []) stem).eq_some (h.plant p hp), plantAt_true, plantAt_true, hlabel, hslots, hgiven]
  rfl

/-- Giving ids to the nodes below a node numbers those without one, and of a tree that stands there it makes the tree
with ids. -/
theorem ids_given {n : Nat} (hsize : ∀ m ∈ g.nodes n, m < g.size) (stem : String) :
    g.GivesIds (g.autoId n stem) n stem ∧
      ∀ t name, g.Stands t name → name [] = n → (g.autoId n stem).Stands (t.autoId stem) name := by
  refine ⟨autoId_givesIds hsize stem, fun t name h hn => ?_⟩
  rw [← hn]
  exact h.autoId stem

/-- A node that stands in two places and has no id gets one where it is met first. -/
theorem ids_given_of_shared :
    let g : Grove := ⟨[⟨⟨"script", none, none⟩, [⟨"0", some 1⟩, ⟨"1", some 2⟩], none⟩,
      ⟨⟨"loop", none, some "n7"⟩, [⟨"0", some 2⟩, ⟨"1", none⟩], some 0⟩, ⟨⟨"move", none, none⟩, [], some 0⟩]⟩
    (∀ m ∈ g.nodes 0, m < g.size) ∧ g.GivesIds (g.autoId 0 "n") 0 "n" ∧
      (g.autoId 0 "n").ids 0 = [some "n0", some "n7", some "n1"] := by
  intro g
  have hsize : ∀ m ∈ g.nodes 0, m < g.size := by decide
  exact ⟨hsize, (ids_given hsize "n").1, by decide +kernel⟩

/-- An id that was there is given out once more. -/
theorem ids_clash :
    let t : Tree := .node ⟨"script", none, none⟩ [⟨"0", some (.leaf ⟨"move", none, some "n0"⟩)⟩]
    let (g, n) := graft t {}
    ((g.ids n).filterMap id).Nodup ∧ (g.autoId n "n").ids n = [some "n0", some "n0"] ∧
      ¬((g.autoId n "n").ids n).Nodup := by
  decide +kernel

end Grove

end HintQuality
