import HintQuality.Proofs.Pairing
/-!
# Renaming nodes

What nodes are called does not matter when trees are compared. Where the nodes of the start and those of the goal are
renamed without two of them getting one name, lists of siblings are aligned as before (`align_map`,
`Pairing.childPairs_map`). If the whole of both trees is renamed (`View.Renamed`), all pairs, start nodes, moves and
added nodes are those from before under their new names (`View.Renamed.pairing`, `View.Renamed.table`,
`View.Renamed.correspondence`, `View.Renamed.added`).
-/

namespace HintQuality

/-! ## Aligning renamed lists -/

/-- A segment with the elements of both lists renamed. -/
def Segment.map {α β γ δ : Type} (k : α → γ) (f : β → δ) : Segment α β → Segment γ δ
  | same pairs => same (pairs.map (Prod.map k f))
  | changed old new => changed (old.map k) (new.map f)

namespace Align

variable {α β γ δ : Type} {agree : α → β → Bool} {agree' : γ → δ → Bool} {k : α → γ} {f : β → δ}
  (h : ∀ a b, agree' (k a) (f b) = agree a b)
include h

theorem commonLength_map (as : List α) (bs : List β) :
    commonLength agree' (as.map k) (bs.map f) = commonLength agree as bs := by
  induction as generalizing bs with
  | nil => cases bs <;> rfl
  | cons a as ih =>
    cases bs with
    | nil => rfl
    | cons b bs => simp only [List.map_cons, commonLength, h, ih]

theorem scanRow_map (as : List α) (i j : Nat) (bs : List β) (best : Block) :
    scanRow agree' (as.map k) i j (bs.map f) best = scanRow agree as i j bs best := by
  induction bs generalizing j best with
  | nil => rfl
  | cons b bs ih =>
    have hlen : commonLength agree' (as.map k) (f b :: bs.map f) = commonLength agree as (b :: bs) :=
      commonLength_map h as (b :: bs)
    simp only [List.map_cons, scanRow, hlen, ih]

theorem scan_map (bs : List β) (i : Nat) (as : List α) (best : Block) :
    scan agree' (bs.map f) i (as.map k) best = scan agree bs i as best := by
  induction as generalizing i best with
  | nil => rfl
  | cons a as ih =>
    have hrow : scanRow agree' (k a :: as.map k) i 0 (bs.map f) best = scanRow agree (a :: as) i 0 bs best :=
      scanRow_map h (a :: as) i 0 bs best
    rw [List.map_cons, scan, scan, hrow, ih]

theorem alignWithin_map (fuel : Nat) (as : List α) (bs : List β) :
    alignWithin agree' fuel (as.map k) (bs.map f) = (alignWithin agree fuel as bs).map (Segment.map k f) := by
  induction fuel generalizing as bs with
  | zero =>
    simp only [alignWithin, List.isEmpty_map]
    split <;> rfl
  | succ fuel ih =>
    have hblock : longestBlock agree' (as.map k) (bs.map f) = longestBlock agree as bs := scan_map h bs 0 as ⟨0, 0, 0⟩
    simp only [alignWithin, hblock, List.isEmpty_map, ← List.map_take, ← List.map_drop, ih]
    split
    · split <;> rfl
    · rw [List.map_append, List.map_cons, Segment.map, List.zip_map]

end Align

/-- Renaming both lists renames them in the alignment. -/
theorem align_map {α β γ δ : Type} {agree : α → β → Bool} {agree' : γ → δ → Bool} {k : α → γ} {f : β → δ}
    (h : ∀ a b, agree' (k a) (f b) = agree a b) (as : List α) (bs : List β) :
    align agree' (as.map k) (bs.map f) = (align agree as bs).map (Segment.map k f) := by
  rw [align, List.length_map]
  exact Align.alignWithin_map h as.length as bs

/-! ## Pairing renamed children -/

variable {μ μ' ν ν' : Type}

namespace Pairing

variable {start : View ν} {start' : View ν'} {goal : View μ} {goal' : View μ'} {f : μ → μ'} {k : ν → ν'}

theorem segmentPairs_map (hstart : ∀ n, (start'.label (k n)).type = (start.label n).type)
    (hgoal : ∀ m, (goal'.label (f m)).type = (goal.label m).type) (s : Segment ν μ) :
    segmentPairs start' goal' (s.map k f) = (segmentPairs start goal s).map (Prod.map f k) := by
  cases s with
  | same pairs => simp [segmentPairs, Segment.map, Function.comp_def]
  | changed old new =>
    simp only [segmentPairs, Segment.map, List.zip_map, List.filter_map, List.map_map, List.length_map]
    refine congrArg₂ _ (funext fun _ => rfl) (List.filter_congr fun p _ => ?_)
    simp [hstart, hgoal]

/-- Renamed children are aligned alike, if the same ones are alone. -/
theorem childPairs_map [DecidableEq μ] [DecidableEq μ'] [DecidableEq ν] [DecidableEq ν'] {ps : Pairing μ ν}
    {ps' : Pairing μ' ν'} {m : μ} {n : ν} (hstart : ∀ n, start'.label (k n) = start.label n)
    (hgoal : ∀ m, goal'.label (f m) = goal.label m) (hd : start'.children (k n) = (start.children n).map k)
    (hc : goal'.children (f m) = (goal.children m).map f)
    (htaken : ∀ d ∈ start.children n, ps'.isTaken (k d) = ps.isTaken d)
    (hpartner : ∀ c ∈ goal.children m, (ps'.partner? (f c)).isNone = (ps.partner? c).isNone) :
    childPairs start' goal' ps' (f m) (k n) = (childPairs start goal ps m n).map (Prod.map f k) := by
  have hsame : ∀ d c, sameContent start' goal' (k d) (f c) = sameContent start goal d c := by
    intro d c
    simp only [sameContent, hstart, hgoal]
  have hstartKids : ((start.children n).map k).filter (fun d => !ps'.isTaken d) =
      ((start.children n).filter fun d => !ps.isTaken d).map k := by
    rw [List.filter_map]
    exact congrArg _ (List.filter_congr fun d hd => congrArg (!·) (htaken d hd))
  have hgoalKids : ((goal.children m).map f).filter (fun c => (ps'.partner? c).isNone) =
      ((goal.children m).filter fun c => (ps.partner? c).isNone).map f := by
    rw [List.filter_map]
    exact congrArg _ (List.filter_congr hpartner)
  simp only [childPairs, hd, hc, hstartKids, hgoalKids]
  rw [align_map hsame, List.flatMap_map, List.map_flatMap]
  simp only [segmentPairs_map (fun n => congrArg Label.type (hstart n)) fun m => congrArg Label.type (hgoal m)]

section OutOfOrder

variable [DecidableEq μ] [DecidableEq μ'] [DecidableEq ν] [DecidableEq ν'] {ps : Pairing μ ν} {ps' : Pairing μ' ν'}
  {moved : List μ} {moved' : List μ'} {m : μ} (hc : goal'.children (f m) = (goal.children m).map f)
  (hplace : ∀ n, ∀ c ∈ goal.children m,
    (ps'.partner? (f c)).bind (start'.lastSlot? (k n)) = (ps.partner? c).bind (start.lastSlot? n))
  (hmoved : ∀ c ∈ goal.children m, f c ∈ moved' ↔ c ∈ moved)
include hc hplace hmoved

/-- Renamed children are kept with the slots that they had. -/
theorem keptChildren_map (n : ν) : keptChildren start' goal' ps' moved' (f m) (k n) =
    (keptChildren start goal ps moved m n).map (Prod.map f id) := by
  unfold keptChildren
  rw [hc, List.filterMap_map, List.map_filterMap]
  refine List.filterMap_congr fun c hmem => ?_
  rw [Function.comp_apply, hplace n c hmem]
  by_cases hc : c ∈ moved
  · rw [if_pos hc, if_pos ((hmoved c hmem).2 hc)]
    rfl
  · rw [if_neg hc, if_neg (mt (hmoved c hmem).1 hc), Option.map_map]
    rfl

/-- Renamed children are out of order alike, if the same ones moved and their partners have the same places. -/
theorem outOfOrder_map (hm : ps'.partner? (f m) = (ps.partner? m).map k) :
    outOfOrder start' goal' ps' moved' (f m) = (outOfOrder start goal ps moved m).map f := by
  unfold outOfOrder
  rw [hm]
  cases ps.partner? m with
  | none => rfl
  | some n =>
    simp only [Option.map_some, keptChildren_map hc hplace hmoved, List.map_map, List.zipIdx_map, List.filter_map,
      Function.comp_def, Prod.map_snd, Prod.map_fst, id]

end OutOfOrder

end Pairing

/-! ## Renaming whole trees -/

/-- The second view is the first one with its nodes renamed. -/
structure View.Renamed (v : View ν) (v' : View ν') (k : ν → ν') : Prop where
  /-- Nodes keep apart. -/
  injective : Function.Injective k
  /-- The root. -/
  root : v'.root = k v.root
  /-- The nodes below it, in the same order. -/
  descendants : v'.descendants = v.descendants.map k
  /-- Nodes keep their labels, -/
  label : ∀ n, v'.label (k n) = v.label n
  /-- their slots, -/
  slots : ∀ n, v'.slots (k n) = (v.slots n).map (Slot.map k)
  /-- and their parents. -/
  parent : ∀ n ∈ v.nodes, v'.parent (k n) = (v.parent n).map k

namespace Pairing

variable [DecidableEq μ] [DecidableEq μ'] [DecidableEq ν] [DecidableEq ν'] {f : μ → μ'} {k : ν → ν'}

omit [DecidableEq ν] [DecidableEq ν'] in
theorem partner?_map (hf : Function.Injective f) (ps : Pairing μ ν) (m : μ) :
    partner? (ps.map (Prod.map f k)) (f m) = (ps.partner? m).map k := by
  induction ps with
  | nil => rfl
  | cons p ps ih =>
    unfold partner? at *
    rw [List.map_cons, List.lookup_cons, List.lookup_cons, Prod.map_fst, Prod.map_snd, ih]
    by_cases hm : m = p.1
    · rw [hm, beq_self_eq_true, beq_self_eq_true]
      rfl
    · rw [beq_false_of_ne hm, beq_false_of_ne (hf.ne hm)]

omit [DecidableEq μ] [DecidableEq μ'] in
theorem isTaken_map (hk : Function.Injective k) (ps : Pairing μ ν) (n : ν) :
    isTaken (ps.map (Prod.map f k)) (k n) = ps.isTaken n := by
  rw [isTaken, isTaken, List.any_map]
  refine congrArg (List.any ps) (funext fun p => ?_)
  simp [hk.eq_iff]

end Pairing

namespace View.Renamed

section One

variable {v : View ν} {v' : View ν'} {k : ν → ν'} (h : v.Renamed v' k)
include h

theorem nodes : v'.nodes = v.nodes.map k := by
  rw [View.nodes, View.nodes, h.root, h.descendants, List.map_cons]

theorem children (n : ν) : v'.children (k n) = (v.children n).map k := by
  rw [View.children, h.slots, View.children, Slots.children, Slots.children, List.filterMap_map, List.map_filterMap]
  rfl

theorem withId (x : String) : v'.withId x = (v.withId x).map k := by
  rw [View.withId, View.withId, h.nodes, List.filter_map]
  refine congrArg _ (List.filter_congr fun n _ => ?_)
  rw [Function.comp_apply, h.label]

theorem lastSlot? [DecidableEq ν] [DecidableEq ν'] (p n : ν) : v'.lastSlot? (k p) (k n) = v.lastSlot? p n := by
  have hchild : ∀ s : Slot ν × Nat, decide ((s.1.map k).child = some (k n)) = decide (s.1.child = some n) := by
    intro s
    simp [Slot.map, h.injective.eq_iff]
  rw [View.lastSlot?, View.lastSlot?, h.slots, List.zipIdx_map, List.filter_map, List.getLast?_map, Option.map_map]
  simp only [Function.comp_def, Prod.map_fst, Prod.map_snd, hchild]
  rfl

end One

variable [DecidableEq μ] [DecidableEq μ'] [DecidableEq ν] [DecidableEq ν'] {start : View ν} {start' : View ν'}
  {goal : View μ} {goal' : View μ'} {k : ν → ν'} {f : μ → μ'} (hs : start.Renamed start' k) (hg : goal.Renamed goal' f)
include hs hg

omit [DecidableEq μ] [DecidableEq μ'] in
theorem pairById (ps : Pairing μ ν) (m : μ) : Pairing.pairById start' goal' (ps.map (Prod.map f k)) (f m) =
    (Pairing.pairById start goal ps m).map (Prod.map f k) := by
  unfold Pairing.pairById
  rw [hg.label]
  cases (goal.label m).id with
  | none => rfl
  | some x =>
    simp only [hg.withId, hs.withId]
    rcases goal.withId x with _ | ⟨m', _ | ⟨m'', ms⟩⟩
    · rfl
    · rcases start.withId x with _ | ⟨n, _ | ⟨n', ns⟩⟩
      · rfl
      · simp only [List.map_cons, List.map_nil, Pairing.isTaken_map hs.injective]
        split <;> rfl
      · rfl
    · rfl

theorem pairChildren (ps : Pairing μ ν) (m : μ) : Pairing.pairChildren start' goal' (ps.map (Prod.map f k)) (f m) =
    (Pairing.pairChildren start goal ps m).map (Prod.map f k) := by
  unfold Pairing.pairChildren
  rw [Pairing.partner?_map hg.injective]
  cases ps.partner? m with
  | none => rfl
  | some n =>
    have hpairs : Pairing.childPairs start' goal' (ps.map (Prod.map f k)) (f m) (k n) =
        (Pairing.childPairs start goal ps m n).map (Prod.map f k) :=
      Pairing.childPairs_map hs.label hg.label (hs.children n) (hg.children m)
        (fun d _ => Pairing.isTaken_map hs.injective ps d) fun c _ => by
          rw [Pairing.partner?_map hg.injective, Option.isNone_map]
    simp only [Option.map_some, hpairs, List.map_append, List.map_reverse]

/-- The pairs are the same under the new names. -/
theorem pairing : Pairing.of start' goal' = (Pairing.of start goal).map (Prod.map f k) := by
  have hroots : Pairing.ofRoots start' goal' = (Pairing.ofRoots start goal).map (Prod.map f k) := by
    rw [Pairing.ofRoots, Pairing.ofRoots, hs.root, hg.root]
    rfl
  rw [Pairing.of, Pairing.of, Pairing.addStructure, Pairing.addStructure, Pairing.addIds, Pairing.addIds, hroots,
    hg.descendants, hg.nodes, List.foldl_map, List.foldl_map]
  rw [List.foldl_hom (List.map (Prod.map f k)) (hs.pairById hg),
    List.foldl_hom (List.map (Prod.map f k)) (hs.pairChildren hg)]

theorem partner? (m : μ) : (Correspondence.of start' goal').partner? (f m) =
    ((Correspondence.of start goal).partner? m).map k := by
  show (Pairing.of start' goal').partner? (f m) = _
  rw [hs.pairing hg, Pairing.partner?_map hg.injective]
  rfl

/-- Start nodes are found alike. -/
theorem table : (Correspondence.of start' goal').table goal' =
    ((Correspondence.of start goal).table goal).map (Prod.map f (Option.map k)) := by
  rw [Correspondence.table, Correspondence.table, hg.nodes, List.map_map, List.map_map]
  refine List.map_congr_left fun m _ => ?_
  rw [Function.comp_apply, hs.partner? hg]
  rfl

/-- Parents change alike. -/
theorem changedParent (hsl : start.Lawful) (hgl : goal.Lawful) {m : μ} (hm : m ∈ goal.nodes) :
    Pairing.changedParent start' goal' (Pairing.of start' goal') (f m) =
      Pairing.changedParent start goal (Pairing.of start goal) m := by
  unfold Pairing.changedParent
  rw [hs.pairing hg, Pairing.partner?_map hg.injective, hg.parent m hm]
  cases hn : (Pairing.of start goal).partner? m with
  | none => rfl
  | some n =>
    have hnode : n ∈ start.nodes := (Pairing.mem_nodes_of hsl hgl (Pairing.mem_of_partner? hn)).2
    have hparent : ((goal.parent m).map f).bind (Pairing.partner? ((Pairing.of start goal).map (Prod.map f k))) =
        ((goal.parent m).bind (Pairing.of start goal).partner?).map k := by
      cases goal.parent m with
      | none => rfl
      | some p => exact Pairing.partner?_map hg.injective _ p
    rw [Option.map_some, hparent]
    simp only [hs.parent n hnode]
    cases (goal.parent m).bind (Pairing.of start goal).partner? with
    | none => rfl
    | some p => simp [Option.map_eq_some_iff, hs.injective.eq_iff]

/-- Siblings are out of order alike. -/
theorem outOfOrder (ps : Pairing μ ν) (moved : List μ) (m : μ) :
    Pairing.outOfOrder start' goal' (ps.map (Prod.map f k)) (moved.map f) (f m) =
      (Pairing.outOfOrder start goal ps moved m).map f := by
  refine Pairing.outOfOrder_map (hg.children m) (fun n c _ => ?_)
    (fun c _ => List.mem_map_of_injective hg.injective) (Pairing.partner?_map hg.injective ps m)
  rw [Pairing.partner?_map hg.injective]
  cases ps.partner? c with
  | none => rfl
  | some d => exact hs.lastSlot? n d

/-- The moves are the same under the new names. -/
theorem correspondence (hsl : start.Lawful) (hgl : goal.Lawful) :
    Correspondence.of start' goal' = ⟨(Pairing.of start goal).map (Prod.map f k),
      ((Pairing.of start goal).moves start goal).map f⟩ := by
  have hdisplaced : goal'.descendants.filter (Pairing.changedParent start' goal' (Pairing.of start' goal')) =
      (goal.descendants.filter (Pairing.changedParent start goal (Pairing.of start goal))).map f := by
    rw [hg.descendants, List.filter_map]
    exact congrArg _ (List.filter_congr fun m hm => hs.changedParent hg hsl hgl (View.Lawful.mem_nodes hm))
  unfold Correspondence.of
  refine congrArg₂ _ (hs.pairing hg) ?_
  rw [Pairing.moves, hdisplaced, hg.nodes, List.foldl_map, Pairing.moves, hs.pairing hg]
  rw [List.foldl_hom (List.map f)]
  intro moved m
  rw [List.map_append, hs.outOfOrder hg]

/-- The added nodes are the same under the new names. -/
theorem added (hsl : start.Lawful) (hgl : goal.Lawful) :
    (Correspondence.of start' goal').added start' goal' = ((Correspondence.of start goal).added start goal).map f := by
  rw [Correspondence.added, Correspondence.added, hg.nodes, List.filter_map]
  refine congrArg _ (List.filter_congr fun m _ => ?_)
  have hmoved : (Correspondence.of start' goal').hasMoved (f m) = (Correspondence.of start goal).hasMoved m := by
    rw [hs.correspondence hg hsl hgl]
    simp only [Correspondence.hasMoved, List.mem_map_of_injective hg.injective]
    rfl
  rw [Function.comp_apply, Correspondence.isAdded, Correspondence.isAdded, hs.partner? hg, hmoved]
  cases (Correspondence.of start goal).partner? m with
  | none => rfl
  | some n => simp only [Option.map_some, hs.label, hg.label]

end View.Renamed

end HintQuality
