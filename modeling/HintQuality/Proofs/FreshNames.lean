import HintQuality.Proofs.Consistency
import HintQuality.Proofs.StableSort
/-!
# Fresh names

The names that a tool gives to new variables and blocks do not matter. Trees that differ in nothing but values and ids
that the start does not have (`SameUpToFresh`) have the same pairs, since pairing by ids passes over fresh ids
(`pairById_eq`) and values are aligned after the fresh ones are forgotten. So they have the same normal values and the
same normal form, and outcomes with such results are rated alike (`fresh_names_irrelevant`).
-/

namespace HintQuality

/-! ## Trees of one shape -/

namespace Tree

variable {a b : Tree}

theorem positions_eq_of_slotsAt (h : ∀ p ∈ a.positions, a.slotsAt p = b.slotsAt p) : a.positions = b.positions := by
  have hchild : ∀ {t : Tree} {p i}, p ++ [i] ∈ t.positions ↔ p ++ [i] ∈ Slots.children (t.slotsAt p) := by
    intro t p i
    rw [mem_children_slotsAt]
    exact ⟨fun ht => ⟨i, rfl, ht⟩, fun ht => ht.elim fun _ ht => ht.2⟩
  refine (pairwise_positions _).eq_of_mem_iff (pairwise_positions _) fun p => ?_
  induction p using List.reverseRecOn with
  | nil => exact iff_of_true a.nil_mem_positions b.nil_mem_positions
  | append_singleton p i ih =>
    by_cases hp : p ∈ a.positions
    · rw [hchild, hchild, h p hp]
    · exact iff_of_false (mt mem_positions_of_snoc hp) (mt mem_positions_of_snoc (mt ih.2 hp))

theorem skeleton_eq {p : Position} {u : Tree} (hu : a.subtree? p = some u) :
    u.skeleton = (a.labelAt p, (a.slotsAt p).map fun s => (s.relation, s.child.isSome)) := by
  refine Prod.ext (by simp [labelAt, hu, skeleton]) (List.ext_getElem? fun i => ?_)
  simp [skeleton, slotsAt_getElem?, hu, Function.comp_def]

/-- Trees with the same slots and labels everywhere are the same. -/
theorem ext_of_slotsAt (h : ∀ p ∈ a.positions, a.slotsAt p = b.slotsAt p)
    (hl : ∀ p ∈ a.positions, a.labelAt p = b.labelAt p) : a = b := by
  refine ext_of_skeleton fun p => ?_
  have hpos := positions_eq_of_slotsAt h
  cases ha : a.subtree? p with
  | none =>
    have hp : p ∉ b.positions := by rw [← hpos, mem_positions, ha]; exact Bool.false_ne_true
    rw [mem_positions, Option.not_isSome_iff_eq_none] at hp
    rw [hp]
  | some u =>
    have hp : p ∈ a.positions := by rw [mem_positions, ha]; rfl
    obtain ⟨v, hb⟩ := Option.isSome_iff_exists.1 (mem_positions.1 (hpos ▸ hp))
    rw [hb, Option.map_some, Option.map_some, skeleton_eq ha, skeleton_eq hb, h p hp, hl p hp]

end Tree

/-! ## What is fresh -/

section Fresh

variable {ν : Type}

/-- No value, or one that no node of the start has and that is not kept as a number. -/
def FreshValue (policy : Policy) (start : View ν) (value : Option String) : Prop :=
  ∀ x ∈ value, x ∉ start.values ∧ ¬(policy.specificNumericLiterals = true ∧ isNumeral x = true)

/-- No id, or one that no node of the start has. -/
def FreshId (start : View ν) (id : Option String) : Prop :=
  ∀ x ∈ id, ∀ n ∈ start.nodes, (start.label n).id ≠ some x

instance (policy : Policy) (start : View ν) (value : Option String) : Decidable (FreshValue policy start value) :=
  inferInstanceAs (Decidable (∀ x ∈ value, _))

instance (start : View ν) (id : Option String) : Decidable (FreshId start id) :=
  inferInstanceAs (Decidable (∀ x ∈ id, _))

theorem FreshValue.filter {policy : Policy} {start : View ν} {value : Option String}
    (h : FreshValue policy start value) : value.filter (keepsValue policy start.values) = none := by
  rw [Option.filter_eq_none_iff]
  intro x hx hkeep
  rw [keepsValue, Bool.or_eq_true, Bool.and_eq_true, decide_eq_true_iff] at hkeep
  rcases hkeep with hknown | hnumeral
  · exact (h x hx).1 hknown
  · exact (h x hx).2 hnumeral

theorem FreshId.withId {start : View ν} {id : Option String} (h : FreshId start id) {x : String} (hx : x ∈ id) :
    start.withId x = [] :=
  List.filter_eq_nil_iff.2 fun n hn => by simpa using h x hx n hn

namespace Pairing

variable {μ : Type} [DecidableEq ν] {start : View ν} {goal a b : View μ}

/-- Nothing is paired by an id that is fresh. -/
theorem pairById_of_freshId {m : μ} (h : FreshId start (goal.label m).id) (ps : Pairing μ ν) :
    pairById start goal ps m = ps := by
  unfold pairById
  split
  · rfl
  · rename_i x hx
    split
    · rename_i k n hk hn
      rw [h.withId hx] at hn
      cases hn
    · rfl

/-- Fresh ids do not matter where nodes are paired by ids. -/
theorem pairById_eq (hnodes : a.nodes = b.nodes) (hid : ∀ m, (a.label m).id = (b.label m).id ∨
    FreshId start (a.label m).id ∧ FreshId start (b.label m).id) : pairById start a = pairById start b := by
  have hwith : ∀ {x n}, n ∈ start.nodes → (start.label n).id = some x → a.withId x = b.withId x := by
    intro x n hn hx
    have hknown : ∀ {i}, FreshId start i → i ≠ some x := fun hi e => hi x e n hn hx
    unfold View.withId
    rw [hnodes]
    refine List.filter_congr fun k _ => ?_
    rcases hid k with heq | ⟨ha, hb⟩
    · rw [heq]
    · rw [decide_eq_false (hknown ha), decide_eq_false (hknown hb)]
  funext ps m
  rcases hid m with heq | ⟨ha, hb⟩
  · by_cases hfresh : FreshId start (b.label m).id
    · rw [pairById_of_freshId hfresh, pairById_of_freshId (by rwa [heq])]
    · -- an id that is not fresh is found in the start, and then at the same nodes of both trees
      unfold FreshId at hfresh
      push Not at hfresh
      obtain ⟨x, hx, n, hn, hnx⟩ := hfresh
      have hbx : (b.label m).id = some x := hx
      simp only [pairById, heq, hbx, hwith hn hnx]
  · rw [pairById_of_freshId ha, pairById_of_freshId hb]

end Pairing

end Fresh

/-- Trees of the same shape, types and relation labels and with the same root. Below it their values and ids are the
same too, except where both trees have fresh ones. -/
structure SameUpToFresh (policy : Policy) (start a b : Tree) : Prop where
  /-- The slots have the same relation labels, and the same ones are taken. -/
  slots : ∀ p ∈ a.positions, a.slotsAt p = b.slotsAt p
  /-- The roots have the same type, value and id. -/
  root : a.label = b.label
  /-- The types are the same. -/
  type : ∀ p ∈ a.positions, (a.labelAt p).type = (b.labelAt p).type
  /-- The values are the same or both fresh. -/
  value : ∀ p ∈ a.positions, p ≠ [] → (a.labelAt p).value = (b.labelAt p).value ∨
    FreshValue policy start.view (a.labelAt p).value ∧ FreshValue policy start.view (b.labelAt p).value
  /-- The ids are the same or both fresh. -/
  id : ∀ p ∈ a.positions, p ≠ [] → (a.labelAt p).id = (b.labelAt p).id ∨
    FreshId start.view (a.labelAt p).id ∧ FreshId start.view (b.labelAt p).id

/-! ## Trees with fresh names -/

section ForgetValues

variable (policy : Policy) (known : List String) (t : Tree) (p : Position)

theorem slotsAt_forgetValues : (forgetValues policy known t).slotsAt p = t.slotsAt p :=
  Tree.slotsAt_mapLabels _ t p

theorem labelAt_forgetValues : (forgetValues policy known t).labelAt p = forgetValue policy known p (t.labelAt p) := by
  by_cases hp : p ∈ t.positions
  · exact Tree.labelAt_mapLabels _ hp
  · have hp' : p ∉ (forgetValues policy known t).positions := by rwa [forgetValues, Tree.positions_mapLabels]
    rw [Tree.labelAt_of_not_mem hp, Tree.labelAt_of_not_mem hp', forgetValue]
    simp

theorem type_forgetValues : ((forgetValues policy known t).labelAt p).type = (t.labelAt p).type := by
  rw [labelAt_forgetValues, forgetValue]
  split <;> rfl

theorem id_forgetValues : ((forgetValues policy known t).labelAt p).id = (t.labelAt p).id := by
  rw [labelAt_forgetValues, forgetValue]
  split <;> rfl

end ForgetValues

namespace SameUpToFresh

variable {policy : Policy} {start a b : Tree}

theorem refl (t : Tree) : SameUpToFresh policy start t t :=
  ⟨fun _ _ => rfl, rfl, fun _ _ => rfl, fun _ _ _ => .inl rfl, fun _ _ _ => .inl rfl⟩

variable (h : SameUpToFresh policy start a b)
include h

theorem labelAt_root : a.labelAt [] = b.labelAt [] := h.root

theorem positions : a.positions = b.positions :=
  Tree.positions_eq_of_slotsAt h.slots

theorem labelAt_of_not_mem {p : Position} (hp : p ∉ a.positions) : a.labelAt p = b.labelAt p := by
  rw [Tree.labelAt_of_not_mem hp, Tree.labelAt_of_not_mem (h.positions ▸ hp)]

/-- Fresh values are forgotten, and the others are the same. -/
theorem value_forgetValues (p : Position) : ((forgetValues policy start.view.values a).labelAt p).value =
    ((forgetValues policy start.view.values b).labelAt p).value := by
  rw [labelAt_forgetValues, labelAt_forgetValues, forgetValue, forgetValue]
  by_cases hroot : p = []
  · rw [hroot, h.labelAt_root]
  · by_cases hp : p ∈ a.positions
    · rw [if_neg (by simpa using hroot), if_neg (by simpa using hroot)]
      rcases h.value p hp hroot with heq | ⟨ha, hb⟩
      · exact congrArg (Option.filter _) heq
      · exact ha.filter.trans hb.filter.symm
    · rw [h.labelAt_of_not_mem hp]

theorem type_labelAt (p : Position) : (a.labelAt p).type = (b.labelAt p).type := by
  by_cases hp : p ∈ a.positions
  · exact h.type p hp
  · rw [h.labelAt_of_not_mem hp]

theorem id_labelAt (p : Position) : (a.labelAt p).id = (b.labelAt p).id ∨
    FreshId start.view (a.labelAt p).id ∧ FreshId start.view (b.labelAt p).id := by
  by_cases hroot : p = []
  · rw [hroot, h.labelAt_root]
    exact .inl rfl
  · by_cases hp : p ∈ a.positions
    · exact h.id p hp hroot
    · rw [h.labelAt_of_not_mem hp]
      exact .inl rfl

theorem slots_forgetValues (p : Position) : (forgetValues policy start.view.values a).slotsAt p =
    (forgetValues policy start.view.values b).slotsAt p := by
  rw [slotsAt_forgetValues, slotsAt_forgetValues]
  by_cases hp : p ∈ a.positions
  · exact h.slots p hp
  · rw [Tree.slotsAt_of_not_mem hp, Tree.slotsAt_of_not_mem (h.positions ▸ hp)]

/-- Without the fresh values, the trees are the same up to ids. -/
theorem sameUpToIds : (forgetValues policy start.view.values a).view.SameUpToIds
    (forgetValues policy start.view.values b).view := by
  have hpositions := Tree.positions_eq_of_slotsAt fun p _ => h.slots_forgetValues p
  refine ⟨rfl, congrArg List.tail hpositions, ?_, fun p => ?_, h.value_forgetValues⟩
  · funext p
    exact congrArg Slots.children (h.slots_forgetValues p)
  · show ((forgetValues policy start.view.values a).labelAt p).type = _
    rw [type_forgetValues, h.type_labelAt, ← type_forgetValues policy start.view.values b p]
    rfl

/-- Without the fresh values, the trees have the same pairs. -/
theorem pairing : Pairing.of start.view (forgetValues policy start.view.values a).view =
    Pairing.of start.view (forgetValues policy start.view.values b).view := by
  refine h.sameUpToIds.pairing (Pairing.pairById_eq h.sameUpToIds.nodes fun p => ?_)
  have hid := h.id_labelAt p
  rw [← id_forgetValues policy start.view.values a, ← id_forgetValues policy start.view.values b] at hid
  exact hid

/-- Trees that differ in fresh names only have the same normal values. -/
theorem normalizeValues : normalizeValues policy start a = normalizeValues policy start b := by
  refine Tree.ext_of_slotsAt (fun p _ => ?_) fun p hp => ?_
  · show ((forgetValues policy start.view.values a).mapLabels _).slotsAt p =
      ((forgetValues policy start.view.values b).mapLabels _).slotsAt p
    rw [Tree.slotsAt_mapLabels, Tree.slotsAt_mapLabels, h.slots_forgetValues]
  · have ha : p ∈ (forgetValues policy start.view.values a).positions := by
      rwa [HintQuality.normalizeValues, normalizeValuesAgainst, adoptIds, Tree.positions_mapLabels] at hp
    have hb : p ∈ (forgetValues policy start.view.values b).positions := by
      rwa [← Tree.positions_eq_of_slotsAt fun p _ => h.slots_forgetValues p]
    have htype : ((forgetValues policy start.view.values a).labelAt p).type =
        ((forgetValues policy start.view.values b).labelAt p).type := h.sameUpToIds.type p
    have hpairs : (Correspondence.of start.view (forgetValues policy start.view.values a).view).pairs =
        (Correspondence.of start.view (forgetValues policy start.view.values b).view).pairs := h.pairing
    show ((forgetValues policy start.view.values a).mapLabels _).labelAt p =
      ((forgetValues policy start.view.values b).mapLabels _).labelAt p
    rw [Tree.labelAt_mapLabels _ ha, Tree.labelAt_mapLabels _ hb, adoptId, adoptId]
    by_cases he : p = []
    · subst he
      rw [if_pos List.isEmpty_nil, if_pos List.isEmpty_nil, labelAt_forgetValues, labelAt_forgetValues, h.labelAt_root]
    · rw [if_neg (by simpa using he), if_neg (by simpa using he), htype, h.value_forgetValues, hpairs]

theorem normalForm : normalForm policy start a = normalForm policy start b :=
  congrArg (prune policy start) h.normalizeValues

end SameUpToFresh

/-! ## Rating outcomes with fresh names -/

variable {ω : Type}

/-- Verdicts with the same match on outcomes that are related. -/
structure SameVerdict (related : Outcome ω → Outcome ω → Prop) (r r' : Rating ω) : Prop where
  /-- The outcomes are related. -/
  outcome : related r.outcome r'.outcome
  /-- The hint is the same. -/
  candidate : r.candidate = r'.candidate
  /-- The match is as close. -/
  matchType : r.matchType = r'.matchType

section Rate

variable {policy : Policy} {start : Tree} {hints : List TutorHint} {related : Outcome ω → Outcome ω → Prop}
  (hstart : ∀ h ∈ hints, h.requestTree = some start)
include hstart

/-- Full matches look at normal forms only. -/
theorem full_sameRun {o o' : Outcome ω} (ho : related o o')
    (hform : Option.Rel (fun a b => normalForm policy start a = normalForm policy start b) o.result o'.result) :
    SameRun (Option.Rel (SameVerdict related)) (Matching.full policy hints o) (Matching.full policy hints o') := by
  cases hints with
  | nil => exact .result (.some ⟨ho, rfl, rfl⟩)
  | cons first rest =>
    have hfirst : first.requestTree = some start := hstart first List.mem_cons_self
    rw [Matching.full, Matching.full, hfirst]
    generalize o.result = t, o'.result = t' at hform ⊢
    cases hform with
    | none => exact .failure _
    | some h =>
      simp only [Matching.need_some, pure_bind, Matching.firstEqual_congr h]
      refine (SameRun.refl _).bind fun c c' hc => ?_
      subst hc
      cases c with
      | none => exact .result .none
      | some c => exact .result (.some ⟨ho, rfl, rfl⟩)

variable (hrelated : ∀ o o', related o o' → Option.Rel (SameUpToFresh policy start) o.result o'.result)
include hrelated

omit hstart in
theorem normalForm_of_related {o o' : Outcome ω} (ho : related o o') :
    Option.Rel (fun a b => normalForm policy start a = normalForm policy start b) o.result o'.result := by
  have hres := hrelated o o' ho
  generalize o.result = t, o'.result = t' at hres ⊢
  cases hres with
  | none => exact .none
  | some h => exact .some h.normalForm

theorem overlap_eq_of_related {style : ColorStyle} {o o' : Outcome ω} (ho : related o o') :
    Matching.overlap policy style hints o = Matching.overlap policy style hints o' := by
  have hres := hrelated o o' ho
  cases hints with
  | nil => rfl
  | cons first rest =>
    have hfirst : first.requestTree = some start := hstart first List.mem_cons_self
    rw [Matching.overlap, Matching.overlap, hfirst]
    generalize o.result = t, o'.result = t' at hres ⊢
    cases hres with
    | none => rfl
    | some h => simp only [Matching.need_some, pure_bind, h.normalizeValues]

theorem partialMatch_sameRun {o o' : Outcome ω} (ho : related o o') : SameRun (SameVerdict related)
    (Matching.partialMatch policy .none hints o) (Matching.partialMatch policy .none hints o') := by
  rw [Matching.partialMatch, Matching.partialMatch, overlap_eq_of_related hstart hrelated ho]
  refine (SameRun.refl _).map fun v v' hv => ?_
  subst hv
  cases v <;> exact ⟨ho, rfl, rfl⟩

/-- Full matches are settled alike, and related outcomes are left over. -/
theorem settleFull_sameRun {os os' : List (Outcome ω)} (hos : List.Forall₂ related os os') :
    SameRun (fun s s' => List.Forall₂ (SameVerdict related) s.1 s'.1 ∧ List.Forall₂ related s.2 s'.2)
      (settleFull policy hints os) (settleFull policy hints os') := by
  induction hos with
  | nil => exact .result ⟨.nil, .nil⟩
  | cons ho _ ih =>
    refine (full_sameRun hstart ho (normalForm_of_related hrelated ho)).bind fun r r' hr => ih.bind fun s s' hs => ?_
    cases hr with
    | none => exact .result ⟨hs.1, .cons ho hs.2⟩
    | some hr => exact .result ⟨.cons hr hs.1, hs.2⟩

theorem rateRequest_sameRun {os os' : List (Outcome ω)} (hos : List.Forall₂ related os os')
    (assignmentId requestId : String) :
    SameRun (Option.Rel fun r r' => List.Forall₂ (SameVerdict related) r.ratings r'.ratings)
      (rateRequest assignmentId requestId hints os policy).result
      (rateRequest assignmentId requestId hints os' policy).result := by
  cases hratable : isRatable policy hints with
  | false =>
    rw [rateRequest, rateRequest, hratable]
    exact .result .none
  | true =>
    rw [result_rateRequest_eq hratable, result_rateRequest_eq hratable]
    refine (settleFull_sameRun hstart hrelated hos).bind fun s s' hs => ?_
    have hothers := SameRun.mapM hs.2 fun o o' ho => partialMatch_sameRun hstart hrelated ho
    refine hothers.map fun others others' ho => .some ?_
    -- precedence looks at the hints only
    have hprecedes : ∀ a b a' b' : Rating ω, SameVerdict related a b → SameVerdict related a' b' →
        a.precedes a' = b.precedes b' := by
      intro a b a' b' hab hab'
      simp only [Rating.precedes, Rating.hint?, hab.candidate, hab'.candidate]
    exact forall₂_sortBy hprecedes (List.rel_append hs.1 ho)

end Rate

/-- Whatever names a tool gives to new variables and blocks, normal values and normal forms are the same, and so are
the matches of outcomes, or the failure of their rating. -/
theorem fresh_names_irrelevant {policy : Policy} {start a b : Tree} (h : SameUpToFresh policy start a b) :
    normalizeValues policy start a = normalizeValues policy start b ∧
      normalForm policy start a = normalForm policy start b ∧
        ∀ (related : Outcome ω → Outcome ω → Prop) (hints : List TutorHint) (os os' : List (Outcome ω))
          (assignmentId requestId : String), (∀ h ∈ hints, h.requestTree = some start) →
            (∀ o o', related o o' → o.result = some a ∧ o'.result = some b ∨ o.result = o'.result) →
              List.Forall₂ related os os' →
                SameRun (Option.Rel fun r r' => List.Forall₂ (SameVerdict related) r.ratings r'.ratings)
                  (rateRequest assignmentId requestId hints os policy).result
                  (rateRequest assignmentId requestId hints os' policy).result := by
  refine ⟨h.normalizeValues, h.normalForm, ?_⟩
  intro related hints os os' assignmentId requestId hstart hrelated hos
  refine rateRequest_sameRun hstart (fun o o' ho => ?_) hos assignmentId requestId
  rcases hrelated o o' ho with ⟨ha, hb⟩ | heq
  · rw [ha, hb]
    exact .some h
  · rw [heq]
    cases o'.result with
    | none => exact .none
    | some t => exact .some (SameUpToFresh.refl t)

/-- Two tools that name a new variable and a new block differently are rated alike. -/
theorem fresh_names_irrelevant_of_set :
    let start : Tree := .node ⟨"script", none, some "s"⟩ [⟨"0", some (.leaf ⟨"move", none, some "m"⟩)⟩]
    let a : Tree := .node ⟨"script", none, some "s"⟩
      [⟨"0", some (.leaf ⟨"move", none, some "m"⟩)⟩, ⟨"1", some (.leaf ⟨"set", some "x", some "new"⟩)⟩]
    let b : Tree := .node ⟨"script", none, some "s"⟩
      [⟨"0", some (.leaf ⟨"move", none, some "m"⟩)⟩, ⟨"1", some (.leaf ⟨"set", some "y", none⟩)⟩]
    let hint : TutorHint :=
      { hintId := 1, requestId := "r", assignmentId := "a", year := "y", requestTree := some start,
        result := some b, validity := .multipleTutors }
    let o : Outcome Nat := { result := some a, assignmentId := "a", requestId := "r", weight := 1, id := .int 1 }
    let o' : Outcome Nat := { o with result := some b }
    let related : Outcome Nat → Outcome Nat → Prop := fun p p' => p = o ∧ p' = o'
    a ≠ b ∧ normalForm {} start a = normalForm {} start b ∧
      SameRun (Option.Rel fun r r' => List.Forall₂ (SameVerdict related) r.ratings r'.ratings)
        (rateRequest "a" "r" [hint] [o] {}).result (rateRequest "a" "r" [hint] [o'] {}).result := by
  intro start a b hint o o' related
  have h : SameUpToFresh {} start a b := by
    refine ⟨?_, rfl, ?_, ?_, ?_⟩ <;> decide +kernel
  obtain ⟨-, hform, hrate⟩ := fresh_names_irrelevant h
  refine ⟨by decide +kernel, hform, ?_⟩
  refine hrate related [hint] [o] [o'] "a" "r" ?_ ?_ (.cons ⟨rfl, rfl⟩ .nil)
  · exact List.forall_mem_singleton.2 rfl
  · rintro _ _ ⟨rfl, rfl⟩
    exact .inl ⟨rfl, rfl⟩

end HintQuality
