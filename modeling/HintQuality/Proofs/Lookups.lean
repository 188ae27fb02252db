import HintQuality.Gold.Groups
import HintQuality.Proofs.Grouping
import Mathlib.Data.List.Basic
import Mathlib.Data.Prod.Lex
import Mathlib.Data.String.Basic
/-!
# Gold standards lose nothing

A gold standard lists its hints as they were given, but sorted by assignment and request (`isStableSort_allHints`), and
a standard that is built from that list is asked the same and answers the same (`lookups_allHints`). Which hints a
request has decides everything that can be asked (`lookups_congr`), so it is enough to follow these through merging and
filtering. Keeping the hints in a table of tables gives the same answers (`lookups_ofHints`): what stands under a key
in the end is made of the elements with that key alone, in their order (`Keyed.get_collect`), for the outer table as
for the inner ones.
-/

namespace HintQuality

/-! ## Tables -/

namespace Keyed

variable {α β : Type} {d : β} {k : String}

theorem get_nil : get d [] k = d := rfl

theorem get_cons {k' : String} {b : β} {t : Keyed β} : get d ((k', b) :: t) k = if k' = k then b else get d t k := by
  rw [get, List.lookup_cons]
  by_cases hk : k' = k
  · subst hk
    simp
  · have hk' : (k == k') = false := beq_false_of_ne (Ne.symm hk)
    rw [hk', if_neg hk, get]

/-- Changing the value of a key leaves the other keys alone. -/
theorem get_update (f : β → β) (t : Keyed β) (k' : String) :
    get d (update d f t k') k = if k' = k then f (get d t k) else get d t k := by
  induction t with
  | nil =>
    rw [update, get_cons, get_nil]
  | cons e t ih =>
    obtain ⟨k₀, b⟩ := e
    rw [update]
    by_cases hk₀ : k₀ = k'
    · subst hk₀
      rw [if_pos rfl, get_cons, get_cons]
      split_ifs <;> rfl
    · rw [if_neg hk₀, get_cons, get_cons, ih]
      by_cases hk : k₀ = k
      · have hk' : ¬k' = k := fun h => hk₀ (hk.trans h.symm)
        rw [if_pos hk, if_neg hk', if_pos hk]
      · rw [if_neg hk, if_neg hk]

theorem mem_keys_update (f : β → β) (t : Keyed β) (k' : String) : k ∈ keys (update d f t k') ↔ k ∈ keys t ∨ k = k' := by
  induction t with
  | nil => simp [update, keys]
  | cons e t ih =>
    obtain ⟨k₀, b⟩ := e
    rw [update]
    by_cases hk₀ : k₀ = k'
    · subst hk₀
      rw [if_pos rfl]
      simp only [keys, List.map_cons, List.mem_cons]
      tauto
    · rw [if_neg hk₀]
      simp only [keys, List.map_cons, List.mem_cons] at ih ⊢
      rw [ih, or_assoc]

section Collect

variable {key : α → String} {put : β → α → β} {xs : List α}

/-- What stands under a key is made of the elements with that key, in their order. -/
theorem get_collect (k : String) : get d (collect key d put xs) k = (xs.filter (key · = k)).foldl put d := by
  have hfold : ∀ t : Keyed β, get d (xs.foldl (fun t x => update d (put · x) t (key x)) t) k =
      (xs.filter (key · = k)).foldl put (get d t k) := by
    induction xs with
    | nil => exact fun _ => rfl
    | cons x xs ih =>
      intro t
      rw [List.foldl_cons, ih, get_update, List.filter_cons]
      by_cases hk : key x = k
      · rw [if_pos hk, if_pos (decide_eq_true hk), List.foldl_cons]
      · rw [if_neg hk, if_neg (by simpa using hk)]
  exact hfold []

theorem mem_keys_collect : k ∈ keys (collect key d put xs) ↔ k ∈ xs.map key := by
  have hfold : ∀ t : Keyed β, k ∈ keys (xs.foldl (fun t x => update d (put · x) t (key x)) t) ↔
      k ∈ keys t ∨ k ∈ xs.map key := by
    induction xs with
    | nil => simp
    | cons x xs ih =>
      intro t
      rw [List.foldl_cons, ih, mem_keys_update, List.map_cons, List.mem_cons, or_assoc]
  rw [collect, hfold]
  simp [keys]

end Collect

/-- Changing all values changes the value of each key. -/
theorem get_map {γ : Type} (g : β → γ) (t : Keyed β) :
    get (g d) (t.map fun a => (a.1, g a.2)) k = g (get d t k) := by
  induction t with
  | nil => rfl
  | cons a t ih =>
    rw [List.map_cons, get_cons, ih, get_cons]
    split_ifs <;> rfl

theorem keys_sortKeys (t : Keyed β) : keys (sortKeys d t) = sortedTexts t.keys := by
  rw [keys, sortKeys, List.map_map]
  exact List.map_id _

theorem get_eq_of_not_mem {t : Keyed β} (h : k ∉ keys t) : get d t k = d := by
  induction t with
  | nil => rfl
  | cons a t ih =>
    rw [keys, List.map_cons, List.mem_cons, not_or] at h
    rw [get_cons, if_neg (Ne.symm h.1)]
    exact ih h.2

/-- Sorting the keys keeps what they stand for. -/
theorem get_sortKeys (t : Keyed β) : get d (sortKeys d t) k = get d t k := by
  by_cases hk : k ∈ keys t
  · rw [get, sortKeys, List.lookup_graph _ (mem_sortedTexts.2 hk)]
    rfl
  · have hk' : k ∉ keys (sortKeys d t) := by
      rwa [keys_sortKeys, mem_sortedTexts]
    rw [get_eq_of_not_mem hk, get_eq_of_not_mem hk']

end Keyed

/-! ## What can be asked -/

/-- All that a collection of hints can be asked for. -/
@[ext]
structure Lookups where
  /-- The assignments, in order. -/
  assignmentIds : List String
  /-- The requests of an assignment, in order. -/
  requestIds : String → List String
  /-- The hints for a request, in order. -/
  validHints : String → String → List TutorHint
  /-- All hints, in order. -/
  allHints : List TutorHint

/-- The answers of hints in groups. -/
def HintGroups.lookups (g : HintGroups) : Lookups :=
  ⟨g.assignmentIds, g.requestIds, g.validHints, g.allHints⟩

namespace GoldStandard

/-- The answers of a gold standard. -/
def lookups (g : GoldStandard) : Lookups :=
  ⟨g.assignmentIds, g.requestIds, g.validHints, g.allHints⟩

variable {g g' : GoldStandard} {a r : String}

theorem mem_keys_iff : (a, r) ∈ g.hints.map TutorHint.key ↔ g.validHints a r ≠ [] := by
  rw [List.mem_map]
  constructor
  · rintro ⟨h, hh, hkey⟩
    exact List.ne_nil_of_mem (mem_validHints.2 ⟨hh, hkey⟩)
  · intro hne
    obtain ⟨h, hh⟩ := List.exists_mem_of_ne_nil _ hne
    exact ⟨h, mem_validHints.1 hh⟩

/-- The hints of the requests decide all answers. -/
theorem lookups_congr (hvalid : ∀ a r, g.validHints a r = g'.validHints a r) : g.lookups = g'.lookups := by
  have hkeys : ∀ k, k ∈ g.hints.map TutorHint.key ↔ k ∈ g'.hints.map TutorHint.key := by
    rintro ⟨a, r⟩
    rw [mem_keys_iff, mem_keys_iff, hvalid]
  have hassignments := assignmentIds_of_keys hkeys
  have hrequestIds := requestIds_of_keys hkeys
  have hrequests : g.requests = g'.requests := by
    simp only [requests, hassignments, hrequestIds]
  ext1
  · exact hassignments
  · exact funext hrequestIds
  · exact funext fun a => funext fun r => hvalid a r
  · show g.allHints = g'.allHints
    simp only [allHints, hrequests, hvalid]

/-! ## Listing all hints -/

/-- A request has the same hints when a standard is built from all hints of another one. -/
theorem validHints_allHints (g : GoldStandard) (a r : String) : (mk g.allHints).validHints a r = g.validHints a r := by
  have hlist : mk g.allHints = g.regroup fun _ h => h := by
    simp only [regroup, allHints, List.map_id']
  rw [hlist, validHints_regroup fun _ _ => rfl, List.map_id']

theorem lookups_allHints (g : GoldStandard) : (mk g.allHints).lookups = g.lookups :=
  lookups_congr g.validHints_allHints

/-- Requests are listed in the order of their assignments and then of their own names. -/
theorem pairwise_requests (g : GoldStandard) : g.requests.Pairwise fun p q => toLex p < toLex q := by
  rw [requests, List.pairwise_flatMap]
  constructor
  · intro a _
    refine List.pairwise_map.2 ((pairwise_lt_sortedTexts _).imp fun {r r'} hr => ?_)
    exact Prod.Lex.toLex_lt_toLex.2 (.inr ⟨rfl, hr⟩)
  · refine (pairwise_lt_sortedTexts _).imp fun {a b} hab p hp q hq => ?_
    obtain ⟨r, -, rfl⟩ := List.mem_map.1 hp
    obtain ⟨r', -, rfl⟩ := List.mem_map.1 hq
    exact Prod.Lex.toLex_lt_toLex.2 (.inl hab)

/-- All hints are listed in the order of assignments and requests, and those of a request as they were given. -/
theorem isStableSort_allHints (g : GoldStandard) : IsStableSort (fun h => toLex h.key) g.hints g.allHints := by
  have hstable : ∀ k, (g.allHints.filter fun h => toLex h.key = k) = g.hints.filter fun h => toLex h.key = k := by
    intro k
    have hvalid := g.validHints_allHints (ofLex k).1 (ofLex k).2
    have hfilter : ∀ hints : List TutorHint, (mk hints).validHints (ofLex k).1 (ofLex k).2 =
        hints.filter fun h => toLex h.key = k := by
      intro hints
      refine List.filter_congr fun h _ => ?_
      rw [← Bool.decide_and]
      refine decide_eq_decide.2 ?_
      rw [← Prod.mk.injEq]
      exact Iff.rfl
    rwa [hfilter, hfilter] at hvalid
  refine ⟨perm_of_filter_key hstable, ?_, hstable⟩
  rw [allHints, List.pairwise_flatMap]
  constructor
  · rintro p -
    have hkey : ∀ h ∈ g.validHints p.1 p.2, h.key = p := fun h hh => (mem_validHints.1 hh).2
    refine List.pairwise_of_forall_mem_list fun h hh h' hh' => ?_
    rw [hkey h hh, hkey h' hh']
  · refine g.pairwise_requests.imp fun {p q} hpq h hh h' hh' => ?_
    rw [(mem_validHints.1 hh).2, (mem_validHints.1 hh').2]
    exact hpq.le

/-! ## Merging and filtering -/

theorem validHints_merge (gs : List GoldStandard) (a r : String) :
    (merge gs).validHints a r = gs.flatMap fun g => g.validHints a r := by
  rw [validHints, merge, List.filter_flatMap]
  exact List.flatMap_congr fun g _ => g.validHints_allHints a r

theorem validHints_forAssignment (g : GoldStandard) (a a' r : String) :
    (g.forAssignment a).validHints a' r = if a' = a then g.validHints a' r else [] := by
  rw [validHints, forAssignment, List.filter_filter]
  split_ifs with ha
  · subst ha
    rw [← g.validHints_allHints, validHints]
    refine List.filter_congr fun h _ => ?_
    by_cases hh : h.assignmentId = a' <;> simp [hh]
  · rw [List.filter_eq_nil_iff]
    intro h _ hh
    simp only [Bool.and_eq_true, decide_eq_true_eq] at hh
    exact ha (hh.1.1.symm.trans hh.2)

/-- The standards of the single assignments together give the same answers as the whole one. -/
theorem lookups_merge_forAssignment (g : GoldStandard) :
    (merge (g.assignmentIds.map g.forAssignment)).lookups = g.lookups := by
  refine lookups_congr fun a r => ?_
  rw [validHints_merge, List.flatMap_map]
  simp only [validHints_forAssignment]
  by_cases ha : a ∈ g.assignmentIds
  · have halone := flatMap_eq_of_unique (f := fun b => if a = b then g.validHints a r else []) (nodup_sortedTexts _) ha
      fun b _ hb => if_neg (Ne.symm hb)
    rw [assignmentIds, halone, if_pos rfl]
  · have hnil : g.validHints a r = [] := by
      rw [List.eq_nil_iff_forall_not_mem]
      intro h hh
      obtain ⟨hh, hkey⟩ := mem_validHints.1 hh
      exact ha (mem_assignmentIds.2 ⟨h, hh, congrArg Prod.fst hkey⟩)
    rw [hnil, List.flatMap_eq_nil_iff]
    exact fun b _ => ite_self []

/-! ## Hints in groups -/

/-- The requests of an assignment are those of its hints, sorted, each with its hints. -/
theorem get_assignments_ofHints (hints : List TutorHint) (a : String) :
    Keyed.get [] (HintGroups.ofHints hints).assignments a =
      Keyed.sortKeys [] (Keyed.collect TutorHint.requestId [] (fun group h => group ++ [h])
        (hints.filter (·.assignmentId = a))) := by
  have hgrouped : Keyed.get [] (HintGroups.ofHints hints).assignments a =
      Keyed.sortKeys [] (Keyed.get [] (Keyed.collect TutorHint.assignmentId []
        (fun requests h => Keyed.update [] (· ++ [h]) requests h.requestId) hints) a) :=
    Keyed.get_map (d := []) (Keyed.sortKeys []) _
  rw [hgrouped, Keyed.get_collect]
  rfl

/-- Hints in groups give the same answers as the list of them. -/
theorem lookups_ofHints (hints : List TutorHint) : (HintGroups.ofHints hints).lookups = (mk hints).lookups := by
  have hassignments : (HintGroups.ofHints hints).assignmentIds = (mk hints).assignmentIds := by
    refine sortedTexts_congr fun a => ?_
    have hkeys : Keyed.keys (HintGroups.ofHints hints).assignments = Keyed.keys (Keyed.collect TutorHint.assignmentId []
        (fun requests h => Keyed.update [] (· ++ [h]) requests h.requestId) hints) := by
      rw [Keyed.keys, HintGroups.ofHints, List.map_map]
      rfl
    rw [hkeys, Keyed.mem_keys_collect]
  have hrequests : ∀ a, (HintGroups.ofHints hints).requestIds a = (mk hints).requestIds a := by
    intro a
    rw [HintGroups.requestIds, get_assignments_ofHints, Keyed.keys_sortKeys]
    exact sortedTexts_congr fun r => Keyed.mem_keys_collect
  have hvalid : ∀ a r, (HintGroups.ofHints hints).validHints a r = (mk hints).validHints a r := by
    intro a r
    have hfold : ∀ hints group : List TutorHint, hints.foldl (fun group h => group ++ [h]) group = group ++ hints := by
      intro hints group
      rw [List.foldl_append_eq_append, ← List.flatMap_def, List.flatMap_singleton']
    rw [HintGroups.validHints, get_assignments_ofHints, Keyed.get_sortKeys, Keyed.get_collect, hfold, List.nil_append,
      List.filter_filter, validHints]
    exact List.filter_congr fun h _ => Bool.and_comm _ _
  ext1
  · exact hassignments
  · exact funext hrequests
  · exact funext fun a => funext fun r => hvalid a r
  · show (HintGroups.ofHints hints).allHints = (mk hints).allHints
    simp only [HintGroups.allHints, allHints, requests, hassignments, hrequests, hvalid, List.flatMap_assoc,
      List.flatMap_map]

/-- Grouping loses nothing. All hints of a standard are those that it was made from, in the order of assignments and
requests and otherwise as they were given; a standard made from them again gives the same answers, and so do tables of
the hints by assignment and request. A request has the hints of all standards that are merged, one after the other; a
standard for one assignment has the hints of its requests and no others; and the standards for the single assignments
merged give the same answers as the whole. -/
theorem grouping_lossless :
    (∀ hints : List TutorHint,
      IsStableSort (fun h => toLex h.key) hints (mk hints).allHints ∧
      (mk (mk hints).allHints).lookups = (mk hints).lookups ∧
      (HintGroups.ofHints hints).lookups = (mk hints).lookups) ∧
    (∀ (gs : List GoldStandard) (a r : String),
      (merge gs).validHints a r = gs.flatMap fun g => g.validHints a r) ∧
    (∀ (g : GoldStandard) (a a' r : String),
      (g.forAssignment a).validHints a' r = if a' = a then g.validHints a' r else []) ∧
    ∀ g : GoldStandard, (merge (g.assignmentIds.map g.forAssignment)).lookups = g.lookups := by
  refine ⟨fun hints => ⟨?_, ?_, ?_⟩, validHints_merge, validHints_forAssignment, lookups_merge_forAssignment⟩
  · exact isStableSort_allHints (mk hints)
  · exact lookups_allHints (mk hints)
  · exact lookups_ofHints hints

end GoldStandard

end HintQuality
