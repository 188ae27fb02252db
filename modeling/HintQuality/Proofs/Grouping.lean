import HintQuality.Gold.Basic
import HintQuality.Proofs.Lists
import HintQuality.Proofs.StableSort
import Mathlib.Data.List.Nodup
import Mathlib.Data.List.Perm.Lattice
/-!
# Gold standards by assignment and request

The names of assignments and requests are sorted and do not repeat, so that the same names give the same list
(`sortedTexts_congr`) and a request is listed once (`nodup_requests`). Listing all hints by assignment and request
loses and adds none, and grouping them again gives the same assignments, requests and groups (`mem_keys_regroup`,
`validHints_regroup`).
-/

namespace HintQuality

/-! ## Sorted names -/

@[simp] theorem mem_sortedTexts {xs : List String} {s : String} : s ∈ sortedTexts xs ↔ s ∈ xs := by
  rw [sortedTexts, mem_sortBy, List.mem_eraseDups]

theorem nodup_sortedTexts (xs : List String) : (sortedTexts xs).Nodup :=
  (sortBy_perm _ _).nodup_iff.2 (nodup_eraseDups xs)

theorem pairwise_sortedTexts (xs : List String) : (sortedTexts xs).Pairwise (· ≤ ·) := by
  refine (sortBy_pairwise ?_ ?_ _).imp fun {a b} hab => ?_
  · intro a b c hab hbc
    simp only [Bool.not_eq_true', decide_eq_false_iff_not, String.not_lt] at *
    exact String.le_trans hab hbc
  · intro a b
    simp only [Bool.or_eq_true, Bool.not_eq_true', decide_eq_false_iff_not, String.not_lt]
    exact String.le_total a b
  · simp only [Bool.not_eq_true', decide_eq_false_iff_not, String.not_lt] at hab
    exact hab

theorem pairwise_lt_sortedTexts (xs : List String) : (sortedTexts xs).Pairwise (· < ·) := by
  refine ((pairwise_sortedTexts xs).and (nodup_sortedTexts xs)).imp fun {a b} hab => ?_
  by_contra hlt
  exact hab.2 (String.le_antisymm hab.1 (String.not_lt.1 hlt))

/-- The same names are sorted alike. -/
theorem sortedTexts_congr {xs ys : List String} (h : ∀ s, s ∈ xs ↔ s ∈ ys) : sortedTexts xs = sortedTexts ys := by
  have hperm : (sortedTexts xs).Perm (sortedTexts ys) :=
    (List.perm_ext_iff_of_nodup (nodup_sortedTexts xs) (nodup_sortedTexts ys)).2 fun s => by simp [h]
  refine hperm.eq_of_pairwise (fun a b _ _ hab hba => ?_) (pairwise_sortedTexts xs) (pairwise_sortedTexts ys)
  exact String.le_antisymm hab hba

namespace TutorHint

/-- The assignment and the request of a hint. -/
def key (h : TutorHint) : String × String :=
  (h.assignmentId, h.requestId)

end TutorHint

namespace GoldStandard

variable {g g' : GoldStandard} {h : TutorHint} {a r : String}

/-! ## Requests -/

theorem mem_assignmentIds : a ∈ g.assignmentIds ↔ ∃ h ∈ g.hints, h.assignmentId = a := by
  simp [assignmentIds]

theorem mem_requestIds : r ∈ g.requestIds a ↔ ∃ h ∈ g.hints, h.key = (a, r) := by
  simp [requestIds, TutorHint.key, and_assoc]

theorem mem_requests : (a, r) ∈ g.requests ↔ ∃ h ∈ g.hints, h.key = (a, r) := by
  rw [requests, List.mem_flatMap]
  constructor
  · rintro ⟨a', -, hr⟩
    obtain ⟨r', hr', he⟩ := List.mem_map.1 hr
    obtain ⟨rfl, rfl⟩ := Prod.mk.inj he
    exact mem_requestIds.1 hr'
  · intro hh
    obtain ⟨h, hh, hkey⟩ := hh
    refine ⟨a, mem_assignmentIds.2 ⟨h, hh, congrArg Prod.fst hkey⟩, List.mem_map.2 ⟨r, ?_, rfl⟩⟩
    exact mem_requestIds.2 ⟨h, hh, hkey⟩

/-- No request is listed twice. -/
theorem nodup_requests (g : GoldStandard) : g.requests.Nodup := by
  rw [requests, List.nodup_flatMap]
  constructor
  · intro a _
    exact (nodup_sortedTexts _).map fun r r' he => (Prod.mk.inj he).2
  · refine (nodup_sortedTexts _).imp fun {a b} hab p hpa hpb => ?_
    obtain ⟨r, -, rfl⟩ := List.mem_map.1 hpa
    obtain ⟨r', -, he⟩ := List.mem_map.1 hpb
    exact hab (congrArg Prod.fst he).symm

theorem mem_validHints : h ∈ g.validHints a r ↔ h ∈ g.hints ∧ h.key = (a, r) := by
  simp [validHints, TutorHint.key]

/-- A request that is listed has hints. -/
theorem validHints_ne_nil (hr : (a, r) ∈ g.requests) : g.validHints a r ≠ [] := by
  obtain ⟨h, hh, hkey⟩ := mem_requests.1 hr
  exact List.ne_nil_of_mem (mem_validHints.2 ⟨hh, hkey⟩)

/-! ## Listing and regrouping -/

theorem mem_allHints : h ∈ g.allHints ↔ h ∈ g.hints := by
  rw [allHints, List.mem_flatMap]
  constructor
  · rintro ⟨p, -, hp⟩
    exact (mem_validHints.1 hp).1
  · intro hh
    exact ⟨h.key, mem_requests.2 ⟨h, hh, rfl⟩, mem_validHints.2 ⟨hh, rfl⟩⟩

/-- In a list without repetitions one member alone contributes what only it can. -/
theorem flatMap_eq_of_unique {α β : Type} {f : α → List β} {x : α} : ∀ {xs : List α}, xs.Nodup → x ∈ xs →
    (∀ y ∈ xs, y ≠ x → f y = []) → xs.flatMap f = f x
  | y :: ys, hnd, hx, hf => by
    rw [List.nodup_cons] at hnd
    rw [List.flatMap_cons]
    by_cases hyx : y = x
    · have hrest : ys.flatMap f = [] := by
        rw [List.flatMap_eq_nil_iff]
        intro z hz
        exact hf z (List.mem_cons_of_mem _ hz) fun e => hnd.1 (hyx ▸ e ▸ hz)
      rw [hrest, List.append_nil, hyx]
    · have hx' : x ∈ ys := (List.mem_cons.1 hx).resolve_left fun e => hyx e.symm
      rw [hf y List.mem_cons_self hyx, List.nil_append]
      exact flatMap_eq_of_unique hnd.2 hx' fun z hz => hf z (List.mem_cons_of_mem _ hz)

/-- Standards whose hints have the same keys list the same assignments and requests. -/
theorem assignmentIds_of_keys (hkeys : ∀ k, k ∈ g.hints.map TutorHint.key ↔ k ∈ g'.hints.map TutorHint.key) :
    g.assignmentIds = g'.assignmentIds := by
  have hfst : ∀ hints : List TutorHint, hints.map TutorHint.assignmentId = (hints.map TutorHint.key).map Prod.fst := by
    intro hints
    simp [TutorHint.key]
  refine sortedTexts_congr fun s => ?_
  rw [hfst, hfst, List.mem_map, List.mem_map]
  simp only [hkeys]

theorem requestIds_of_keys (hkeys : ∀ k, k ∈ g.hints.map TutorHint.key ↔ k ∈ g'.hints.map TutorHint.key)
    (a : String) : g.requestIds a = g'.requestIds a := by
  have hmem : ∀ (g : GoldStandard) (s : String),
      s ∈ (g.hints.filter (·.assignmentId = a)).map TutorHint.requestId ↔ (a, s) ∈ g.hints.map TutorHint.key := by
    intro g s
    simp [TutorHint.key, and_assoc]
  refine sortedTexts_congr fun s => ?_
  rw [hmem, hmem, hkeys]

/-- The hints by assignment and request, each as `f` changes it for its request. -/
def regroup (g : GoldStandard) (f : String × String → TutorHint → TutorHint) : GoldStandard :=
  ⟨g.requests.flatMap fun p => (g.validHints p.1 p.2).map (f p)⟩

section

variable {f : String × String → TutorHint → TutorHint} (hf : ∀ p h, (f p h).key = h.key)
include hf

/-- Listing the hints by assignment and request loses and adds none. -/
theorem mem_keys_regroup (k : String × String) :
    k ∈ g.hints.map TutorHint.key ↔ k ∈ (g.regroup f).hints.map TutorHint.key := by
  rw [List.mem_map, List.mem_map]
  constructor
  · rintro ⟨h, hh, rfl⟩
    refine ⟨f h.key h, List.mem_flatMap.2 ⟨h.key, mem_requests.2 ⟨h, hh, rfl⟩, ?_⟩, hf _ _⟩
    exact List.mem_map_of_mem (mem_validHints.2 ⟨hh, rfl⟩)
  · rintro ⟨h', hh', rfl⟩
    obtain ⟨p, -, hp⟩ := List.mem_flatMap.1 hh'
    obtain ⟨h, hh, rfl⟩ := List.mem_map.1 hp
    exact ⟨h, (mem_validHints.1 hh).1, (hf p h).symm⟩

/-- Grouping the listed hints again gives the same groups. -/
theorem validHints_regroup (a r : String) :
    (g.regroup f).validHints a r = (g.validHints a r).map (f (a, r)) := by
  have hkey : ∀ (p : String × String) (h : TutorHint), ((f p h).assignmentId = a && (f p h).requestId = r) =
      decide (h.key = (a, r)) := by
    intro p h
    rw [← hf p h, TutorHint.key, Bool.eq_iff_iff]
    simp
  have hother : ∀ p : String × String, p ≠ (a, r) →
      ((g.validHints p.1 p.2).map (f p)).filter (fun h => h.assignmentId = a && h.requestId = r) = [] := by
    intro p hp
    rw [List.filter_eq_nil_iff]
    intro h' hh'
    obtain ⟨h, hh, rfl⟩ := List.mem_map.1 hh'
    rw [hkey, decide_eq_true_eq, (mem_validHints.1 hh).2]
    exact hp
  have hself : ((g.validHints a r).map (f (a, r))).filter (fun h => h.assignmentId = a && h.requestId = r) =
      (g.validHints a r).map (f (a, r)) := by
    rw [List.filter_eq_self]
    intro h' hh'
    obtain ⟨h, hh, rfl⟩ := List.mem_map.1 hh'
    rw [hkey, decide_eq_true_eq]
    exact (mem_validHints.1 hh).2
  rw [regroup, validHints, List.filter_flatMap]
  by_cases hr : (a, r) ∈ g.requests
  · rw [flatMap_eq_of_unique (nodup_requests g) hr fun p _ hp => hother p hp, hself]
  · have hnil : g.validHints a r = [] := by
      rw [List.eq_nil_iff_forall_not_mem]
      intro h hh
      exact hr (mem_requests.2 ⟨h, mem_validHints.1 hh⟩)
    rw [hnil, List.map_nil, List.flatMap_eq_nil_iff]
    intro p hp
    exact hother p fun e => hr (e ▸ hp)

end

end GoldStandard

end HintQuality
