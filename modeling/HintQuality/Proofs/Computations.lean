import HintQuality.Trace
import Mathlib.Data.List.Forall2
/-!
# Computations that may fail

What steps in a row give and record (`Traced.exists_of_bind`), and what a list of them gives: results member by member
(`mapM_eq_ok_iff`), or the failure of one of them (`exists_of_mapM_error`). Two computations run alike (`SameRun`) if
they fail in the same way or give related results, and so do computations put together of such.
-/

namespace HintQuality

theorem Traced.result_bind {α β : Type} (t : Traced α) (f : α → Traced β) :
    (t >>= f).result = t.result.bind fun x => (f x).result := by
  show (Traced.andThen t f).result = _
  unfold Traced.andThen
  cases t.result <;> rfl

/-- What goes on with a result gives one only if both parts do, and has the events of both. -/
theorem Traced.exists_of_bind {α β : Type} {t : Traced α} {f : α → Traced β} {y : β} (h : (t >>= f).result = .ok y) :
    ∃ x, t.result = .ok x ∧ (f x).result = .ok y ∧
      Traced.events (t >>= f).effects = Traced.events t.effects ++ Traced.events (f x).effects := by
  rw [Traced.result_bind] at h
  cases hx : t.result with
  | error e =>
    rw [hx] at h
    cases h
  | ok x =>
    rw [hx] at h
    refine ⟨x, rfl, h, ?_⟩
    rw [Traced.effects_bind_ok hx]
    exact List.filterMap_append

/-- What goes on without events has none if it had none before. -/
theorem Traced.events_bind_eq_nil {α β : Type} {t : Traced α} {f : α → Traced β} (ht : Traced.events t.effects = [])
    (hf : ∀ x, Traced.events (f x).effects = []) : Traced.events (t >>= f).effects = [] := by
  cases hx : t.result with
  | error e => rw [Traced.effects_bind_error hx, ht]
  | ok x =>
    rw [Traced.effects_bind_ok hx]
    exact List.filterMap_append.trans (List.append_eq_nil_iff.2 ⟨ht, hf x⟩)

theorem eq_ok_of_toOption {ε α : Type} {x : Except ε α} {a : α} (h : x.toOption = some a) : x = .ok a := by
  cases x with
  | error e => cases h
  | ok b => rw [Option.some.inj h]

theorem bind_eq_ok_iff {ε α β : Type} {x : Except ε α} {f : α → Except ε β} {b : β} :
    x.bind f = .ok b ↔ ∃ a, x = .ok a ∧ f a = .ok b := by
  cases x <;> simp [Except.bind]

theorem map_eq_ok_iff {ε α β : Type} {x : Except ε α} {f : α → β} {b : β} :
    x.map f = .ok b ↔ ∃ a, x = .ok a ∧ f a = b := by
  cases x <;> simp [Except.map]

section MapM

variable {ε α β : Type} {f : α → Except ε β}

/-- A list of computations gives the results of its members, one by one. -/
theorem mapM_eq_ok_iff {xs : List α} {ys : List β} :
    xs.mapM f = .ok ys ↔ List.Forall₂ (fun x y => f x = .ok y) xs ys := by
  induction xs generalizing ys with
  | nil =>
    rw [List.mapM_nil, List.forall₂_nil_left_iff]
    exact ⟨fun h => (Except.ok.inj h).symm, fun h => by rw [h]; rfl⟩
  | cons x xs ih =>
    rw [List.mapM_cons, List.forall₂_cons_left_iff]
    constructor
    · intro h
      obtain ⟨y, hy, h⟩ := bind_eq_ok_iff.1 h
      obtain ⟨zs, hzs, h⟩ := bind_eq_ok_iff.1 h
      exact ⟨y, zs, hy, ih.1 hzs, (Except.ok.inj h).symm⟩
    · rintro ⟨y, zs, hy, hzs, rfl⟩
      exact bind_eq_ok_iff.2 ⟨y, hy, bind_eq_ok_iff.2 ⟨zs, ih.2 hzs, rfl⟩⟩

/-- The failure of a list of computations is that of one of them. -/
theorem exists_of_mapM_error {xs : List α} {e : ε} (h : xs.mapM f = .error e) : ∃ x ∈ xs, f x = .error e := by
  induction xs with
  | nil => cases h
  | cons x xs ih =>
    rw [List.mapM_cons] at h
    cases hx : f x with
    | error e' =>
      rw [hx] at h
      obtain rfl : e' = e := Except.error.inj h
      exact ⟨x, List.mem_cons_self, hx⟩
    | ok y =>
      cases hxs : xs.mapM f with
      | error e' =>
        rw [hx, hxs] at h
        obtain rfl : e' = e := Except.error.inj h
        obtain ⟨x', hx', he⟩ := ih hxs
        exact ⟨x', List.mem_cons_of_mem _ hx', he⟩
      | ok ys =>
        rw [hx, hxs] at h
        cases h

/-- A list of computations fails if one of them does. -/
theorem mapM_error_of_mem {xs : List α} {x : α} {e : ε} (hx : x ∈ xs) (he : f x = .error e) :
    ∃ e', xs.mapM f = .error e' := by
  induction xs with
  | nil => cases hx
  | cons x' xs ih =>
    rw [List.mapM_cons]
    cases hx' : f x' with
    | error e' => exact ⟨e', rfl⟩
    | ok y =>
      rcases List.mem_cons.1 hx with rfl | hx
      · rw [he] at hx'
        cases hx'
      · obtain ⟨e', he'⟩ := ih hx
        rw [he']
        exact ⟨e', rfl⟩

end MapM

/-! ## Two computations side by side -/

/-- Both fail in the same way, or the results are related. -/
inductive SameRun {ε α β : Type} (R : α → β → Prop) : Except ε α → Except ε β → Prop where
  | failure (e : ε) : SameRun R (.error e) (.error e)
  | result {a : α} {b : β} (h : R a b) : SameRun R (.ok a) (.ok b)

namespace SameRun

variable {ε α α' β β' : Type} {R : α → α' → Prop} {S : β → β' → Prop} {x : Except ε α} {x' : Except ε α'}

theorem refl (x : Except ε α) : SameRun Eq x x := by
  cases x with
  | error e => exact .failure e
  | ok a => exact .result rfl

theorem bind (h : SameRun R x x') {f : α → Except ε β} {f' : α' → Except ε β'}
    (hf : ∀ a a', R a a' → SameRun S (f a) (f' a')) : SameRun S (x.bind f) (x'.bind f') := by
  cases h with
  | failure e => exact .failure e
  | result h => exact hf _ _ h

theorem map (h : SameRun R x x') {f : α → β} {f' : α' → β'} (hf : ∀ a a', R a a' → S (f a) (f' a')) :
    SameRun S (x.map f) (x'.map f') := by
  cases h with
  | failure e => exact .failure e
  | result h => exact .result (hf _ _ h)

theorem mapM {as : List α} {as' : List α'} (h : List.Forall₂ R as as') {f : α → Except ε β} {f' : α' → Except ε β'}
    (hf : ∀ a a', R a a' → SameRun S (f a) (f' a')) : SameRun (List.Forall₂ S) (as.mapM f) (as'.mapM f') := by
  induction h with
  | nil => exact .result .nil
  | cons ha _ ih =>
    rw [List.mapM_cons, List.mapM_cons]
    exact (hf _ _ ha).bind fun b b' hb => ih.bind fun bs bs' hbs => .result (.cons hb hbs)

end SameRun

end HintQuality
