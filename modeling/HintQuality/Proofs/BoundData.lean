import HintQuality.EventLog.Session
import HintQuality.Proofs.JsonText
import Mathlib
/-!
# What a log adds to its events

Fields that are put over others hide those of the same name (`get?_putAll`). Therefore the data of an event says what
the event says, then what the latest view of the log says, and so on down to the log that was opened (`get?_record`).
-/

namespace HintQuality

namespace Json

variable {fields others : Fields} {name k : String} {v : Json}

theorem get?_put : (fields.put name v).get? k = if k = name then some v else fields.get? k := by
  induction fields with
  | nil =>
    rw [Fields.put, Fields.get?, Fields.get?, List.lookup_cons]
    by_cases hk : k = name <;> simp [hk, beq_false_of_ne]
  | cons f fields ih =>
    obtain ⟨n, w⟩ := f
    simp only [Fields.get?] at ih ⊢
    by_cases hn : n = name
    · subst hn
      rw [Fields.put, if_pos rfl, List.lookup_cons, List.lookup_cons]
      by_cases hk : k = n <;> simp [hk, beq_false_of_ne]
    · rw [Fields.put, if_neg hn, List.lookup_cons, List.lookup_cons, ih]
      by_cases hk : k = n
      · subst hk
        simp [hn]
      · simp [beq_false_of_ne hk]

/-- Fields that are put over others hide those of the same name. -/
theorem get?_putAll (hnd : (others.map Prod.fst).Nodup) :
    (fields.putAll others).get? k = (others.get? k).or (fields.get? k) := by
  induction others generalizing fields with
  | nil => rfl
  | cons f others ih =>
    obtain ⟨n, v⟩ := f
    rw [List.map_cons, List.nodup_cons] at hnd
    have hstep : fields.putAll ((n, v) :: others) = (fields.put n v).putAll others := rfl
    rw [hstep, ih hnd.2, get?_put]
    by_cases hk : k = n
    · subst hk
      have hnone : Fields.get? others k = none := by
        rw [Fields.get?, List.lookup_eq_none_iff]
        intro p hp
        rw [bne_iff_ne]
        rintro rfl
        exact hnd.1 (List.mem_map.2 ⟨p, hp, rfl⟩)
      rw [hnone, if_pos rfl, Fields.get?, List.lookup_cons_self]
      rfl
    · simp [hk, Fields.get?, List.lookup_cons, beq_false_of_ne hk]

/-! ## Distinct names -/

theorem distinctFields_put (hfields : DistinctFields fields) (hv : v.Distinct) :
    DistinctFields (fields.put name v) := by
  induction fields with
  | nil => exact ⟨hv, trivial⟩
  | cons f fields ih =>
    rw [Fields.put]
    split_ifs
    · exact ⟨hv, hfields.2⟩
    · exact ⟨hfields.1, ih hfields.2⟩

theorem nodup_put (hnd : (fields.map Prod.fst).Nodup) : ((fields.put name v).map Prod.fst).Nodup := by
  by_cases hmem : name ∈ fields.map Prod.fst
  · rwa [keys_put_of_mem v hmem]
  · rw [keys_put_of_not_mem v hmem, List.nodup_append]
    refine ⟨hnd, List.nodup_singleton name, ?_⟩
    rintro a ha b hb rfl
    exact hmem (List.mem_singleton.1 hb ▸ ha)

/-- Fields put over others have distinct names if both have. -/
theorem distinct_putAll (hfields : (obj fields).Distinct) (hothers : DistinctFields others) :
    (obj (fields.putAll others)).Distinct := by
  induction others generalizing fields with
  | nil => exact hfields
  | cons f others ih => exact ih ⟨nodup_put hfields.1, distinctFields_put hfields.2 hothers.1⟩ hothers.2

end Json

namespace EventLog

/-- The data of an event says what the event itself says; what it does not say the views of the log say, the latest
first, and then the log that they are views of. -/
theorem get?_record {l : Log} {contexts : List Json.Fields} {e : Event}
    (hcontexts : ∀ c ∈ contexts, (c.map Prod.fst).Nodup) (hdata : (e.data.map Prod.fst).Nodup)
    (timestamp traceback k : String) : ((contexts.foldl Log.bind l).record timestamp traceback e).event.data.get? k =
      (e.data :: (contexts.reverse ++ [l.context])).findSome? (·.get? k) := by
  have hview : (contexts.foldl Log.bind l).context.get? k =
      (contexts.reverse ++ [l.context]).findSome? (·.get? k) := by
    induction contexts generalizing l with
    | nil => cases h : l.context.get? k <;> simp [h]
    | cons c contexts ih =>
      have hbind : (l.bind c).context.get? k = (c.get? k).or (l.context.get? k) :=
        Json.get?_putAll (hcontexts c List.mem_cons_self)
      rw [List.foldl_cons, ih fun c hc => hcontexts c (List.mem_cons_of_mem _ hc), List.reverse_cons,
        List.append_assoc, List.findSome?_append, List.findSome?_append]
      congr 1
      rw [List.findSome?_singleton, hbind]
      cases hc : c.get? k <;> simp [hc]
  have hrecord : ((contexts.foldl Log.bind l).record timestamp traceback e).event.data.get? k =
      (e.data.get? k).or ((contexts.foldl Log.bind l).context.get? k) := Json.get?_putAll hdata
  rw [hrecord, hview, List.findSome?_cons]
  cases e.data.get? k <;> rfl

end EventLog

end HintQuality
