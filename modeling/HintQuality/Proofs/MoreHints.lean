import HintQuality.Proofs.Independence
/-!
# More hints never hurt

A verdict that there is says what `Justified` says, whether or not the hints behind the one that it names can be
compared at all (`justified_of_verdict`). What it says only gets better with more hints: matches get closer, and among
matches that are as close the hint is tried no later (`Justified.noWorse`). So it is for a whole request
(`rateRequest_mono`), and hints that are the same up to their order give verdicts that weigh the same.
-/

namespace HintQuality

variable {ω : Type}

/-! ## What counts in a hint is in its key -/

theorem Validity.toNat_injective {v w : Validity} (h : v.toNat = w.toNat) : v = w := by
  cases v <;> cases w <;> simp_all [Validity.toNat]

/-- The rank of hints without a priority is odd and stands for nothing else. -/
theorem TutorHint.rankOf_injective {p q : Option Priority} (h : rankOf p = rankOf q) : p = q := by
  cases p with
  | none =>
    cases q with
    | none => rfl
    | some q => simp only [rankOf] at h; omega
  | some p =>
    cases q with
    | none => simp only [rankOf] at h; omega
    | some q => cases p <;> cases q <;> simp_all [rankOf, Priority.toNat]

theorem TutorHint.eq_of_trialKey {h g : TutorHint} (hkey : h.trialKey = g.trialKey) :
    h.validity = g.validity ∧ h.priority = g.priority := by
  rw [trialKey, trialKey, toLex_inj, Prod.mk.injEq] at hkey
  refine ⟨Validity.toNat_injective ?_, rankOf_injective hkey.1⟩
  have hvalid := hkey.2
  omega

theorem MatchType.eq_of_isAtLeast {m n : MatchType} (hm : m.isAtLeast n = true) (hn : n.isAtLeast m = true) :
    m = n := by
  cases m <;> cases n <;> simp_all [MatchType.isAtLeast, MatchType.toNat]

/-- The first hint that qualifies has the least key of all that do. -/
theorem IsFirst.trialKey_le {hints : List TutorHint} {P : Tree → Prop} {c : Candidate} (h : IsFirst hints P c)
    {g : TutorHint} (hg : g ∈ hints) (hP : ∃ u, g.result = some u ∧ P u) : c.hint.trialKey ≤ g.trialKey := by
  obtain ⟨u, hu, hP⟩ := hP
  obtain ⟨i, hi⟩ := List.mem_iff_getElem?.1 hg
  have hle := h.least i g u hi hu hP
  rw [Candidate.trialKey, Prod.Lex.toLex_le_toLex] at hle
  rcases hle with hlt | ⟨heq, -⟩
  · exact le_of_lt hlt
  · exact le_of_eq heq

/-! ## Better verdicts -/

/-- The rating `w` is no worse than `v`: the match is as close or closer, and if it is as close, the hint of `w` is
tried no later than that of `v`. -/
structure Rating.NoWorse (v w : Rating ω) : Prop where
  /-- The match is at least as close. -/
  matchType : w.matchType.isAtLeast v.matchType = true
  /-- If it is as close, the key of the hint is no greater. -/
  trialKey : w.matchType = v.matchType → v.matchType ≠ .unmatched →
    ∃ g h, w.hint? = some g ∧ v.hint? = some h ∧ g.trialKey ≤ h.trialKey

/-- The ratings match as closely as each other, hints of the same validity and the same priority. -/
structure Rating.SameWeight (v w : Rating ω) : Prop where
  /-- The matches are equally close. -/
  matchType : w.matchType = v.matchType
  /-- The hints are equally valid. -/
  validity : w.validity = v.validity
  /-- The hints are equally urgent. -/
  priority : w.priority = v.priority

section

variable {policy : Policy} {start t : Tree} {hints₁ hints₂ : List TutorHint} {v₁ v₂ : Rating ω}

theorem HasFullMatch.mono (hsub : hints₁ ⊆ hints₂) (h : HasFullMatch policy start hints₁ t) :
    HasFullMatch policy start hints₂ t := by
  obtain ⟨g, hg, hu⟩ := h
  exact ⟨g, hsub hg, hu⟩

/-- A partial match stays one, unless it becomes a full one. -/
theorem Justified.matchType_mono (hsub : hints₁ ⊆ hints₂) (h₁ : Justified policy start hints₁ t v₁)
    (h₂ : Justified policy start hints₂ t v₂) : v₂.matchType.isAtLeast v₁.matchType = true := by
  cases hm : v₁.matchType with
  | unmatched => rfl
  | fullMatch =>
    have hfull : v₂.matchType = .fullMatch := h₂.full_iff.2 ((h₁.full_iff.1 hm).mono hsub)
    rw [hfull]
    rfl
  | partialMatch =>
    obtain ⟨-, hedits, g, hg, hu⟩ := h₁.partial_iff.1 hm
    by_cases hfull : HasFullMatch policy start hints₂ t
    · rw [h₂.full_iff.2 hfull]
      rfl
    · have hpart : v₂.matchType = .partialMatch := h₂.partial_iff.2 ⟨hfull, hedits, g, hsub hg, hu⟩
      rw [hpart]
      rfl

/-- With more hints a verdict is no worse. -/
theorem Justified.noWorse (hsub : hints₁ ⊆ hints₂) (h₁ : Justified policy start hints₁ t v₁)
    (h₂ : Justified policy start hints₂ t v₂) : v₁.NoWorse v₂ := by
  refine ⟨h₁.matchType_mono hsub h₂, fun heq hne => ?_⟩
  -- both matches name the first hint of the same kind, and that of the fewer hints is among the others
  have hfirst : ∀ {P : Tree → Prop} {c₁ c₂ : Candidate}, IsFirst hints₁ P c₁ → IsFirst hints₂ P c₂ →
      v₁.candidate = some c₁ → v₂.candidate = some c₂ →
        ∃ g h, v₂.hint? = some g ∧ v₁.hint? = some h ∧ g.trialKey ≤ h.trialKey := by
    intro P c₁ c₂ hc₁ hc₂ hv₁ hv₂
    refine ⟨c₂.hint, c₁.hint, ?_, ?_, hc₂.trialKey_le (hsub hc₁.mem) hc₁.holds⟩
    · rw [Rating.hint?, hv₂, Option.map_some]
    · rw [Rating.hint?, hv₁, Option.map_some]
  cases hm : v₁.matchType with
  | unmatched => exact absurd hm hne
  | partialMatch =>
    obtain ⟨c₁, hv₁, hc₁⟩ := h₁.partial_hint hm
    obtain ⟨c₂, hv₂, hc₂⟩ := h₂.partial_hint (heq.trans hm)
    exact hfirst hc₁ hc₂ hv₁ hv₂
  | fullMatch =>
    obtain ⟨c₁, hv₁, hc₁⟩ := h₁.full_hint hm
    obtain ⟨c₂, hv₂, hc₂⟩ := h₂.full_hint (heq.trans hm)
    exact hfirst hc₁ hc₂ hv₁ hv₂

/-- The same hints in another order give a verdict that weighs the same. -/
theorem Justified.sameWeight (hsub : hints₁ ⊆ hints₂) (hback : hints₂ ⊆ hints₁)
    (h₁ : Justified policy start hints₁ t v₁) (h₂ : Justified policy start hints₂ t v₂) : v₁.SameWeight v₂ := by
  have hle := h₁.noWorse hsub h₂
  have hge := h₂.noWorse hback h₁
  have heq : v₂.matchType = v₁.matchType := MatchType.eq_of_isAtLeast hle.matchType hge.matchType
  by_cases hm : v₁.matchType = .unmatched
  · have hnone₁ : v₁.hint? = none := by rw [Rating.hint?, h₁.no_hint hm]; rfl
    have hnone₂ : v₂.hint? = none := by rw [Rating.hint?, h₂.no_hint (heq.trans hm)]; rfl
    exact ⟨heq, by simp [Rating.validity, hnone₁, hnone₂], by simp [Rating.priority, hnone₁, hnone₂]⟩
  · obtain ⟨g, h, hg, hh, hgh⟩ := hle.trialKey heq hm
    obtain ⟨h', g', hh', hg', hhg⟩ := hge.trialKey heq.symm (by rwa [heq])
    obtain rfl := Option.some.inj (hg.symm.trans hg')
    obtain rfl := Option.some.inj (hh.symm.trans hh')
    obtain ⟨hvalid, hprio⟩ := TutorHint.eq_of_trialKey (le_antisymm hgh hhg)
    exact ⟨heq, by simp [Rating.validity, hg, hh, hvalid], by simp [Rating.priority, hg, hh, hprio]⟩

end

/-! ## Verdicts that there are -/

namespace Matching

variable {policy : Policy} {style : ColorStyle} {hints : List TutorHint} {start : Tree} {o : Outcome ω}

/-- A search for a normal form that ends well has found the first hint of that form, or has compared them all. -/
theorem find?_of_firstEqual {t : Tree} {cs : List Candidate} {found : Option Candidate}
    (h : firstEqual policy style start t cs = .ok found) :
    cs.find? (leadsTo policy start (normalForm policy start t)) = found ∧
      (found = none → ∀ c ∈ cs, ∃ u, c.hint.result = some u) := by
  induction cs with
  | nil =>
    obtain rfl := Except.ok.inj h
    exact ⟨rfl, fun _ c hc => by cases hc⟩
  | cons c cs ih =>
    have hres : ∃ u, c.hint.result = some u := by
      obtain ⟨u, hu, -⟩ := bind_eq_ok_iff.1 h
      cases hc : c.hint.result with
      | none => rw [hc] at hu; cases hu
      | some u' => exact ⟨u', rfl⟩
    obtain ⟨u, hres⟩ := hres
    rw [firstEqual_cons hres] at h
    have hlead : leadsTo policy start (normalForm policy start t) c =
        decide (normalForm policy start t = normalForm policy start u) := by
      rw [leadsTo, hres, Option.any_some]
    by_cases he : normalForm policy start t = normalForm policy start u
    · rw [if_pos he] at h
      obtain rfl := Except.ok.inj h
      refine ⟨List.find?_cons_of_pos ?_, fun hnone => by cases hnone⟩
      rw [hlead]
      exact decide_eq_true he
    · rw [if_neg he] at h
      obtain ⟨hfind, hall⟩ := ih h
      refine ⟨by rw [List.find?_cons_of_neg (by simp [hlead, he]), hfind], fun hnone c' hc' => ?_⟩
      rcases List.mem_cons.1 hc' with rfl | hc'
      · exact ⟨u, hres⟩
      · exact hall hnone c' hc'

/-- A comparison that ends well has an outcome with a tree and a request with a tree. -/
theorem trees_of_full (hne : hints ≠ []) {found : Option (Rating ω)} (h : full policy hints o = .ok found) :
    ∃ start t, hints.head?.bind TutorHint.requestTree = some start ∧ o.result = some t ∧
      ∃ c, firstEqual policy .none start t (sortCandidates hints) = .ok c ∧
        found = c.map fun c => { outcome := o, candidate := some c, matchType := .fullMatch } := by
  have hneed : ∀ {x : Option Tree} {u : Tree}, need x = .ok u → x = some u := by
    intro x u hx
    cases x with
    | none => cases hx
    | some w => rw [Except.ok.inj hx]
  cases hints with
  | nil => exact absurd rfl hne
  | cons first rest =>
    obtain ⟨t, ht, h⟩ := bind_eq_ok_iff.1 h
    obtain ⟨start, hstart, h⟩ := bind_eq_ok_iff.1 h
    obtain ⟨c, hc, h⟩ := bind_eq_ok_iff.1 h
    refine ⟨start, t, hneed hstart, hneed ht, c, hc, ?_⟩
    cases c <;> exact (Except.ok.inj h).symm

/-- A verdict that there is says what it should, though hints behind the one that it names need not have a tree. -/
theorem justified_of_verdict (hne : hints ≠ []) {v : Rating ω} (h : verdict policy style hints o = .ok v) :
    ∃ start t, hints.head?.bind TutorHint.requestTree = some start ∧ o.result = some t ∧
      Justified policy start hints t v := by
  obtain ⟨found, hfound⟩ : ∃ found, full policy hints o = .ok found := by
    rcases verdict_eq_ok_iff.1 h with hfull | ⟨hnone, -⟩
    · exact ⟨_, hfull⟩
    · exact ⟨_, hnone⟩
  obtain ⟨start, t, hstart, ht, c, hc, rfl⟩ := trees_of_full hne hfound
  obtain ⟨hfind, hall⟩ := find?_of_firstEqual hc
  refine ⟨start, t, hstart, ht, ?_⟩
  cases c with
  | some c =>
    have hv : v = { outcome := o, candidate := some c, matchType := .fullMatch } := by
      rw [verdict, hfound] at h
      exact (Except.ok.inj h).symm
    rw [hv]
    exact justified_fullMatch ((isFirst_iff_find? fun _ => leadsTo_iff).2 hfind)
  | none =>
    have hhints : ∀ g ∈ hints, ∃ u, g.result = some u := by
      intro g hg
      obtain ⟨c, hc, rfl⟩ := exists_candidate hg
      exact hall rfl c hc
    have hcases := @verdict_cases ω policy style hints start t o hstart hhints ht
    rcases hcases with ⟨⟨report, he⟩, -⟩ | ⟨⟨r, hr, -, hjust⟩, -⟩
    · rw [he] at h
      cases h
    · rw [hr] at h
      rwa [← Except.ok.inj h]

end Matching

/-! ## Requests with more hints -/

section

variable {policy : Policy} {hints₁ hints₂ : List TutorHint} {outcomes : List (Outcome ω)}
  {assignmentId requestId : String}

theorem isRatable_mono (hsub : hints₁ ⊆ hints₂) (h : isRatable policy hints₁ = true) :
    isRatable policy hints₂ = true := by
  obtain ⟨g, hg, hvalid⟩ := List.any_eq_true.1 h
  exact List.any_eq_true.2 ⟨g, hsub hg, hvalid⟩

/-- With more hints for the same request every outcome is rated no worse, and with the same hints in another order it
is rated the same. How often a hint is listed is of no account. -/
theorem rateRequest_mono {start : Option Tree} {res₁ res₂ : Option (RequestRating ω)}
    (hrequest : ∀ h ∈ hints₂, h.requestTree = start) (hsub : hints₁ ⊆ hints₂)
    (hratable : isRatable policy hints₁ = true)
    (h₁ : (rateRequest assignmentId requestId hints₁ outcomes policy).result = .ok res₁)
    (h₂ : (rateRequest assignmentId requestId hints₂ outcomes policy).result = .ok res₂) :
    ∃ rating₁ rating₂, res₁ = some rating₁ ∧ res₂ = some rating₂ ∧
      (rating₁.ratings.map Rating.outcome).Perm outcomes ∧ (rating₂.ratings.map Rating.outcome).Perm outcomes ∧
        ∀ v₁ ∈ rating₁.ratings, ∀ v₂ ∈ rating₂.ratings, v₁.outcome = v₂.outcome →
          v₁.NoWorse v₂ ∧ (hints₂ ⊆ hints₁ → v₁.SameWeight v₂) := by
  have hratable₂ := isRatable_mono hsub hratable
  have hne₁ := ne_nil_of_isRatable hratable
  have hne₂ := ne_nil_of_isRatable hratable₂
  obtain ⟨rating₁, rfl, hcov₁⟩ := covers_of_result_rateRequest hratable h₁
  obtain ⟨rating₂, rfl, hcov₂⟩ := covers_of_result_rateRequest hratable₂ h₂
  refine ⟨rating₁, rating₂, rfl, rfl, hcov₁.outcomes, hcov₂.outcomes, fun v₁ hv₁ v₂ hv₂ ho => ?_⟩
  obtain ⟨start₁, t₁, hstart₁, ht₁, hjust₁⟩ := Matching.justified_of_verdict hne₁ (hcov₁.verdicts v₁ hv₁)
  obtain ⟨start₂, t₂, hstart₂, ht₂, hjust₂⟩ := Matching.justified_of_verdict hne₂ (hcov₂.verdicts v₂ hv₂)
  obtain rfl : t₁ = t₂ := by
    rw [ho, ht₂] at ht₁
    exact (Option.some.inj ht₁).symm
  -- the request is that of the first hint, and all hints have the same
  obtain rfl : start₁ = start₂ := by
    rw [Matching.head?_requestTree hne₁ fun h hh => hrequest h (hsub hh)] at hstart₁
    rw [Matching.head?_requestTree hne₂ hrequest, hstart₁] at hstart₂
    exact Option.some.inj hstart₂
  exact ⟨hjust₁.noWorse hsub hjust₂, fun hback => hjust₁.sameWeight hsub hback hjust₂⟩

end

/-- An outcome that does a part of a hint is matched closer with a second hint that says just what it does, though that
one is tried last. -/
theorem rateRequest_mono_of_two :
    let start : Tree := .node ⟨"script", none, some "s"⟩ [⟨"0", some (.leaf ⟨"move", none, some "m"⟩)⟩]
    let result : Tree := .node ⟨"script", none, some "s"⟩
      [⟨"0", some (.leaf ⟨"move", none, some "m"⟩)⟩, ⟨"1", some (.leaf ⟨"turn", none, none⟩)⟩]
    let tutor : Tree := .node ⟨"script", none, some "s"⟩
      [⟨"0", some (.leaf ⟨"move", none, some "m"⟩)⟩, ⟨"1", some (.leaf ⟨"turn", none, none⟩)⟩,
        ⟨"2", some (.leaf ⟨"say", none, none⟩)⟩]
    let whole : TutorHint :=
      { hintId := 1, requestId := "r", assignmentId := "a", year := "y", requestTree := some start,
        result := some tutor, validity := .consensus, priority := some .highest }
    let exact : TutorHint :=
      { whole with hintId := 2, result := some result, validity := .oneTutor, priority := some .tooSoon }
    let o : Outcome Nat := { result := some result, assignmentId := "a", requestId := "r", weight := 1, id := .int 1 }
    ∃ rating₁ rating₂, (rateRequest "a" "r" [whole] [o] {}).result = .ok (some rating₁) ∧
      (rateRequest "a" "r" [exact, whole] [o] {}).result = .ok (some rating₂) ∧
        rating₁.ratings.map Rating.matchType = [.partialMatch] ∧ rating₂.ratings.map Rating.matchType = [.fullMatch] ∧
          ∀ v₁ ∈ rating₁.ratings, ∀ v₂ ∈ rating₂.ratings, v₁.outcome = v₂.outcome → v₁.NoWorse v₂ := by
  intro start result tutor whole exact o
  have hmatch₁ : ((rateRequest "a" "r" [whole] [o] {}).result.toOption.map fun res =>
      res.map fun rating => rating.ratings.map Rating.matchType) = some (some [.partialMatch]) := by
    decide +kernel
  have hmatch₂ : ((rateRequest "a" "r" [exact, whole] [o] {}).result.toOption.map fun res =>
      res.map fun rating => rating.ratings.map Rating.matchType) = some (some [.fullMatch]) := by
    decide +kernel
  obtain ⟨res₁, hres₁, hm₁⟩ := Option.map_eq_some_iff.1 hmatch₁
  obtain ⟨res₂, hres₂, hm₂⟩ := Option.map_eq_some_iff.1 hmatch₂
  have hok₁ := eq_ok_of_toOption hres₁
  have hok₂ := eq_ok_of_toOption hres₂
  have hrequest : ∀ h ∈ [exact, whole], h.requestTree = some start := by simp [exact, whole]
  obtain ⟨rating₁, rating₂, rfl, rfl, -, -, hworse⟩ :=
    rateRequest_mono hrequest (by simp) (by decide) hok₁ hok₂
  refine ⟨rating₁, rating₂, hok₁, hok₂, Option.some.inj hm₁, Option.some.inj hm₂, fun v₁ hv₁ v₂ hv₂ ho => ?_⟩
  exact (hworse v₁ hv₁ v₂ hv₂ ho).1

end HintQuality
