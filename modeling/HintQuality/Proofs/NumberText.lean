import HintQuality.Json.Parser
import HintQuality.Json.Printer
import HintQuality.Proofs.DecimalText
import Mathlib
/-!
# Reading printed numbers

A number is read as far as it goes (`Ends`). Its digits are read back as the digits that were printed
(`spanAscii_map`, `wholePart?_map`), a minus in front of it changes its sign (`Reads.value_eq`), and a printed integer
is read back as it was, unless it has too many digits (`value_intText`).
-/

namespace HintQuality.Json

open Text

variable {rest : List Char} {ds : List Nat}

/-! ## Digits -/

/-- A text in which digits do not go on. -/
def NoDigit (rest : List Char) : Prop :=
  ∀ c ∈ rest.head?, c.isDigit = false

/-- A text in which a number does not go on. -/
def Ends (rest : List Char) : Prop :=
  ∀ c ∈ rest.head?, c.isDigit = false ∧ c ≠ '.' ∧ c ≠ 'e' ∧ c ≠ 'E'

theorem ends_nil : Ends [] := by
  simp [Ends]

theorem ends_cons {c : Char} (h : c.isDigit = false ∧ c ≠ '.' ∧ c ≠ 'e' ∧ c ≠ 'E') : Ends (c :: rest) := by
  simpa [Ends] using h

theorem Ends.noDigit (h : Ends rest) : NoDigit rest :=
  fun c hc => (h c hc).1

theorem digitChar_spec : ∀ d < 10, (digitChar d).isDigit = true ∧ (digitChar d).toNat - 48 = d ∧
    (digitChar d = '0' → d = 0) := by
  decide

/-- Digits are read as far as they go. -/
theorem spanAscii_map (hds : ∀ d ∈ ds, d < 10) (hrest : NoDigit rest) :
    spanAscii (ds.map digitChar ++ rest) = (ds, rest) := by
  have hall : ∀ c ∈ ds.map digitChar, c.isDigit = true := by
    intro c hc
    obtain ⟨d, hd, rfl⟩ := List.mem_map.1 hc
    exact (digitChar_spec d (hds d hd)).1
  have hstop : rest.takeWhile Char.isDigit = [] ∧ rest.dropWhile Char.isDigit = rest := by
    cases rest with
    | nil => exact ⟨rfl, rfl⟩
    | cons c rest =>
      have hc : c.isDigit = false := hrest c rfl
      exact ⟨List.takeWhile_cons_of_neg (by simp [hc]), List.dropWhile_cons_of_neg (by simp [hc])⟩
  have hvalues : (ds.map digitChar).map (fun c => c.toNat - 48) = ds := by
    rw [List.map_map]
    exact (List.map_congr_left fun d hd => (digitChar_spec d (hds d hd)).2.1).trans (List.map_id' ds)
  rw [spanAscii, List.takeWhile_append_of_pos hall, List.dropWhile_append_of_pos hall, hstop.1, hstop.2,
    List.append_nil, hvalues]

/-- The digits before the point are read back, unless there is a zero in front of them. -/
theorem wholePart?_map {d : Nat} (hds : ∀ x ∈ d :: ds, x < 10) (hzero : d = 0 → ds = []) (hrest : NoDigit rest) :
    wholePart? ((d :: ds).map digitChar ++ rest) = some (d :: ds, rest) := by
  have hspan := spanAscii_map hds hrest
  rw [List.map_cons, List.cons_append] at hspan ⊢
  unfold wholePart?
  split
  · rename_i rest' heq
    obtain ⟨hd, rfl⟩ := List.cons.inj heq
    obtain rfl := (digitChar_spec d (hds d List.mem_cons_self)).2.2 hd
    rw [hzero rfl]
    rfl
  · rw [hspan]

/-- The digits of a number do not start with a zero, unless it is zero. -/
theorem digits_head {n d : Nat} {ds : List Nat} (h : digits n = d :: ds) (hd : d = 0) : ds = [] := by
  induction n using digits_induct generalizing ds with
  | small n hn =>
    rw [digits_of_lt hn] at h
    exact (List.cons.inj h).2.symm
  | more n hn ih =>
    rw [digits_of_le hn] at h
    obtain ⟨d', ds', hds⟩ := List.exists_cons_of_ne_nil (digits_ne_nil (n / 10))
    rw [hds, List.cons_append] at h
    obtain ⟨rfl, rfl⟩ := List.cons.inj h
    obtain rfl := ih hds
    have hzero : n / 10 = 0 := by
      rw [← ofDigits_digits (n / 10), hds, hd]
      rfl
    omega

theorem wholePart?_digits (n : Nat) (hrest : NoDigit rest) :
    wholePart? ((digits n).map digitChar ++ rest) = some (digits n, rest) := by
  obtain ⟨d, ds, hds⟩ := List.exists_cons_of_ne_nil (digits_ne_nil n)
  rw [hds]
  exact wholePart?_map (fun x hx => lt_of_mem_digits (n := n) (hds ▸ hx)) (digits_head hds) hrest

/-! ## Numbers -/

/-- The same number with the other sign. -/
def negate : Json → Json
  | int i => int (-i)
  | float x => float (-x)
  | v => v

/-- How a number goes on behind the digits before the point. -/
def restOfNumber (whole : List Nat) (cs : List Char) : Json × List Char :=
  match places? cs, exponent? cs with
  | none, none => (.int (ofDigits 10 whole : Nat), cs)
  | none, some (e, rest) => (.float (Decimal.toFloat (ofDigits 10 whole) e), rest)
  | some (ds, rest), _ =>
    match exponent? rest with
    | none => (.float (Decimal.toFloat (ofDigits 10 (whole ++ ds)) (-(ds.length : Nat))), rest)
    | some (e, rest) => (.float (Decimal.toFloat (ofDigits 10 (whole ++ ds)) (e - (ds.length : Nat))), rest)

/-- A minus in front of a number changes its sign. -/
theorem number?_minus (cs : List Char) : number? ('-' :: cs) =
    (wholePart? cs).map fun w => ((restOfNumber w.1 w.2).1.negate, (restOfNumber w.1 w.2).2) := by
  unfold number? restOfNumber
  cases hwhole : wholePart? cs with
  | none => simp [hwhole]
  | some w =>
    cases hplaces : places? w.2 with
    | none => cases hexponent : exponent? w.2 <;> simp [hwhole, hplaces, hexponent, negate]
    | some p => cases hexponent : exponent? p.2 <;> simp [hwhole, hplaces, hexponent, negate]

/-- A number without a sign. -/
theorem number?_of_ne {c : Char} (hc : c ≠ '-') (cs : List Char) : number? (c :: cs) =
    (wholePart? (c :: cs)).map fun w => restOfNumber w.1 w.2 := by
  unfold number? restOfNumber
  split
  rename_i heq
  split at heq
  · rename_i hminus
    exact absurd (List.cons.inj hminus).1 hc
  · cases heq
    cases hwhole : wholePart? (c :: cs) with
    | none => simp
    | some w =>
      cases hplaces : places? w.2 with
      | none => cases hexponent : exponent? w.2 <;> simp [hplaces, hexponent]
      | some p => cases hexponent : exponent? p.2 <;> simp [hplaces, hexponent]

theorem isDigit_ne {c d : Char} (hc : c.isDigit = true) (hd : d.isDigit = false) : c ≠ d := by
  rintro rfl
  rw [hc] at hd
  cases hd

/-- A text that begins with a digit and is read as a number, as long as the number does not go on behind it. -/
structure Reads (cs : List Char) (v : Json) : Prop where
  /-- It begins with a digit. -/
  head : ∃ c ∈ cs.head?, c.isDigit = true
  /-- It is read as the number. -/
  read : ∀ rest, Ends rest → ∃ w, wholePart? (cs ++ rest) = some w ∧ restOfNumber w.1 w.2 = (v, rest)

/-- A number is read with its sign, unless it is an integer with too many digits. -/
theorem Reads.value_eq {cs : List Char} {v : Json} (h : Reads cs v) (negative : Bool) (fuel : Nat) (hrest : Ends rest) :
    value (fuel + 1) ((if negative then ['-'] else []) ++ cs ++ rest) =
      checkDigits (if negative then v.negate else v, rest) := by
  obtain ⟨c, hhead, hc⟩ := h.head
  obtain ⟨cs, rfl⟩ : ∃ cs', cs = c :: cs' := ⟨cs.tail, (List.cons_head?_tail hhead).symm⟩
  obtain ⟨w, hwhole, hw⟩ := h.read rest hrest
  rw [List.cons_append] at hwhole
  cases negative with
  | false =>
    have hnumber := number?_of_ne (isDigit_ne hc (by decide)) (cs ++ rest)
    rw [hwhole, Option.map_some, hw] at hnumber
    show value (fuel + 1) (c :: (cs ++ rest)) = checkDigits (v, rest)
    rw [value.eq_def]
    dsimp only
    split
    case h_10 => rw [hnumber]
    all_goals
      rename_i heq
      exact absurd (List.cons.inj heq).1 (isDigit_ne hc (by decide))
  | true =>
    have hnumber := number?_minus (c :: (cs ++ rest))
    rw [hwhole, Option.map_some, hw] at hnumber
    show value (fuel + 1) ('-' :: c :: (cs ++ rest)) = checkDigits (v.negate, rest)
    rw [value.eq_def]
    dsimp only
    split
    case h_10 => rw [hnumber]
    all_goals
      rename_i heq
      obtain ⟨hminus, hcs⟩ := List.cons.inj heq
      first
        | exact absurd hminus (by decide)
        | exact absurd (List.cons.inj hcs).1 (isDigit_ne hc (by decide))

/-! ## Integers -/

theorem places?_of_ends (h : Ends rest) : places? rest = none := by
  unfold places?
  split
  · exact absurd rfl (h '.' rfl).2.1
  · rfl

theorem exponent?_of_ends (h : Ends rest) : exponent? rest = none := by
  cases rest with
  | nil => rfl
  | cons c rest =>
    obtain ⟨-, -, he, hE⟩ := h c rfl
    simp [exponent?, he, hE]

/-- Digits start with a digit. -/
theorem exists_head_map {d : Nat} (hd : d < 10) (cs : List Char) :
    ∃ c ∈ (digitChar d :: cs).head?, c.isDigit = true :=
  ⟨_, rfl, (digitChar_spec d hd).1⟩

theorem reads_digits (n : Nat) : Reads ((digits n).map digitChar) (.int n) where
  head := by
    obtain ⟨d, ds, hds⟩ := List.exists_cons_of_ne_nil (digits_ne_nil n)
    rw [hds]
    exact exists_head_map (lt_of_mem_digits (n := n) (by simp [hds])) _
  read rest h := by
    refine ⟨_, wholePart?_digits n h.noDigit, ?_⟩
    rw [restOfNumber, places?_of_ends h, exponent?_of_ends h, ofDigits_digits]

theorem toList_intText (i : Int) :
    (intText i).toList = (if decide (i < 0) then ['-'] else []) ++ (digits i.natAbs).map digitChar := by
  unfold intText
  split_ifs with h hneg hneg
  · simp [natText]
  · exact absurd (decide_eq_true h) hneg
  · exact absurd (of_decide_eq_true hneg) h
  · rw [natText, String.toList_ofList, List.nil_append]

/-- An integer starts with a minus or a digit. -/
theorem exists_intText_eq (i : Int) : ∃ c cs, (intText i).toList = c :: cs ∧ (c = '-' ∨ c.isDigit = true) := by
  obtain ⟨c, hhead, hc⟩ := (reads_digits i.natAbs).head
  rw [toList_intText, (List.cons_head?_tail hhead).symm]
  split_ifs
  · exact ⟨'-', _, rfl, .inl rfl⟩
  · exact ⟨c, _, rfl, .inr hc⟩

/-- A printed integer is read back, unless it has too many digits. -/
theorem value_intText (fuel : Nat) (i : Int) (h : Ends rest) :
    value (fuel + 1) ((intText i).toList ++ rest) = checkDigits (.int i, rest) := by
  rw [toList_intText, (reads_digits i.natAbs).value_eq _ fuel h]
  simp only [decide_eq_true_eq, negate]
  congr 2
  split_ifs with hneg
  · rw [Int.ofNat_natAbs_of_nonpos (Int.le_of_lt hneg), Int.neg_neg]
  · rw [Int.natAbs_of_nonneg (Int.not_lt.1 hneg)]

/-! ## Decimals -/

theorem ofDigits_append (as bs : List Nat) :
    ofDigits 10 (as ++ bs) = ofDigits 10 as * 10 ^ bs.length + ofDigits 10 bs := by
  induction bs using List.reverseRecOn with
  | nil => simp [ofDigits]
  | append_singleton bs b ih =>
    rw [← List.append_assoc]
    simp only [ofDigits, List.foldl_append, List.foldl_cons, List.foldl_nil, List.length_append,
      List.length_singleton] at ih ⊢
    rw [ih, Nat.pow_succ]
    ring

theorem ofDigits_replicate_zero (k : Nat) : ofDigits 10 (List.replicate k 0) = 0 := by
  induction k with
  | zero => rfl
  | succ k ih =>
    rw [List.replicate_succ', ofDigits_append, ih]
    rfl

theorem lt_of_mem_padded {k n d : Nat} (hd : d ∈ List.replicate k 0 ++ digits n) : d < 10 := by
  rcases List.mem_append.1 hd with h | h
  · rw [List.eq_of_mem_replicate h]
    decide
  · exact lt_of_mem_digits h

theorem ofDigits_padded (k n : Nat) : ofDigits 10 (List.replicate k 0 ++ digits n) = n := by
  rw [ofDigits_append, ofDigits_replicate_zero, ofDigits_digits, Nat.zero_mul, Nat.zero_add]

theorem replicate_zero_eq (k : Nat) : List.replicate k '0' = (List.replicate k 0).map digitChar := by
  rw [List.map_replicate]
  rfl

theorem places?_map (hne : ds ≠ []) (hds : ∀ d ∈ ds, d < 10) (hrest : NoDigit rest) :
    places? ('.' :: (ds.map digitChar ++ rest)) = some (ds, rest) := by
  obtain ⟨d, ds, rfl⟩ := List.exists_cons_of_ne_nil hne
  simp only [places?, spanAscii_map hds hrest]

/-- A printed exponent is read back. -/
theorem exponent?_exponentChars (e : Int) (hrest : NoDigit rest) :
    exponent? (Decimal.exponentChars e ++ rest) = some (e, rest) := by
  obtain ⟨k, hk⟩ : ∃ k, Decimal.exponentChars e = 'e' :: (if e < 0 then '-' else '+') ::
      ((List.replicate k 0 ++ digits e.natAbs).map digitChar) := by
    refine ⟨2 - ((digits e.natAbs).map digitChar).length, ?_⟩
    rw [Decimal.exponentChars, replicate_zero_eq, ← List.map_append]
  have hspan := spanAscii_map (fun d hd => lt_of_mem_padded (k := k) (n := e.natAbs) hd) hrest
  have hvalue := ofDigits_padded k e.natAbs
  have hne : List.replicate k 0 ++ digits e.natAbs ≠ [] := List.append_ne_nil_of_right_ne_nil _ (digits_ne_nil _)
  generalize List.replicate k 0 ++ digits e.natAbs = ds at hk hspan hvalue hne
  obtain ⟨d, ds, rfl⟩ := List.exists_cons_of_ne_nil hne
  rw [hk, List.cons_append, List.cons_append]
  generalize (d :: ds).map digitChar ++ rest = cs at hspan
  by_cases hneg : e < 0
  · have hvalue' : -((ofDigits 10 (d :: ds) : Nat) : Int) = e := by omega
    simp [exponent?, Decimal.spanSign, hneg, hspan, hvalue']
  · have hvalue' : ((ofDigits 10 (d :: ds) : Nat) : Int) = e := by omega
    simp [exponent?, Decimal.spanSign, hneg, hspan, hvalue']

/-! ## Doubles -/

theorem noDigit_cons {c : Char} (hc : c.isDigit = false) (cs : List Char) : NoDigit (c :: cs) := by
  simpa [NoDigit] using hc

/-- Digits before and after a point are read. -/
theorem reads_point {d : Nat} {whole places : List Nat} (hwhole : ∀ x ∈ d :: whole, x < 10)
    (hzero : d = 0 → whole = []) (hplaces : ∀ x ∈ places, x < 10) (hne : places ≠ []) :
    Reads ((d :: whole).map digitChar ++ '.' :: places.map digitChar)
      (.float (Decimal.toFloat (ofDigits 10 (d :: whole ++ places)) (-(places.length : Nat)))) where
  head := exists_head_map (hwhole d List.mem_cons_self) _
  read rest h := by
    rw [List.append_assoc, List.cons_append]
    refine ⟨_, wholePart?_map hwhole hzero (noDigit_cons rfl _), ?_⟩
    simp only [restOfNumber, places?_map hne hplaces h.noDigit, exponent?_of_ends h]

/-- A digit with more after a point, if there are any, and an exponent is read. -/
theorem reads_exponent {d : Nat} {places : List Nat} (hd : d < 10) (hplaces : ∀ x ∈ places, x < 10) (e : Int) :
    Reads (digitChar d :: ((if places = [] then [] else '.' :: places.map digitChar) ++ Decimal.exponentChars e))
      (.float (Decimal.toFloat (ofDigits 10 (d :: places)) (e - (places.length : Nat)))) where
  head := exists_head_map hd _
  read rest h := by
    have hexponent := exponent?_exponentChars e h.noDigit
    obtain ⟨cs, hcs⟩ : ∃ cs, Decimal.exponentChars e ++ rest = 'e' :: cs := ⟨_, rfl⟩
    have hletter : NoDigit ('e' :: cs) := noDigit_cons rfl cs
    have hwhole : ∀ {rest}, NoDigit rest → wholePart? ([d].map digitChar ++ rest) = some ([d], rest) :=
      wholePart?_map (by simpa using hd) fun _ => rfl
    rw [List.cons_append, List.append_assoc, hcs]
    rw [hcs] at hexponent
    by_cases hnone : places = []
    · subst hnone
      rw [if_pos rfl, List.nil_append]
      refine ⟨_, hwhole hletter, ?_⟩
      have hplaces' : places? ('e' :: cs) = none := rfl
      simp [restOfNumber, hplaces', hexponent]
    · rw [if_neg hnone, List.cons_append]
      refine ⟨_, hwhole (noDigit_cons rfl _), ?_⟩
      simp only [restOfNumber, places?_map hnone hplaces hletter, hexponent, List.singleton_append]

theorem reads_placePoint (n : Nat) {places : Nat} (hplaces : 0 < places) :
    Reads (Decimal.placePoint ((digits n).map digitChar) places) (.float (Decimal.toFloat n (-(places : Nat)))) := by
  have hlen : 0 < (digits n).length := List.length_pos_iff.2 (digits_ne_nil n)
  generalize hpadded : List.replicate (places + 1 - (digits n).length) 0 ++ digits n = padded
  have hlength : places + 1 ≤ padded.length := by
    rw [← hpadded, List.length_append, List.length_replicate]
    omega
  have hsmall : ∀ x ∈ padded, x < 10 := fun x hx => lt_of_mem_padded (hpadded ▸ hx)
  have hvalue : ofDigits 10 padded = n := by rw [← hpadded, ofDigits_padded]
  have htext : Decimal.placePoint ((digits n).map digitChar) places =
      (padded.take (padded.length - places)).map digitChar ++
        '.' :: (padded.drop (padded.length - places)).map digitChar := by
    rw [Decimal.placePoint]
    simp only [List.length_map, replicate_zero_eq]
    rw [← List.map_append, hpadded, if_neg (by omega), List.map_take, List.map_drop, List.length_map]
  obtain ⟨d, whole, hwhole⟩ : ∃ d whole, padded.take (padded.length - places) = d :: whole :=
    List.exists_cons_of_ne_nil (List.ne_nil_of_length_pos (by rw [List.length_take]; omega))
  have hdrop : (padded.drop (padded.length - places)).length = places := by
    rw [List.length_drop]
    omega
  have hzero : d = 0 → whole = [] := by
    intro hd
    rcases Nat.lt_or_ge places (digits n).length with hlong | hshort
    · -- no zeros were put in front
      have hnone : places + 1 - (digits n).length = 0 := by omega
      rw [hnone, List.replicate_zero, List.nil_append] at hpadded
      have hsplit : digits n = d :: (whole ++ padded.drop (padded.length - places)) := by
        rw [hpadded, ← List.cons_append, ← hwhole, List.take_append_drop]
      exact (List.append_eq_nil_iff.1 (digits_head hsplit hd)).1
    · -- zeros were put in front, one of them before the point
      have hone : padded.length = places + 1 := by
        rw [← hpadded, List.length_append, List.length_replicate]
        omega
      have hlen' := congrArg List.length hwhole
      rw [List.length_take, List.length_cons] at hlen'
      exact List.length_eq_zero_iff.1 (by omega)
  have hsmall' : ∀ x ∈ d :: whole, x < 10 := fun x hx => hsmall x (List.mem_of_mem_take (hwhole ▸ hx))
  have hplaces' : padded.drop (padded.length - places) ≠ [] := List.ne_nil_of_length_pos (by omega)
  have hreads := reads_point hsmall' hzero (fun x hx => hsmall x (List.mem_of_mem_drop hx)) hplaces'
  rw [← hwhole, List.take_append_drop, hdrop, hvalue] at hreads
  rwa [htext]

/-- A decimal without places gets one that is zero. -/
theorem reads_positional {s : Decimal.Scaled} (hzero : s.digits = 0 → s.exponent = 0) : Reads (Decimal.positional s)
    (.float (if 0 ≤ s.exponent then Decimal.toFloat (s.digits * 10 ^ (s.exponent.toNat + 1)) (-1)
      else Decimal.toFloat s.digits s.exponent)) := by
  rw [Decimal.positional]
  split_ifs with hpos
  · obtain ⟨d, ds, hds⟩ := List.exists_cons_of_ne_nil (digits_ne_nil s.digits)
    have hhead : d = 0 → ds ++ List.replicate s.exponent.toNat 0 = [] := by
      intro hd
      have hnone := digits_head hds hd
      have hdigits : s.digits = 0 := by
        rw [← ofDigits_digits s.digits, hds, hd, hnone]
        rfl
      rw [hnone, hzero hdigits]
      rfl
    have hsmall : ∀ x ∈ d :: (ds ++ List.replicate s.exponent.toNat 0), x < 10 := by
      intro x hx
      rw [← List.cons_append, ← hds] at hx
      rcases List.mem_append.1 hx with hx | hx
      · exact lt_of_mem_digits hx
      · rw [List.eq_of_mem_replicate hx]
        decide
    have hreads := reads_point hsmall hhead (show ∀ x ∈ [0], x < 10 by simp) (List.cons_ne_nil 0 [])
    rw [← List.cons_append, ← hds, ofDigits_append, ofDigits_append, ofDigits_digits, ofDigits_replicate_zero,
      List.length_replicate] at hreads
    rw [replicate_zero_eq, ← List.map_append, Nat.pow_succ, ← Nat.mul_assoc]
    exact hreads
  · have hreads := reads_placePoint s.digits (show 0 < (-s.exponent).toNat by omega)
    rwa [show -(((-s.exponent).toNat : Nat) : Int) = s.exponent by omega] at hreads

theorem reads_scientific (s : Decimal.Scaled) :
    Reads (Decimal.scientific s) (.float (Decimal.toFloat s.digits s.exponent)) := by
  obtain ⟨d, places, hds⟩ := List.exists_cons_of_ne_nil (digits_ne_nil s.digits)
  have hsmall : ∀ x ∈ d :: places, x < 10 := fun x hx => lt_of_mem_digits (n := s.digits) (hds ▸ hx)
  have hreads := reads_exponent (hsmall d List.mem_cons_self) (fun x hx => hsmall x (List.mem_cons_of_mem _ hx))
    (s.exponent + (places.length : Nat))
  rw [← hds, ofDigits_digits, Int.add_sub_cancel] at hreads
  rw [Decimal.scientific, hds]
  simpa using hreads

/-! ## Printable characters -/

/-- Characters that are printed as they are; among them are no line ends. -/
def Shown (cs : List Char) : Prop :=
  ∀ c ∈ cs, 32 ≤ c.toNat

theorem Shown.append {as bs : List Char} (ha : Shown as) (hb : Shown bs) : Shown (as ++ bs) := fun c hc =>
  (List.mem_append.1 hc).elim (ha c) (hb c)

theorem Shown.cons {c : Char} {cs : List Char} (hc : 32 ≤ c.toNat) (h : Shown cs) : Shown (c :: cs) :=
  List.forall_mem_cons.2 ⟨hc, h⟩

theorem Shown.of_subset {as bs : List Char} (h : Shown bs) (hsub : as ⊆ bs) : Shown as := fun c hc =>
  h c (hsub hc)

theorem shown_replicate {c : Char} (hc : 32 ≤ c.toNat) (k : Nat) : Shown (List.replicate k c) := by
  intro d hd
  rwa [List.eq_of_mem_replicate hd]

theorem shown_digits (n : Nat) : Shown ((digits n).map digitChar) := by
  have hdigit : ∀ d < 10, 32 ≤ (digitChar d).toNat := by decide
  intro c hc
  obtain ⟨d, hd, rfl⟩ := List.mem_map.1 hc
  exact hdigit d (lt_of_mem_digits hd)

theorem shown_intText (i : Int) : Shown (intText i).toList := by
  rw [toList_intText]
  refine Shown.append ?_ (shown_digits _)
  split_ifs
  · exact Shown.cons (by decide) (by simp [Shown])
  · simp [Shown]

theorem shown_exponentChars (e : Int) : Shown (Decimal.exponentChars e) := by
  have hsign : 32 ≤ (if e < 0 then '-' else '+').toNat := by
    split_ifs <;> decide
  exact Shown.cons (by decide) (Shown.cons hsign (Shown.append (shown_replicate (by decide) _) (shown_digits _)))

theorem shown_placePoint {ds : List Char} (h : Shown ds) (places : Nat) : Shown (Decimal.placePoint ds places) := by
  have hpadded : Shown (List.replicate (places + 1 - ds.length) '0' ++ ds) :=
    Shown.append (shown_replicate (by decide) _) h
  rw [Decimal.placePoint]
  split_ifs
  · exact hpadded.of_subset (List.take_subset _ _)
  · exact (hpadded.of_subset (List.take_subset _ _)).append
      (Shown.cons (by decide) (hpadded.of_subset (List.drop_subset _ _)))

theorem shown_shortestChars (b : Decimal.Binary) : Shown (Decimal.shortestChars b) := by
  have hdigits := shown_digits (Decimal.shortest b).digits
  simp only [Decimal.shortestChars]
  split
  · rw [Decimal.positional]
    split_ifs
    · exact (hdigits.append (shown_replicate (by decide) _)).append
        (Shown.cons (by decide) (Shown.cons (by decide) (by simp [Shown])))
    · exact shown_placePoint hdigits _
  · rw [Decimal.scientific]
    refine ((hdigits.of_subset (List.take_subset _ _)).append ?_).append (shown_exponentChars _)
    split_ifs
    · simp [Shown]
    · exact Shown.cons (by decide) (hdigits.of_subset (List.drop_subset _ _))

theorem shown_floatChars (x : Float) : Shown (floatChars x) := by
  have hinfinity : Shown ['I', 'n', 'f', 'i', 'n', 'i', 't', 'y'] := by simp [Shown]
  unfold floatChars
  split_ifs with hnan hinf hneg
  · simp [Shown]
  · exact Shown.cons (by decide) hinfinity
  · exact hinfinity
  · rw [Decimal.floatText, if_neg hnan, if_neg hinf]
    rw [String.toList_ofList]
    refine Shown.append ?_ (shown_shortestChars _)
    split_ifs
    · exact Shown.cons (by decide) (by simp [Shown])
    · simp [Shown]

end HintQuality.Json
