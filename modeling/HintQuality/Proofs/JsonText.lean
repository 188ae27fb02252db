import HintQuality.Proofs.DoubleText
import Mathlib
/-!
# Reading printed JSON

Printed text is read back as the value that was printed, unless an integer in it has too many digits (`parse_render`).
A character is printed as itself or as the escapes of its UTF-16 units (`charUnits`); reading collects the units of a
string and joins the pairs again (`stringUnits_stringChars`, `joinUnits?_charUnits`). The length of the text is enough
fuel, since every call reads at least one character. Printed text has no line ends of its own (`shown_chars`).
-/

namespace HintQuality.Json

open Text

/-! ## Characters -/

theorem hexDigit?_hexDigit : ∀ d < 16, hexDigit? (hexDigit d) = some d := by
  decide

/-- The escape of a unit denotes it. -/
theorem unit?_hex {n : Nat} (h : n < 65536) : ∃ a b c d, hex 4 n = [a, b, c, d] ∧ unit? a b c d = some n := by
  refine ⟨_, _, _, _, rfl, ?_⟩
  have hdigit : ∀ m, hexDigit? (hexDigit (m % 16)) = some (m % 16) := fun m =>
    hexDigit?_hexDigit _ (Nat.mod_lt m (by decide))
  simp only [unit?, hdigit, Option.bind_eq_bind, Option.bind_some, Option.pure_def, Option.some.injEq, ofDigits,
    List.foldl_cons, List.foldl_nil]
  omega

/-- The UTF-16 units of a character. -/
def charUnits (c : Char) : List Nat :=
  if c.toNat < 0x10000 then [c.toNat]
  else [0xD800 + (c.toNat - 0x10000) / 0x400, 0xDC00 + (c.toNat - 0x10000) % 0x400]

variable (start : List Char)

theorem stringUnits_quote (rest : List Char) : stringUnits start ('"' :: rest) = .ok ([], rest) := by
  rw [stringUnits]

theorem stringUnits_escaped {x c : Char} (hx : x ≠ 'u') (hc : escaped? x = some c) (rest : List Char) :
    stringUnits start ('\\' :: x :: rest) = (stringUnits start rest).map fun r => (c.toNat :: r.1, r.2) := by
  rw [stringUnits, hc]
  · intro a b c d e cs h
    exact absurd h hx
  · exact hx

theorem stringUnits_plain {c : Char} (hquote : c ≠ '"') (hslash : c ≠ '\\') (hc : ¬c.toNat < 32) (rest : List Char) :
    stringUnits start (c :: rest) = (stringUnits start rest).map fun r => (c.toNat :: r.1, r.2) := by
  rw [stringUnits, if_neg hc]
  all_goals simp [hquote, hslash]

theorem stringUnits_unitEscape (rest : List Char) (e : Char) {n : Nat} (h : n < 65536) :
    stringUnits start (unitEscape n ++ e :: rest) =
      (stringUnits start (e :: rest)).map fun r => (n :: r.1, r.2) := by
  obtain ⟨a, b, c, d, hhex, hunit⟩ := unit?_hex h
  rw [unitEscape, hhex]
  simp only [List.cons_append, List.nil_append]
  rw [stringUnits, hunit]

theorem toNat_lt (c : Char) : c.toNat < 0x110000 := by
  have h := c.valid
  simp only [UInt32.isValidChar, Nat.isValidChar] at h
  show c.val.toNat < _
  omega

/-- No character is half of a pair. -/
theorem not_surrogate (c : Char) : ¬(0xD800 ≤ c.toNat ∧ c.toNat < 0xE000) := by
  have h := c.valid
  simp only [UInt32.isValidChar, Nat.isValidChar] at h
  show ¬(_ ≤ c.val.toNat ∧ c.val.toNat < _)
  omega

/-- A character is printed as a short escape, as itself, or as the escapes of its units. -/
theorem stringChar_cases (c : Char) :
    (c.toNat < 0x10000 ∧ ∃ x, stringChar c = ['\\', x] ∧ x ≠ 'u' ∧ escaped? x = some c) ∨
    (c.toNat < 0x10000 ∧ stringChar c = [c] ∧ c ≠ '"' ∧ c ≠ '\\' ∧ 32 ≤ c.toNat) ∨
    (c.toNat < 0x10000 ∧ stringChar c = unitEscape c.toNat) ∨
    (0x10000 ≤ c.toNat ∧ stringChar c = unitEscape (0xD800 + (c.toNat - 0x10000) / 0x400) ++
      unitEscape (0xDC00 + (c.toNat - 0x10000) % 0x400)) := by
  by_cases hshort : c ∈ ['"', '\\', '\n', '\r', '\t', '\x08', '\x0c']
  · simp only [List.mem_cons, List.not_mem_nil, or_false] at hshort
    rcases hshort with rfl | rfl | rfl | rfl | rfl | rfl | rfl
    · exact .inl ⟨by decide, '"', rfl, by decide, rfl⟩
    · exact .inl ⟨by decide, '\\', rfl, by decide, rfl⟩
    · exact .inl ⟨by decide, 'n', rfl, by decide, rfl⟩
    · exact .inl ⟨by decide, 'r', rfl, by decide, rfl⟩
    · exact .inl ⟨by decide, 't', rfl, by decide, rfl⟩
    · exact .inl ⟨by decide, 'b', rfl, by decide, rfl⟩
    · exact .inl ⟨by decide, 'f', rfl, by decide, rfl⟩
  · simp only [List.mem_cons, List.not_mem_nil, or_false, not_or] at hshort
    obtain ⟨hquote, hslash, hn, hr, ht, hb, hf⟩ := hshort
    rw [stringChar, if_neg hquote, if_neg hslash, if_neg hn, if_neg hr, if_neg ht, if_neg hb, if_neg hf]
    split_ifs with hplain hunit
    · simp only [Bool.and_eq_true, decide_eq_true_eq] at hplain
      exact .inr (.inl ⟨by omega, rfl, hquote, hslash, hplain.1⟩)
    · exact .inr (.inr (.inl ⟨hunit, rfl⟩))
    · exact .inr (.inr (.inr ⟨by omega, rfl⟩))

/-- Reading a printed character gives its units. -/
theorem stringUnits_stringChar (rest : List Char) (c e : Char) :
    stringUnits start (stringChar c ++ e :: rest) =
      (stringUnits start (e :: rest)).map fun r => (charUnits c ++ r.1, r.2) := by
  have hlt := toNat_lt c
  obtain ⟨h, x, hc, hx, hesc⟩ | ⟨h, hc, hquote, hslash, h32⟩ | ⟨h, hc⟩ | ⟨h, hc⟩ := stringChar_cases c
  · rw [hc, charUnits, if_pos h]
    exact stringUnits_escaped start hx hesc _
  · rw [hc, charUnits, if_pos h]
    exact stringUnits_plain start hquote hslash (by omega) _
  · rw [hc, stringUnits_unitEscape start rest e h, charUnits, if_pos h]
    rfl
  · have hnot : ¬c.toNat < 0x10000 := by omega
    obtain ⟨u, us, hlow⟩ := List.exists_cons_of_ne_nil
      (l := unitEscape (0xDC00 + (c.toNat - 0x10000) % 0x400)) (by simp [unitEscape])
    rw [hc, List.append_assoc, hlow, List.cons_append, stringUnits_unitEscape _ _ _ (by omega), ← List.cons_append,
      ← hlow, stringUnits_unitEscape _ _ _ (by omega), charUnits, if_neg hnot]
    cases stringUnits start (e :: rest) <;> rfl

/-- The units of a text are read up to the closing quote. -/
theorem stringUnits_stringChars (rest cs : List Char) :
    stringUnits start (cs.flatMap stringChar ++ '"' :: rest) = .ok (cs.flatMap charUnits, rest) := by
  induction cs with
  | nil => exact stringUnits_quote start rest
  | cons c cs ih =>
    -- what follows the character is not empty: another character or the closing quote
    obtain ⟨e, es, he⟩ := List.exists_cons_of_ne_nil (l := cs.flatMap stringChar ++ '"' :: rest) (by simp)
    rw [List.flatMap_cons, List.append_assoc, he, stringUnits_stringChar, ← he, ih, List.flatMap_cons]
    rfl

theorem isHalf_toNat (c : Char) : isHalf c.toNat = false := by
  simpa [isHalf] using not_surrogate c

/-- Joining the units of a character gives it back. -/
theorem joinUnits?_charUnits (c : Char) (ns : List Nat) :
    joinUnits? (charUnits c ++ ns) = (joinUnits? ns).map (c :: ·) := by
  have hlt := toNat_lt c
  unfold charUnits
  split_ifs with h
  · cases ns with
    | nil => simp [joinUnits?, isHalf_toNat]
    | cons n ns =>
      have hhigh : ¬(0xD800 ≤ c.toNat ∧ c.toNat < 0xDC00 ∧ 0xDC00 ≤ n ∧ n < 0xE000) := by
        have := not_surrogate c
        omega
      simp only [List.cons_append, List.nil_append, joinUnits?]
      rw [if_neg (by simpa [and_assoc] using hhigh), isHalf_toNat, Char.ofNat_toNat]
      rfl
  · have hpair : 0x10000 + (0xD800 + (c.toNat - 0x10000) / 0x400 - 0xD800) * 0x400 +
        (0xDC00 + (c.toNat - 0x10000) % 0x400 - 0xDC00) = c.toNat := by omega
    simp only [List.cons_append, List.nil_append, joinUnits?]
    rw [if_pos (by simp only [Bool.and_eq_true, decide_eq_true_eq]; omega), hpair, Char.ofNat_toNat]

theorem joinUnits?_flatMap (cs : List Char) : joinUnits? (cs.flatMap charUnits) = some cs := by
  induction cs with
  | nil => rfl
  | cons c cs ih => rw [List.flatMap_cons, joinUnits?_charUnits, ih, Option.map_some]

/-- A printed string is read back. -/
theorem string_stringChars (s : String) (rest : List Char) :
    string (s.toList.flatMap stringChar ++ '"' :: rest) = .ok (s, rest) := by
  rw [string, stringUnits_stringChars]
  simp [bind, Except.bind, joinUnits?_flatMap]

/-! ## Values -/

mutual

/-- A value in which no object has two fields of one name. -/
def Distinct : Json → Prop
  | null | bool _ | int _ | float _ | str _ => True
  | arr items => DistinctItems items
  | obj fields => (fields.map Prod.fst).Nodup ∧ DistinctFields fields

/-- `Distinct` of every item. -/
def DistinctItems : List Json → Prop
  | [] => True
  | v :: items => v.Distinct ∧ DistinctItems items

/-- `Distinct` of the value of every field. -/
def DistinctFields : List (String × Json) → Prop
  | [] => True
  | f :: fields => f.2.Distinct ∧ DistinctFields fields

end

/-- Separators that are a comma or a colon before white space. -/
structure Separators.Legible (sep : Separators) : Prop where
  /-- A comma, perhaps before white space. -/
  item : ∃ blanks, sep.item = ',' :: blanks ∧ ∀ cs, skipBlanks (blanks ++ cs) = skipBlanks cs
  /-- A colon, perhaps before white space. -/
  pair : ∃ blanks, sep.pair = ':' :: blanks ∧ ∀ cs, skipBlanks (blanks ++ cs) = skipBlanks cs

theorem Separators.legible_compact : Separators.compact.Legible :=
  ⟨⟨[], rfl, fun _ => rfl⟩, ⟨[], rfl, fun _ => rfl⟩⟩

theorem Separators.legible_spaced : Separators.spaced.Legible :=
  ⟨⟨[' '], rfl, fun _ => rfl⟩, ⟨[' '], rfl, fun _ => rfl⟩⟩

theorem skipBlanks_cons {c : Char} (h : (c = ' ' || c = '\t' || c = '\n' || c = '\r') = false) (cs : List Char) :
    skipBlanks (c :: cs) = c :: cs := by
  rw [skipBlanks, List.dropWhile_cons_of_neg (by simpa using h)]

/-- The first character of a number is not blank, ends no array and is no byte order mark. -/
theorem opening_of_sign {c : Char} (hc : c = '-' ∨ c.isDigit = true) :
    (∀ cs, skipBlanks (c :: cs) = c :: cs) ∧ c ≠ ']' ∧ c ≠ '\uFEFF' := by
  have hne : ∀ d : Char, d.isDigit = false → d ≠ '-' → c ≠ d := by
    rintro d hd hminus rfl
    rcases hc with rfl | hc
    · exact hminus rfl
    · rw [hd] at hc
      cases hc
  refine ⟨skipBlanks_cons ?_, hne _ (by decide) (by decide), hne _ (by decide) (by decide)⟩
  simp [hne ' ' (by decide) (by decide), hne '\t' (by decide) (by decide), hne '\n' (by decide) (by decide),
    hne '\r' (by decide) (by decide)]

/-- The first character of a printed value is not blank, ends no array and is no byte order mark. -/
theorem exists_chars_eq (sep : Separators) (v : Json) : ∃ c cs, v.chars sep = c :: cs ∧
    (∀ cs, skipBlanks (c :: cs) = c :: cs) ∧ c ≠ ']' ∧ c ≠ '\uFEFF' := by
  match v with
  | null => exact ⟨'n', _, by simp only [chars]; rfl, fun _ => rfl, by decide⟩
  | bool true => exact ⟨'t', _, by simp only [chars]; rfl, fun _ => rfl, by decide⟩
  | bool false => exact ⟨'f', _, by simp only [chars]; rfl, fun _ => rfl, by decide⟩
  | str s => exact ⟨'"', _, by simp only [chars]; rfl, fun _ => rfl, by decide⟩
  | arr [] => exact ⟨'[', _, by simp only [chars]; rfl, fun _ => rfl, by decide⟩
  | arr (_ :: _) => exact ⟨'[', _, by simp only [chars]; rfl, fun _ => rfl, by decide⟩
  | obj [] => exact ⟨'{', _, by simp only [chars]; rfl, fun _ => rfl, by decide⟩
  | obj (_ :: _) => exact ⟨'{', _, by simp only [chars]; rfl, fun _ => rfl, by decide⟩
  | int i =>
    obtain ⟨c, cs, htext, hc⟩ := exists_intText_eq i
    exact ⟨c, cs, by rw [chars, htext], opening_of_sign hc⟩
  | float x =>
    obtain ⟨c, cs, htext, hc⟩ := exists_floatChars_eq x
    refine ⟨c, cs, by rw [chars, htext], ?_⟩
    obtain hc | hc | rfl | rfl := hc
    · exact opening_of_sign (.inl hc)
    · exact opening_of_sign (.inr hc)
    · exact ⟨fun _ => rfl, by decide⟩
    · exact ⟨fun _ => rfl, by decide⟩

theorem skipBlanks_chars (sep : Separators) (v : Json) (cs : List Char) :
    skipBlanks (v.chars sep ++ cs) = v.chars sep ++ cs := by
  obtain ⟨c, _, hc, hblank, -⟩ := exists_chars_eq sep v
  rw [hc, List.cons_append, hblank]

/-- A new field comes last. -/
theorem put_of_not_mem {fields : Fields} {name : String} (v : Json) (h : name ∉ fields.map Prod.fst) :
    fields.put name v = fields ++ [(name, v)] := by
  induction fields with
  | nil => rfl
  | cons f fields ih =>
    simp only [List.map_cons, List.mem_cons, not_or] at h
    rw [Fields.put, if_neg fun e => h.1 e.symm, ih h.2]
    rfl

theorem not_mem_of_nodup_append {acc fields : Fields} {k : String} {v : Json}
    (h : ((acc ++ (k, v) :: fields).map Prod.fst).Nodup) : k ∉ acc.map Prod.fst := by
  rw [List.map_append, List.nodup_append] at h
  intro hk
  exact h.2.2 k hk k (by simp) rfl

variable {sep : Separators}

/-- Behind its bracket an array that is not empty is read item by item. -/
theorem value_bracket {c : Char} (hblank : ∀ cs, skipBlanks (c :: cs) = c :: cs) (hend : c ≠ ']') (fuel : Nat)
    (cs : List Char) :
    value (fuel + 1) ('[' :: c :: cs) = (elements fuel (c :: cs)).map fun r => (.arr r.1, r.2) := by
  rw [value, hblank]
  split
  · rename_i h
    exact absurd (List.cons.inj h).1 hend
  · rfl

/-- How fields are read on behind one. -/
def nextMembers (fuel : Nat) (fields : Fields) (rest : List Char) : Except Stop (Fields × List Char) :=
  match skipBlanks rest with
  | '}' :: rest => .ok (fields, rest)
  | ',' :: rest => members fuel fields (skipBlanks rest)
  | rest => .error (.complaint .expectingComma rest)

/-- Reading a printed field goes on behind its value. -/
theorem members_field (hsep : sep.Legible) {v : Json} {fuel : Nat} {rest : List Char}
    (hread : value fuel (v.chars sep ++ rest) = .ok (v, rest)) (acc : Fields) (k : String) :
    members (fuel + 1) acc (stringChars k ++ sep.pair ++ v.chars sep ++ rest) =
      nextMembers fuel (acc.put k v) rest := by
  obtain ⟨blanks, hpair, hskip⟩ := hsep.pair
  simp (disch := decide) only [stringChars, List.cons_append, List.append_assoc, List.nil_append, members,
    string_stringChars, hpair, bind, Except.bind, skipBlanks_cons, hskip, skipBlanks_chars sep v, hread]
  rfl

/-- The printed value is read back, whatever follows, unless a number could go on there. -/
def ReadsBack (sep : Separators) (v : Json) : Prop :=
  ∀ (fuel : Nat) (rest : List Char), (v.chars sep).length ≤ fuel → Ends rest →
    value fuel (v.chars sep ++ rest) = .ok (v, rest)

-- the statements about lists have a head of their own, which is known to be read back, and recurse on the others
mutual

theorem readsBack (hsep : sep.Legible) : ∀ v : Json, v.Distinct → v.isShort = true → v.ReadsBack sep
  | v, _, _, 0, rest, hfuel, _ => by
    obtain ⟨c, cs, hc, -⟩ := exists_chars_eq sep v
    rw [hc] at hfuel
    simp at hfuel
  | null, _, _, fuel + 1, rest, _, _ | bool true, _, _, fuel + 1, rest, _, _
  | bool false, _, _, fuel + 1, rest, _, _ => by
    rw [chars]
    rfl
  | int i, _, hshort, fuel + 1, rest, _, hrest => by
    rw [isShort, decide_eq_true_eq] at hshort
    rw [chars, value_intText fuel i hrest, checkDigits, if_pos hshort]
  | float x, _, _, fuel + 1, rest, _, hrest => by
    rw [chars, value_floatChars fuel x hrest]
  | str s, _, _, fuel + 1, rest, _, _ => by
    simp only [chars, stringChars, List.cons_append, List.append_assoc, List.nil_append]
    show (string (s.toList.flatMap stringChar ++ '"' :: rest)).map _ = _
    rw [string_stringChars]
    rfl
  | arr [], _, _, fuel + 1, rest, _, _ | obj [], _, _, fuel + 1, rest, _, _ => by
    rw [chars]
    rfl
  | arr (v :: items), hv, hshort, fuel + 1, rest, hfuel, _ => by
    obtain ⟨c, cs, hc, hblank, hend, -⟩ := exists_chars_eq sep v
    rw [isShort, areShort, Bool.and_eq_true] at hshort
    have hitems := elements_chars hsep items hv.2 hshort.2 v (readsBack hsep v hv.1 hshort.1) fuel rest (by
      simp only [chars, List.length_cons, List.length_append] at hfuel ⊢
      omega)
    simp only [chars, hc, List.cons_append, List.append_assoc, List.nil_append] at hitems ⊢
    rw [value_bracket hblank hend, hitems]
    rfl
  | obj ((k, v) :: fields), hv, hshort, fuel + 1, rest, hfuel, _ => by
    rw [isShort, fieldsAreShort, Bool.and_eq_true] at hshort
    have hroom : (stringChars k ++ sep.pair ++ v.chars sep ++ fieldChars sep fields).length < fuel := by
      simp only [chars, List.length_cons, List.length_append] at hfuel ⊢
      omega
    have hread := readsBack hsep v hv.2.1 hshort.1
    have hfields := members_chars hsep fields hv.2.2 hshort.2 k v hread [] hv.1 fuel rest hroom
    simp only [chars, stringChars, List.cons_append, List.append_assoc, List.nil_append] at hfields ⊢
    show (members fuel [] _).map _ = _
    rw [hfields]
    rfl

/-- Printed items are read back up to the end of their array. -/
theorem elements_chars (hsep : sep.Legible) : ∀ items : List Json, DistinctItems items → areShort items = true →
    ∀ v : Json, v.ReadsBack sep → ∀ (fuel : Nat) (rest : List Char),
      (v.chars sep ++ itemChars sep items).length < fuel →
        elements fuel (v.chars sep ++ itemChars sep items ++ ']' :: rest) = .ok (v :: items, rest)
  | _, _, _, _, _, 0, _, hfuel => by
    omega
  | [], _, _, v, hread, fuel + 1, rest, hfuel => by
    simp only [itemChars, List.append_nil] at hfuel ⊢
    simp [elements, hread fuel (']' :: rest) (by omega) (ends_cons (by decide)), skipBlanks, bind, Except.bind]
  | w :: items, hitems, hshort, v, hread, fuel + 1, rest, hfuel => by
    obtain ⟨blanks, hitem, hskip⟩ := hsep.item
    rw [areShort, Bool.and_eq_true] at hshort
    have hnext := elements_chars hsep items hitems.2 hshort.2 w (readsBack hsep w hitems.1 hshort.1) fuel rest (by
      simp only [itemChars, hitem, List.length_cons, List.length_append] at hfuel ⊢
      omega)
    rw [List.append_assoc, ← skipBlanks_chars sep w] at hnext
    simp only [itemChars, List.append_assoc, hitem, List.cons_append, elements] at hnext ⊢
    rw [hread fuel _ (by
      simp only [itemChars, hitem, List.length_cons, List.length_append] at hfuel
      omega) (ends_cons (by decide))]
    simp (disch := decide) only [bind, Except.bind, skipBlanks_cons, hskip, hnext, Except.map]

/-- Printed fields are read back up to the end of their object, behind those read before. -/
theorem members_chars (hsep : sep.Legible) : ∀ fields : List (String × Json), DistinctFields fields →
    fieldsAreShort fields = true → ∀ (k : String) (v : Json), v.ReadsBack sep →
    ∀ acc : Fields, ((acc ++ (k, v) :: fields).map Prod.fst).Nodup → ∀ (fuel : Nat) (rest : List Char),
      (stringChars k ++ sep.pair ++ v.chars sep ++ fieldChars sep fields).length < fuel →
      members fuel acc (stringChars k ++ sep.pair ++ v.chars sep ++ fieldChars sep fields ++ '}' :: rest) =
        .ok (acc ++ (k, v) :: fields, rest)
  | _, _, _, _, _, _, _, _, 0, _, hfuel => by
    omega
  | [], _, _, k, v, hread, acc, hnd, fuel + 1, rest, hfuel => by
    have hput : acc.put k v = acc ++ [(k, v)] := put_of_not_mem v (not_mem_of_nodup_append hnd)
    simp only [fieldChars, List.append_nil] at hfuel ⊢
    have hlen : (v.chars sep).length ≤ fuel := by
      simp only [List.length_append] at hfuel
      omega
    rw [members_field hsep (hread fuel _ hlen (ends_cons (by decide))), hput]
    rfl
  | (k', w) :: fields, hfields, hshort, k, v, hread, acc, hnd, fuel + 1, rest, hfuel => by
    obtain ⟨blanks, hitem, hskip⟩ := hsep.item
    rw [fieldsAreShort, Bool.and_eq_true] at hshort
    have hput : acc.put k v = acc ++ [(k, v)] := put_of_not_mem v (not_mem_of_nodup_append hnd)
    have hnext := members_chars hsep fields hfields.2 hshort.2 k' w (readsBack hsep w hfields.1 hshort.1)
      (acc ++ [(k, v)]) (by simpa using hnd) fuel rest (by
        simp only [fieldChars, hitem, List.length_cons, List.length_append] at hfuel ⊢
        omega)
    have hlen : (v.chars sep).length ≤ fuel := by
      simp only [List.length_append] at hfuel
      omega
    have hends : Ends (fieldChars sep ((k', w) :: fields) ++ '}' :: rest) := by
      rw [fieldChars, hitem]
      exact ends_cons (by decide)
    rw [List.append_assoc _ (fieldChars sep _), members_field hsep (hread fuel _ hlen hends), hput]
    simp (disch := decide) only [fieldChars, hitem, stringChars, List.cons_append, List.append_assoc, List.nil_append,
      nextMembers, skipBlanks_cons, hskip] at hnext ⊢
    exact hnext

end

/-- Printed text is read back, as far as its integers are. -/
theorem parse_render (hsep : sep.Legible) {v : Json} (hv : v.Distinct) (hshort : v.isShort = true) :
    parse (v.render sep) = .ok v := by
  have hbom : ∀ rest, v.chars sep ≠ '\uFEFF' :: rest := by
    obtain ⟨c, cs, hc, -, -, hc'⟩ := exists_chars_eq sep v
    intro rest h
    rw [hc] at h
    exact hc' (List.cons.inj h).1
  have hread : value (2 * (v.chars sep).length + 2) (skipBlanks (v.chars sep)) = .ok (v, []) := by
    have h := readsBack hsep v hv hshort (2 * (v.chars sep).length + 2) [] (by omega) ends_nil
    rwa [← skipBlanks_chars sep v, List.append_nil] at h
  have hdoc : document (v.chars sep) = .ok v := by
    unfold document
    split
    · rename_i rest h
      exact absurd h (hbom rest)
    · rw [hread]
      rfl
  rw [parse, render, String.toList_ofList, hdoc]
  rfl

/-! ## Line ends -/

theorem Separators.shown_compact : Shown Separators.compact.item ∧ Shown Separators.compact.pair := by
  simp [Shown, Separators.compact]

theorem Separators.shown_spaced : Shown Separators.spaced.item ∧ Shown Separators.spaced.pair := by
  simp [Shown, Separators.spaced]

theorem shown_hex : ∀ width n, Shown (hex width n)
  | 0, _ => by simp [Shown, hex]
  | width + 1, n => by
    have hdigit : ∀ d < 16, 32 ≤ (hexDigit d).toNat := by decide
    exact (shown_hex width _).append (Shown.cons (hdigit _ (Nat.mod_lt n (by decide))) (by simp [Shown]))

theorem shown_unitEscape (n : Nat) : Shown (unitEscape n) :=
  Shown.cons (by decide) (Shown.cons (by decide) (shown_hex 4 n))

theorem shown_stringChar (c : Char) : Shown (stringChar c) := by
  obtain ⟨-, x, hc, -, hx⟩ | ⟨-, hc, -, -, h32⟩ | ⟨-, hc⟩ | ⟨-, hc⟩ := stringChar_cases c
  · -- a short escape is a backslash and a letter
    have hletter : 32 ≤ x.toNat := by
      unfold escaped? at hx
      split_ifs at hx with h1 h2 h3 h4 h5 h6
      · simp only [Bool.or_eq_true, decide_eq_true_eq] at h1
        rcases h1 with (rfl | rfl) | rfl <;> decide
      all_goals
        subst_vars
        decide
    rw [hc]
    exact Shown.cons (by decide) (Shown.cons hletter (by simp [Shown]))
  · rw [hc]
    exact Shown.cons h32 (by simp [Shown])
  · rw [hc]
    exact shown_unitEscape _
  · rw [hc]
    exact (shown_unitEscape _).append (shown_unitEscape _)

theorem shown_stringChars (s : String) : Shown (stringChars s) := by
  have hinner : Shown (s.toList.flatMap stringChar) := by
    intro c hc
    obtain ⟨d, -, hd⟩ := List.mem_flatMap.1 hc
    exact shown_stringChar d c hd
  exact Shown.append (Shown.cons (by decide) hinner) (Shown.cons (by decide) (by simp [Shown]))

mutual

/-- Line ends are printed as escapes. -/
theorem shown_chars (hitem : Shown sep.item) (hpair : Shown sep.pair) : ∀ v : Json, Shown (v.chars sep)
  | null | bool true | bool false | arr [] | obj [] => by
    simp [chars, Shown]
  | int i => by
    rw [chars]
    exact shown_intText i
  | float x => by
    rw [chars]
    exact shown_floatChars x
  | str s => by
    rw [chars]
    exact shown_stringChars s
  | arr (v :: items) => by
    rw [chars]
    exact (Shown.cons (by decide) ((shown_chars hitem hpair v).append (shown_itemChars hitem hpair items))).append
      (Shown.cons (by decide) (by simp [Shown]))
  | obj ((k, v) :: fields) => by
    rw [chars]
    exact (Shown.cons (by decide) ((((shown_stringChars k).append hpair).append (shown_chars hitem hpair v)).append
      (shown_fieldChars hitem hpair fields))).append (Shown.cons (by decide) (by simp [Shown]))

theorem shown_itemChars (hitem : Shown sep.item) (hpair : Shown sep.pair) :
    ∀ items : List Json, Shown (itemChars sep items)
  | [] => by simp [itemChars, Shown]
  | v :: items => by
    rw [itemChars]
    exact (hitem.append (shown_chars hitem hpair v)).append (shown_itemChars hitem hpair items)

theorem shown_fieldChars (hitem : Shown sep.item) (hpair : Shown sep.pair) :
    ∀ fields : List (String × Json), Shown (fieldChars sep fields)
  | [] => by simp [fieldChars, Shown]
  | (k, v) :: fields => by
    rw [fieldChars]
    exact (((hitem.append (shown_stringChars k)).append hpair).append (shown_chars hitem hpair v)).append
      (shown_fieldChars hitem hpair fields)

end

end HintQuality.Json
