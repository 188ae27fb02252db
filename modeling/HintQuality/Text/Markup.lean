/-!
# Markup text

Text inside HTML: the five characters that markup could read as its own are written as entities. Main statements:
`unescape?_escape`, reading back gives the text, and `not_mem_escape`, escaped text holds no angle bracket and no
quotation mark.
-/

namespace HintQuality.Text.Markup

/-- One character inside markup. -/
def escapeChar (c : Char) : List Char :=
  if c = '&' then ['&', 'a', 'm', 'p', ';']
  else if c = '<' then ['&', 'l', 't', ';']
  else if c = '>' then ['&', 'g', 't', ';']
  else if c = '"' then ['&', 'q', 'u', 'o', 't', ';']
  else if c = '\'' then ['&', '#', 'x', '2', '7', ';']
  else [c]

/-- Characters inside markup. -/
def escapeChars (cs : List Char) : List Char :=
  cs.flatMap escapeChar

/-- Text inside markup. -/
def escape (s : String) : String :=
  String.ofList (escapeChars s.toList)

/-- Reads the five entities; an ampersand begins one of them or the text is refused. -/
def unescape? : List Char → Option (List Char)
  | [] => some []
  | '&' :: 'a' :: 'm' :: 'p' :: ';' :: cs => (unescape? cs).map ('&' :: ·)
  | '&' :: 'l' :: 't' :: ';' :: cs => (unescape? cs).map ('<' :: ·)
  | '&' :: 'g' :: 't' :: ';' :: cs => (unescape? cs).map ('>' :: ·)
  | '&' :: 'q' :: 'u' :: 'o' :: 't' :: ';' :: cs => (unescape? cs).map ('"' :: ·)
  | '&' :: '#' :: 'x' :: '2' :: '7' :: ';' :: cs => (unescape? cs).map ('\'' :: ·)
  | c :: cs => if c = '&' then none else (unescape? cs).map (c :: ·)

theorem unescape?_escapeChar_append (c : Char) (cs : List Char) :
    unescape? (escapeChar c ++ cs) = (unescape? cs).map (c :: ·) := by
  unfold escapeChar
  split
  · subst_vars; rfl
  split
  · subst_vars; rfl
  split
  · subst_vars; rfl
  split
  · subst_vars; rfl
  split
  · subst_vars; rfl
  · rename_i h _ _ _ _
    rw [List.singleton_append, unescape?, if_neg h] <;> (intros; simp_all)

/-- Reading escaped text gives the text. -/
theorem unescape?_escape (cs : List Char) : unescape? (escapeChars cs) = some cs := by
  induction cs with
  | nil => rfl
  | cons c cs ih =>
    have hrest : unescape? (cs.flatMap escapeChar) = some cs := ih
    rw [escapeChars, List.flatMap_cons, unescape?_escapeChar_append, hrest, Option.map_some]

/-- Escaped text holds no angle bracket and no quotation mark. -/
theorem not_mem_escape {x : Char} (hx : x = '<' ∨ x = '>' ∨ x = '"' ∨ x = '\'') (cs : List Char) :
    x ∉ escapeChars cs := by
  rw [escapeChars, List.mem_flatMap]
  rintro ⟨c, -, hc⟩
  unfold escapeChar at hc
  split at hc
  · rcases hx with rfl | rfl | rfl | rfl <;> simp at hc
  split at hc
  · rcases hx with rfl | rfl | rfl | rfl <;> simp at hc
  split at hc
  · rcases hx with rfl | rfl | rfl | rfl <;> simp at hc
  split at hc
  · rcases hx with rfl | rfl | rfl | rfl <;> simp at hc
  split at hc
  · rcases hx with rfl | rfl | rfl | rfl <;> simp at hc
  · rw [List.mem_singleton] at hc
    subst hc
    rcases hx with h | h | h | h <;> contradiction

end HintQuality.Text.Markup
