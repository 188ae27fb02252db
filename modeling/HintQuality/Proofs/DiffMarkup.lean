import HintQuality.Proofs.DiffContext
import HintQuality.Proofs.LineDiffs
/-!
# Differences in markup

A line in markup is the plain line, escaped, and if it is a changed line in the colour of its mark (`toList_render`).
Escaped text holds no angle bracket, so the tags around it are found and nothing else is taken for one (`unwrap_wrap`).
A reader that takes the tags away and reads the entities is left with the plain difference (`markup_shows_diff`).
-/

namespace HintQuality.Diff

open Text (Unbroken)
open Text.Markup (escapeChar escapeChars unescape?)

/-! ## Tags -/

/-- The tag that starts the colour of a mark. -/
def Mark.startTag (m : Mark) : List Char :=
  ("<span style=\"color: " ++ m.color ++ "\">").toList

/-- The tag that ends a colour. -/
def endTag : List Char :=
  ['<', '/', 's', 'p', 'a', 'n', '>']

/-- The tag that ends a line. -/
def breakTag : List Char :=
  ['<', 'b', 'r', ' ', '/', '>']

/-- Characters in the colour of a mark; kept ones have no colour. -/
def wrap (m : Mark) (cs : List Char) : List Char :=
  if m = .kept then cs else m.startTag ++ cs ++ endTag

/-- What is in the colour of a mark. -/
def Mark.inside? (m : Mark) (line : List Char) : Option (List Char) :=
  (line.dropPrefix? m.startTag).bind (·.dropSuffix? endTag)

/-- A line of markup without the tags around it: the mark whose colour it has, and what is left. -/
def unwrap (line : List Char) : Mark × List Char :=
  let line := (line.dropSuffix? breakTag).getD line
  match Mark.removed.inside? line, Mark.added.inside? line with
  | some cs, _ => (.removed, cs)
  | none, some cs => (.added, cs)
  | none, none => (.kept, line)

theorem dropPrefix?_append (p s : List Char) : (p ++ s).dropPrefix? p = some s :=
  List.dropPrefix?_eq_some_iff.2 ⟨p, rfl, beq_self_eq_true p⟩

theorem dropSuffix?_append (p s : List Char) : (p ++ s).dropSuffix? s = some p :=
  List.dropSuffix?_eq_some_iff.2 ⟨s, rfl, beq_self_eq_true s⟩

/-- Text without angle brackets is in no colour. -/
theorem inside?_of_not_mem (m : Mark) {cs : List Char} (hcs : '<' ∉ cs) : m.inside? cs = none := by
  have hnone : cs.dropPrefix? m.startTag = none := by
    rw [Option.eq_none_iff_forall_ne_some]
    intro s hs
    obtain ⟨p, rfl, hp⟩ := List.dropPrefix?_eq_some_iff.1 hs
    rw [eq_of_beq hp] at hcs
    exact hcs (List.mem_append_left _ (by simp [Mark.startTag]))
  rw [Mark.inside?, hnone, Option.bind_none]

/-- The tags of two colours start different lines. -/
theorem startTag_append_ne {m m' : Mark} (hm : m ≠ .kept) (hm' : m' ≠ .kept) (hne : m ≠ m') (cs cs' : List Char) :
    m.startTag ++ cs ≠ m'.startTag ++ cs' := by
  cases m <;> cases m' <;> simp_all [Mark.startTag, Mark.color]

/-- Wrapped text is in the colour of its own mark and in no other one. -/
theorem inside?_wrap (m m' : Mark) (hm' : m' ≠ .kept) {cs : List Char} (hcs : '<' ∉ cs) :
    m'.inside? (wrap m cs) = if m = m' then some cs else none := by
  rw [wrap]
  by_cases hm : m = .kept
  · rw [if_pos hm, if_neg (fun h => hm' (h.symm.trans hm)), inside?_of_not_mem m' hcs]
  · rw [if_neg hm, Mark.inside?, List.append_assoc]
    by_cases hne : m = m'
    · rw [if_pos hne, hne, dropPrefix?_append, Option.bind_some, dropSuffix?_append]
    · have hnone : (m.startTag ++ (cs ++ endTag)).dropPrefix? m'.startTag = none := by
        rw [Option.eq_none_iff_forall_ne_some]
        intro s hs
        obtain ⟨p, he, hp⟩ := List.dropPrefix?_eq_some_iff.1 hs
        rw [eq_of_beq hp] at he
        exact startTag_append_ne hm hm' hne _ _ he
      rw [if_neg hne, hnone, Option.bind_none]

/-- No line of markup ends with the tag that ends lines before it gets one. -/
theorem dropSuffix?_wrap (m : Mark) {cs : List Char} (hcs : '<' ∉ cs) : (wrap m cs).dropSuffix? breakTag = none := by
  rw [Option.eq_none_iff_forall_ne_some]
  intro p hp
  obtain ⟨s, he, hs⟩ := List.dropSuffix?_eq_some_iff.1 hp
  rw [eq_of_beq hs] at he
  unfold wrap at he
  split at he
  · rw [he] at hcs
    exact hcs (List.mem_append_right _ (by simp [breakTag]))
  · have hend : endTag = ['<'] ++ ['/', 's', 'p', 'a', 'n', '>'] := rfl
    rw [hend, ← List.append_assoc] at he
    cases (List.append_inj' he rfl).2

/-- The tags around a line are found, whether it is the last one or not. -/
theorem unwrap_wrap (m : Mark) {cs : List Char} (hcs : '<' ∉ cs) :
    unwrap (wrap m cs) = (m, cs) ∧ unwrap (wrap m cs ++ breakTag) = (m, cs) := by
  have hremoved := inside?_wrap m .removed (by decide) hcs
  have hadded := inside?_wrap m .added (by decide) hcs
  have hread : (match Mark.removed.inside? (wrap m cs), Mark.added.inside? (wrap m cs) with
      | some cs, _ => (Mark.removed, cs)
      | none, some cs => (.added, cs)
      | none, none => (.kept, wrap m cs)) = (m, cs) := by
    rw [hremoved, hadded]
    cases m <;> rfl
  constructor
  · rw [unwrap, dropSuffix?_wrap m hcs]
    exact hread
  · rw [unwrap, dropSuffix?_append]
    exact hread

/-! ## Lines in markup -/

theorem escapeChar_of_space (cs : List Char) : escapeChars (' ' :: cs) = ' ' :: escapeChars cs := rfl

theorem unbroken_escapeChar {c : Char} (h : Text.isBreak c = false) : Unbroken (escapeChar c) := by
  unfold escapeChar
  split_ifs
  · decide
  · decide
  · decide
  · decide
  · decide
  · intro d hd
    rw [List.mem_singleton.1 hd]
    exact h

/-- Escaping makes no line breaks. -/
theorem unbroken_escapeChars {cs : List Char} (h : Unbroken cs) : Unbroken (escapeChars cs) := by
  intro d hd
  obtain ⟨c, hc, hd⟩ := List.mem_flatMap.1 hd
  exact unbroken_escapeChar (h c hc) d hd

/-- A line in markup is the plain line, escaped and in the colour of its mark. -/
theorem toList_render (l : Line) : (l.render .html).toList = wrap l.mark (escapeChars l.plain.toList) := by
  obtain ⟨mark, text⟩ := l
  cases mark with
  | kept => simp [Line.render, wrap, toList_plain, Text.Markup.escape, Mark.sign, escapeChar_of_space]
  | removed => simp [Line.render, wrap, Mark.startTag, endTag, Mark.color, Text.Markup.escape]
  | added => simp [Line.render, wrap, Mark.startTag, endTag, Mark.color, Text.Markup.escape]

/-- The mark that the sign of a plain line stands for. -/
def signOf (l : String) : Mark :=
  if Mark.removed.leads l then .removed else if Mark.added.leads l then .added else .kept

theorem signOf_plain (l : Line) : signOf l.plain = l.mark := by
  rw [signOf, leads_plain, leads_plain]
  cases l.mark <;> rfl

theorem unbroken_wrap (m : Mark) {cs : List Char} (h : Unbroken cs) : Unbroken (wrap m cs) := by
  have htags : Unbroken m.startTag ∧ Unbroken endTag := by
    cases m <;> decide
  unfold wrap
  split_ifs
  · exact h
  · exact (htags.1.append h).append htags.2

theorem wrap_ne_nil (m : Mark) {cs : List Char} (h : cs ≠ []) : wrap m cs ≠ [] := by
  unfold wrap
  split_ifs
  · exact h
  · simp [endTag]

theorem escapeChars_ne_nil {cs : List Char} (h : cs ≠ []) : escapeChars cs ≠ [] := by
  intro hnil
  have hread := Text.Markup.unescape?_escape cs
  rw [hnil] at hread
  exact h (Option.some.inj hread).symm

/-- What is shown in markup is what is shown in the plain style, escaped and in the colour of its sign. -/
theorem toList_render_markup {lines : List Line} {context : Option Int} {s : Shown} (hs : s ∈ inContext lines context) :
    (s.render .html lines).toList =
      wrap (signOf (s.render .none lines)) (escapeChars (s.render .none lines).toList) := by
  rcases render_cases hs with rfl | ⟨l, -, hrender⟩
  · have hgap : ∀ style, Shown.gap.render style lines = "..." := fun _ => rfl
    rw [hgap, hgap]
    decide
  · have hplain : l.render .none = l.plain := rfl
    rw [hrender, hrender, hplain, toList_render, signOf_plain]

/-- The lines of a difference in markup without the tags around them, and the marks of their colours. -/
def unwrappedLines (a b : String) (context : Option Int) : List (Mark × List Char) :=
  (Text.lines (diff a b context .html)).map fun l => unwrap l.toList

/-- Without the tags around them, the lines of a difference in markup are the plain ones, escaped. -/
theorem unwrappedLines_eq (a b : String) (context : Option Int) : unwrappedLines a b context =
    (renderedLines a b context .none).map fun l => (signOf l, escapeChars l.toList) := by
  let lines := diffLines (Text.lines a) (Text.lines b)
  have hwrapped : ∀ s ∈ inContext lines context, ∃ m cs, cs ≠ [] ∧ Unbroken cs ∧ '<' ∉ cs ∧
      (s.render .html lines).toList = wrap m cs ∧
        (m, cs) = (signOf (s.render .none lines), escapeChars (s.render .none lines).toList) := by
    intro s hs
    obtain ⟨hne, hunbroken⟩ := render_plain (unbroken_diffLines a b) hs
    exact ⟨_, _, escapeChars_ne_nil hne, unbroken_escapeChars hunbroken, Text.Markup.not_mem_escape (.inl rfl) _,
      toList_render_markup hs, rfl⟩
  have hbreak : "<br />".toList = breakTag := by simp [breakTag]
  have hunbroken : Unbroken "<br />".toList := by
    rw [hbreak]
    decide
  have hread := Text.map_lines_intercalate (f := unwrap) hunbroken fun t ht => by
    obtain ⟨s, hs, rfl⟩ := List.mem_map.1 ht
    obtain ⟨m, cs, hne, hunbroken, hcs, hhtml, -⟩ := hwrapped s hs
    rw [hhtml, hbreak]
    exact ⟨wrap_ne_nil m hne, unbroken_wrap m hunbroken, (unwrap_wrap m hcs).2.trans (unwrap_wrap m hcs).1.symm⟩
  refine hread.trans ?_
  show ((inContext lines context).map (Shown.render .html lines)).map (fun l => unwrap l.toList) =
    ((inContext lines context).map (Shown.render .none lines)).map _
  rw [List.map_map, List.map_map]
  refine List.map_congr_left fun s hs => ?_
  obtain ⟨m, cs, -, -, hcs, hhtml, he⟩ := hwrapped s hs
  show unwrap (s.render .html lines).toList = _
  rw [hhtml, (unwrap_wrap m hcs).1]
  exact he

/-- A difference in markup shows the plain difference, and nothing in it is taken for markup. Without the tags around
them and with the entities read, its lines are those of the plain difference one by one, each in the colour of its sign;
and without the tags around them they hold no angle bracket and no quotation mark. -/
theorem markup_shows_diff (a b : String) (context : Option Int) :
    (unwrappedLines a b context).map (fun p => (p.1, unescape? p.2)) =
        (Text.lines (diff a b context .none)).map (fun l => (signOf l, some l.toList)) ∧
      ∀ p ∈ unwrappedLines a b context, '<' ∉ p.2 ∧ '>' ∉ p.2 ∧ '"' ∉ p.2 ∧ '\'' ∉ p.2 := by
  rw [unwrappedLines_eq, lines_diff]
  constructor
  · rw [List.map_map]
    refine List.map_congr_left fun l _ => ?_
    show (signOf l, unescape? (escapeChars l.toList)) = (signOf l, some l.toList)
    rw [Text.Markup.unescape?_escape]
  · intro p hp
    obtain ⟨l, -, rfl⟩ := List.mem_map.1 hp
    have hnot := fun c h => Text.Markup.not_mem_escape (x := c) h l.toList
    exact ⟨hnot _ (by simp), hnot _ (by simp), hnot _ (by simp), hnot _ (by simp)⟩

end HintQuality.Diff
