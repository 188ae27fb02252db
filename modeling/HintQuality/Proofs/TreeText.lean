import HintQuality.Outcome
import HintQuality.Proofs.JsonText
import HintQuality.Proofs.Lists
import HintQuality.Proofs.WellFormed
/-!
# Trees through JSON

A tree with distinct slot labels that is written as JSON is read back with a placeholder node in every empty slot
(`parse_toJson`, `parse_toJsonText`), so a full tree is read back as it is (`filled_eq_of_full`). The reader meets the
children in the order in which they were written and every label once, so it refuses no slot
(`fillSlots_of_lookup`).
-/

namespace HintQuality

namespace Tree

mutual

/-- The tree with a placeholder node in every empty slot. -/
def filled : Tree → Tree
  | node l s => node l (filledSlots s)

/-- The slots with a placeholder node in every empty one, and `filled` children. -/
def filledSlots : List (Slot Tree) → List (Slot Tree)
  | [] => []
  | ⟨r, none⟩ :: s => ⟨r, some (leaf { type := emptyType })⟩ :: filledSlots s
  | ⟨r, some t⟩ :: s => ⟨r, some t.filled⟩ :: filledSlots s

end

/-- A node has distinct labels if its slots and all its children have. -/
theorem distinctLabels_node {l : Label} {s : List (Slot Tree)} : (node l s).DistinctLabels ↔
    (Slots.relations s).Nodup ∧ ∀ r t, ⟨r, some t⟩ ∈ s → t.DistinctLabels :=
  forall_nodes_iff

theorem full_node {l : Label} {s : List (Slot Tree)} : (node l s).Full ↔
    (∀ c ∈ s, c.child.isSome) ∧ ∀ r t, ⟨r, some t⟩ ∈ s → t.Full :=
  forall_nodes_iff

mutual

/-- A tree without empty slots needs no placeholder nodes. -/
theorem filled_eq_of_full : ∀ t : Tree, t.Full → t.filled = t
  | node l s, h => by
    rw [full_node] at h
    rw [filled, filledSlots_eq s h.1 h.2]

theorem filledSlots_eq : ∀ s : List (Slot Tree), (∀ c ∈ s, c.child.isSome) → (∀ r t, ⟨r, some t⟩ ∈ s → t.Full) →
    filledSlots s = s
  | [], _, _ => rfl
  | ⟨r, none⟩ :: s, hsome, _ => absurd (hsome _ List.mem_cons_self) (by simp)
  | ⟨r, some t⟩ :: s, hsome, hfull => by
    rw [filledSlots, filled_eq_of_full t (hfull r t List.mem_cons_self),
      filledSlots_eq s (fun c hc => hsome c (List.mem_cons_of_mem _ hc))
        fun r t hm => hfull r t (List.mem_cons_of_mem _ hm)]

end

/-! ## Written trees -/

@[simp] theorem keys_slotEntries (s : List (Slot Tree)) : (slotEntries s).map Prod.fst = Slots.relations s := by
  induction s with
  | nil => rfl
  | cons c s ih =>
    obtain ⟨r, _ | t⟩ := c <;> simpa [slotEntries, Slots.relations] using ih

theorem distinctItems_names (entries : Json.Fields) : Json.DistinctItems (entries.map fun e => .str e.1) := by
  induction entries with
  | nil => trivial
  | cons e entries ih => exact ⟨trivial, ih⟩

/-- The fields of a written node have distinct names and, besides the children, hold texts. -/
theorem distinct_node {l : Label} {entries : Json.Fields} (hnd : (entries.map Prod.fst).Nodup)
    (hplain : Json.DistinctFields entries) : (Json.obj (labelFields l ++ childFields entries)).Distinct := by
  obtain ⟨type, value, id⟩ := l
  unfold childFields
  split_ifs
  · cases value <;> cases id <;> simp [labelFields, Json.Distinct, Json.DistinctFields]
  · cases value <;> cases id <;>
      exact ⟨by simp [labelFields], by simp [labelFields, Json.DistinctFields, Json.Distinct, hnd, hplain, distinctItems_names]⟩

theorem areShort_names (entries : Json.Fields) : Json.areShort (entries.map fun e => .str e.1) = true := by
  induction entries with
  | nil => rfl
  | cons e entries ih => exact ih

/-- Besides the children a written node has no integers. -/
theorem isShort_node {l : Label} {entries : Json.Fields} (hshort : Json.fieldsAreShort entries = true) :
    (Json.obj (labelFields l ++ childFields entries)).isShort = true := by
  obtain ⟨type, value, id⟩ := l
  unfold childFields
  split_ifs
  · cases value <;> cases id <;> rfl
  · cases value <;> cases id <;>
      simp [labelFields, Json.isShort, Json.fieldsAreShort, hshort, areShort_names]

mutual

/-- The JSON form of a tree with distinct labels has no repeated names. -/
theorem distinct_toJson : ∀ t : Tree, t.DistinctLabels → t.toJson.Distinct
  | node l s, h => by
    rw [distinctLabels_node] at h
    rw [toJson]
    exact distinct_node (by rw [keys_slotEntries]; exact h.1) (distinct_slotEntries s h.2)

theorem distinct_slotEntries : ∀ s : List (Slot Tree), (∀ r t, ⟨r, some t⟩ ∈ s → t.DistinctLabels) →
    Json.DistinctFields (slotEntries s)
  | [], _ => trivial
  | ⟨_, none⟩ :: s, h => ⟨trivial, distinct_slotEntries s fun r t hm => h r t (List.mem_cons_of_mem _ hm)⟩
  | ⟨r, some t⟩ :: s, h =>
    ⟨distinct_toJson t (h r t List.mem_cons_self), distinct_slotEntries s fun r t hm => h r t (List.mem_cons_of_mem _ hm)⟩

end

mutual

/-- The JSON form of a tree has no numbers at all. -/
theorem isShort_toJson : ∀ t : Tree, t.toJson.isShort = true
  | node l s => by
    have hslots := isShort_slotEntries s
    rw [toJson]
    exact isShort_node hslots

theorem isShort_slotEntries : ∀ s : List (Slot Tree), Json.fieldsAreShort (slotEntries s) = true
  | [] => rfl
  | ⟨_, none⟩ :: s => isShort_slotEntries s
  | ⟨_, some t⟩ :: s => by
    rw [slotEntries, Json.fieldsAreShort, isShort_toJson t, isShort_slotEntries s]
    rfl

end

/-! ## Reading a node -/

variable (l : Label) (entries : Json.Fields)

/-- A text is the text of itself. -/
@[simp] theorem textOf_str (s : String) : textOf (.str s) = .ok s := rfl

/-- The label of a written node is read back. -/
theorem readLabel_fields : readLabel (labelFields l ++ childFields entries) = .ok l := by
  obtain ⟨type, value, id⟩ := l
  unfold childFields
  split_ifs <;> cases value <;> cases id <;>
    simp [labelFields, readLabel, Json.Fields.get?, Json.Fields.given?, List.lookup_cons, List.lookup_nil, bind,
      Except.bind, pure, Except.pure]

theorem get?_children : Json.Fields.get? (labelFields l ++ childFields entries) "children" =
    if entries.isEmpty then none else some (.obj entries) := by
  obtain ⟨type, value, id⟩ := l
  unfold childFields
  split_ifs <;> cases value <;> cases id <;> simp [labelFields, Json.Fields.get?, List.lookup_cons, List.lookup_nil]

theorem readOrder_fields (children : Json) (h : ¬entries.isEmpty) :
    readOrder (labelFields l ++ childFields entries) children = .ok (entries.map fun e => .str e.1) := by
  obtain ⟨type, value, id⟩ := l
  rw [childFields, if_neg h]
  cases value <;> cases id <;>
    simp [labelFields, readOrder, Json.Fields.given?, Json.Fields.get?, List.lookup_cons]

theorem candidates_fields : candidates (labelFields l ++ childFields entries) = listCandidates entries := by
  obtain ⟨type, value, id⟩ := l
  unfold childFields
  split_ifs with h
  · obtain rfl : entries = [] := by simpa using h
    cases value <;> cases id <;> simp [labelFields, candidates, listCandidates]
  · cases value <;> cases id <;> simp [labelFields, candidates, entryCandidates]

/-! ## Reading children -/

/-- A new slot comes last. -/
theorem insert_of_not_mem {s : List (Slot Tree)} {t : Tree} {r : String} (h : r ∉ Slots.relations s) :
    Slots.insert s (some t) (some r) = some (s ++ [⟨r, some t⟩]) := by
  have hend : Slots.insertionPoint s.length s.length = s.length := by
    unfold Slots.insertionPoint
    split_ifs <;> omega
  simp [Slots.insert, hend, h]

/-- Children that are found under distinct labels fill slots in the order of these labels. -/
theorem fillSlots_of_lookup {entries : Json.Fields} {cands : Candidates} : ∀ {kids : List (String × Tree)}
    {s : List (Slot Tree)}, (∀ k ∈ kids, cands.lookup k.1 = some (.ok k.2)) →
    (Slots.relations s ++ kids.map Prod.fst).Nodup →
    fillSlots (.obj entries) cands s (kids.map fun k => .str k.1) = .ok (s ++ kids.map fun k => ⟨k.1, some k.2⟩)
  | [], s, _, _ => by
    rw [List.map_nil, List.map_nil, List.append_nil]
    rfl
  | (r, t) :: kids, s, hkids, hnd => by
    have hr : r ∉ Slots.relations s := by
      intro hr
      exact (List.nodup_append.1 hnd).2.2 r hr r (by simp) rfl
    have hnext : fillSlots (.obj entries) cands (s ++ [⟨r, some t⟩]) (kids.map fun k => .str k.1) =
        .ok (s ++ [⟨r, some t⟩] ++ kids.map fun k => ⟨k.1, some k.2⟩) :=
      fillSlots_of_lookup (fun k hk => hkids k (List.mem_cons_of_mem _ hk)) (by simpa [Slots.relations] using hnd)
    simp only [List.map_cons, fillSlots, textOf_str, pick, hkids _ List.mem_cons_self, Option.getD_some, bind, Except.bind,
      insert_of_not_mem hr, hnext, List.append_assoc, List.cons_append, List.nil_append]

/-- The labels and children of slots, with a placeholder node for every empty one. -/
def kids (s : List (Slot Tree)) : List (String × Tree) :=
  s.map fun c => (c.relation, (c.child.map filled).getD (leaf { type := emptyType }))

theorem map_kids (s : List (Slot Tree)) : (kids s).map (fun k => ⟨k.1, some k.2⟩) = filledSlots s := by
  induction s with
  | nil => rfl
  | cons c s ih =>
    obtain ⟨r, _ | t⟩ := c <;> simpa [kids, filledSlots] using ih

theorem keys_kids (s : List (Slot Tree)) : (kids s).map Prod.fst = Slots.relations s := by
  simp [kids, Slots.relations, Function.comp_def]

/-! ## Reading trees -/

mutual

/-- A tree with distinct labels is read back from its JSON form with its empty slots filled. -/
theorem ofJson_toJson : ∀ t : Tree, t.DistinctLabels → ofJson t.toJson = .ok t.filled
  | node l s, h => by
    rw [distinctLabels_node] at h
    have hlookup : ∀ k ∈ kids s, (listCandidates (slotEntries s)).lookup k.1 = some (.ok k.2) := by
      intro k hk
      rw [listCandidates_slotEntries s h.2]
      refine lookup_eq_of_nodup (x := (k.1, Except.ok k.2)) ?_ (List.mem_map.2 ⟨k, hk, rfl⟩)
      rw [List.map_map]
      exact (keys_kids s).symm ▸ h.1
    rw [toJson, ofJson, assemble, readLabel_fields, get?_children, candidates_fields, filled]
    simp only [bind, Except.bind]
    by_cases hs : (slotEntries s).isEmpty
    · have hkeys := keys_slotEntries s
      rw [List.isEmpty_iff.1 hs] at hkeys
      obtain rfl : s = [] := by simpa [Slots.relations] using hkeys.symm
      rfl
    · have hfill : fillSlots (.obj (slotEntries s)) (listCandidates (slotEntries s)) []
          ((slotEntries s).map fun e => .str e.1) = .ok ((kids s).map fun k => ⟨k.1, some k.2⟩) := by
        have hnames : ((slotEntries s).map fun e => Json.str e.1) = (kids s).map fun k => .str k.1 := by
          have hkeys := congrArg (List.map Json.str) ((keys_slotEntries s).trans (keys_kids s).symm)
          rwa [List.map_map, List.map_map] at hkeys
        rw [hnames]
        exact fillSlots_of_lookup hlookup (by rw [keys_kids]; exact h.1)
      rw [map_kids] at hfill
      simp only [if_neg hs, Json.isEmptyLike, readOrder_fields l _ _ hs, hfill]
      rfl

theorem listCandidates_slotEntries : ∀ s : List (Slot Tree), (∀ r t, ⟨r, some t⟩ ∈ s → t.DistinctLabels) →
    listCandidates (slotEntries s) = (kids s).map fun k => (k.1, .ok k.2)
  | [], _ => by
    simp [slotEntries, listCandidates, kids]
  | ⟨r, none⟩ :: s, h => by
    have hs := listCandidates_slotEntries s fun r t hm => h r t (List.mem_cons_of_mem _ hm)
    rw [slotEntries, listCandidates, hs]
    rfl
  | ⟨r, some (node l kids)⟩ :: s, h => by
    have hs := listCandidates_slotEntries s fun r t hm => h r t (List.mem_cons_of_mem _ hm)
    have ht := ofJson_toJson (node l kids) (h r _ List.mem_cons_self)
    rw [toJson] at ht
    rw [slotEntries, toJson, listCandidates, hs, ht]
    · rfl
    · simp

end

variable {t : Tree}

/-- A written tree is an object, so what it is read as is what its fields say. -/
theorem parse_toJson (h : t.DistinctLabels) : parse t.toJson = .ok t.filled := by
  obtain ⟨l, s⟩ := t
  have hread := ofJson_toJson _ h
  rw [toJson] at hread ⊢
  simp only [parse, bind, Except.bind, hread]
  rfl

theorem parse_toJsonText (h : t.DistinctLabels) : parse (.str t.toJsonText) = .ok t.filled := by
  have htext : Json.parse t.toJsonText = .ok t.toJson :=
    Json.parse_render Json.Separators.legible_compact (distinct_toJson t h) (isShort_toJson t)
  have hread := ofJson_toJson _ h
  obtain ⟨l, s⟩ := t
  rw [toJson] at hread htext
  simp only [parse, htext, Except.mapError, bind, Except.bind, hread]

end Tree

namespace Outcome

/-- An outcome with a tree, an id and a weight that is not negative is read back from its JSON form. -/
theorem ofJson_toJson {o : Outcome Float} {t : Tree} (ht : o.result = some t) (hwf : t.WellFormed)
    (hid : o.id ≠ .null) (hweight : ¬o.weight < 0.0) (next : Nat) : ofJson next o.toJson = .ok (o, next) := by
  obtain ⟨result, assignment, request, weight, id, properties⟩ := o
  obtain rfl : result = some t := ht
  have htree : Tree.parse t.toJson = .ok t := by
    rw [Tree.parse_toJson hwf.distinctLabels, Tree.filled_eq_of_full t hwf.full]
  have hproperties : readProperties (.obj (properties.map fun p => (p.1, .str p.2))) = .ok properties := by
    unfold readProperties
    cases properties <;> simp [Json.isEmptyLike, Json.display, Function.comp_def]
  have hgiven : ∀ fields : Json.Fields, takeId (("id", id) :: fields) next = (id, next) := by
    intro fields
    cases id <;> simp_all [takeId, Json.Fields.given?, Json.Fields.get?]
  have hcheck : checkWeight weight = .ok weight := if_neg hweight
  simp only [ofJson, readRest, toJson, require, Json.Fields.get?, List.lookup_cons, String.reduceBEq, BEq.rfl,
    Option.map_some, Option.getD_some, bind, Except.bind, htree, hgiven, hproperties, hcheck, Json.display,
    Json.toFloat]
  rfl

end Outcome

/-- Writing and reading are inverse. A tree with distinct labels comes back with a placeholder node in every empty
slot, as a value and as text, and unchanged if it has none; a tree that was read is written to what is read as the
same tree; and an outcome with a full tree and an id comes back as it was, whatever the next free number is. -/
theorem json_round_trip :
    (∀ t : Tree, t.DistinctLabels → Tree.parse t.toJson = .ok t.filled ∧
      Tree.parse (.str t.toJsonText) = .ok t.filled ∧ (t.Full → t.filled = t)) ∧
    (∀ (source : Json) (t : Tree), Tree.parse source = .ok t →
      Tree.parse t.toJson = .ok t ∧ Tree.parse (.str t.toJsonText) = .ok t) ∧
    ∀ (o : Outcome Float) (t : Tree) (next : Nat), o.result = some t → t.WellFormed → o.id ≠ .null →
      ¬o.weight < 0.0 → Outcome.ofJson next o.toJson = .ok (o, next) := by
  refine ⟨fun t h => ?_, fun source t h => ?_, fun o t next ht hwf hid hweight => ?_⟩
  · exact ⟨Tree.parse_toJson h, Tree.parse_toJsonText h, Tree.filled_eq_of_full t⟩
  · have hwf := Tree.wellFormed_of_parse h
    have hfilled := Tree.filled_eq_of_full t hwf.full
    rw [Tree.parse_toJson hwf.distinctLabels, Tree.parse_toJsonText hwf.distinctLabels, hfilled]
    exact ⟨rfl, rfl⟩
  · exact Outcome.ofJson_toJson ht hwf hid hweight next

/-- A node with an empty slot, empty texts and a label that reads as a number. -/
def sampleNode : Tree :=
  .node ⟨"", some "", none⟩ [⟨"10", none⟩, ⟨"", some (.leaf ⟨"null", none, some ""⟩)⟩]

theorem json_round_trip_of_sample :
    sampleNode.DistinctLabels ∧
    Tree.parse sampleNode.toJson = .ok (.node ⟨"", some "", none⟩
      [⟨"10", some (.leaf ⟨"null", none, none⟩)⟩, ⟨"", some (.leaf ⟨"null", none, some ""⟩)⟩]) ∧
    Tree.parse (.str sampleNode.filled.toJsonText) = .ok sampleNode.filled ∧
    Outcome.ofJson 7 (Outcome.toJson ⟨some sampleNode.filled, "a", "r", 0.5, .str "", [("", "")]⟩) =
      .ok (⟨some sampleNode.filled, "a", "r", 0.5, .str "", [("", "")]⟩, 7) := by
  have hlabels : sampleNode.DistinctLabels := by decide
  have hread := (json_round_trip.1 _ hlabels).1
  have hwf : sampleNode.filled.WellFormed := ⟨by decide, by decide⟩
  exact ⟨hlabels, hread, (json_round_trip.2.1 _ _ hread).2,
    json_round_trip.2.2 _ _ 7 rfl hwf (by simp) (by decide +kernel)⟩

end HintQuality
