/-!
# JSON values

Decoded JSON. Integers are exact and apart from doubles, and the fields of an object keep their order; a field name
occurs once. `put` replaces a field where it stands, so the last of several equal names wins and keeps the first
one's place (`keys_put_of_mem`, `keys_put_of_not_mem`).
-/

namespace HintQuality

/-- A JSON value. -/
inductive Json where
  | null
  | bool (b : Bool)
  | int (i : Int)
  | float (x : Float)
  | str (s : String)
  | arr (items : List Json)
  | obj (fields : List (String × Json))
  deriving Inhabited, Repr

namespace Json

/-- The fields of an object, in order. -/
abbrev Fields := List (String × Json)

/-- The value of the first field of a name. -/
def Fields.get? (fields : Fields) (name : String) : Option Json :=
  fields.lookup name

/-- Sets a field: in its place if the name is there, at the end if not. -/
def Fields.put : Fields → String → Json → Fields
  | [], name, v => [(name, v)]
  | (k, w) :: fields, name, v => if k = name then (k, v) :: fields else (k, w) :: Fields.put fields name v

/-- The fields of `fields`, overridden and extended by those of `others`. -/
def Fields.putAll (fields others : Fields) : Fields :=
  others.foldl (fun acc f => acc.put f.1 f.2) fields

/-- A field of an object that is there and not null. -/
def Fields.given? (fields : Fields) (name : String) : Option Json :=
  match fields.get? name with
  | none | some .null => none
  | some v => some v

/-- A value that counts as nothing: null, false, zero, and empty text, arrays and objects. -/
def isEmptyLike : Json → Bool
  | null => true
  | bool b => !b
  | int i => i == 0
  | float x => x == 0.0
  | str s => s.isEmpty
  | arr items => items.isEmpty
  | obj fields => fields.isEmpty

/-- Replacing a field keeps the names and their order. -/
theorem keys_put_of_mem {fields : Fields} {name : String} (v : Json) (h : name ∈ fields.map Prod.fst) :
    (fields.put name v).map Prod.fst = fields.map Prod.fst := by
  induction fields with
  | nil => simp at h
  | cons f fields ih =>
    obtain ⟨k, w⟩ := f
    by_cases hk : k = name
    · simp [Fields.put, hk]
    · have h' : name ∈ fields.map Prod.fst := by
        rcases List.mem_cons.1 h with h | h
        · exact absurd h.symm hk
        · exact h
      simp [Fields.put, hk, ih h']

/-- A new field comes last. -/
theorem keys_put_of_not_mem {fields : Fields} {name : String} (v : Json) (h : name ∉ fields.map Prod.fst) :
    (fields.put name v).map Prod.fst = fields.map Prod.fst ++ [name] := by
  induction fields with
  | nil => rfl
  | cons f fields ih =>
    obtain ⟨k, w⟩ := f
    have hk : k ≠ name := fun e => h (by simp [e])
    have h' : name ∉ fields.map Prod.fst := fun m => h (by simp only [List.map_cons]; exact List.mem_cons_of_mem _ m)
    simp [Fields.put, hk, ih h']

end Json

end HintQuality
