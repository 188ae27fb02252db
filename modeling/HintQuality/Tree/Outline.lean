import HintQuality.Tree.Basic
/-!
# Outlines

Trees for people to read. The children of a body type, such as a script, stand below it, one a line and indented; all
other children stand behind it in parentheses, on the same line if none of them needs several.
-/

namespace HintQuality.Tree

/-- Lines moved to the right. -/
def indent (lines : List String) : List String :=
  lines.map ("  " ++ ·)

/-- The lines of a node from its own text and the lines of its children. -/
def layout (isBody : Bool) (text : String) (blocks : List (List String)) : List String :=
  if blocks.isEmpty then [text]
  else if isBody then (text ++ ":") :: blocks.flatMap indent
  else if blocks.all (·.length = 1) then [text ++ "(" ++ ", ".intercalate blocks.flatten ++ ")"]
  else (text ++ "(") :: blocks.flatMap indent ++ [")"]

mutual

/-- The lines of an outline. -/
def outlineLines (isBody : String → Bool) (showValues : Bool) : Tree → List String
  | node l s => layout (isBody l.type) (l.text showValues) (slotBlocks isBody showValues s)

/-- The lines of each child. -/
def slotBlocks (isBody : String → Bool) (showValues : Bool) : List (Slot Tree) → List (List String)
  | [] => []
  | ⟨_, none⟩ :: s => slotBlocks isBody showValues s
  | ⟨_, some t⟩ :: s => t.outlineLines isBody showValues :: slotBlocks isBody showValues s

end

/-- The outline of a tree. -/
def outline (t : Tree) (isBody : String → Bool) (showValues : Bool := true) : String :=
  "\n".intercalate (t.outlineLines isBody showValues)

end HintQuality.Tree
