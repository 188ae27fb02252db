import HintQuality.Folder.Basic
import HintQuality.Outcome
import HintQuality.Text.Lines
import HintQuality.Trace
/-!
# Folders of outcomes

The outcomes of an algorithm lie in a folder, one a file, each file in a folder of its assignment. They are read in
the order of their paths. Outcomes without an id are numbered on, from one algorithm to the next.
-/

namespace HintQuality

/-- Reads an outcome; also gives the next free number. -/
def Outcome.load (next : Nat) : Json → Traced (Outcome Float × Nat)
  | .obj fields => do
    let t ← Traced.parseTree (← Traced.lift (Outcome.require fields "result"))
    Traced.lift (Outcome.readRest fields (some t) next)
  | _ => Traced.fail .noSuchAttribute

namespace HintSet

/-- The paths of the files of outcomes in a folder, in order. -/
def files (f : Folder) (root : Path) : List Path :=
  ((f.list root).filter fun d => f.isFolder (root.child d)).flatMap fun d =>
    ((f.list (root.child d)).filter (Path.hasExtension · ".json")).map (root.child d).child

/-- Decodes a file of an outcome. -/
def decode (p : Path) (text : String) : Except Failure Json :=
  (Json.parse text).mapError (Failure.ofReadError fun e => .unreadableTree (.outcomeFile p.text e) (.str text))

/-- Reads the outcome in a file; also gives the next free number. -/
def loadFile (f : Folder) (next : Nat) (p : Path) : Traced (Outcome Float × Nat) := do
  let text ← Traced.lift (f.read p)
  Outcome.load next (← Traced.lift (decode p (String.ofList (Text.unifyBreaks text.toList))))

/-- Reads the outcomes in files; also gives the next free number. -/
def loadFiles (f : Folder) (next : Nat) : List Path → Traced (List (Outcome Float) × Nat)
  | [] => pure ([], next)
  | p :: ps => do
    let (o, next) ← loadFile f next p
    let (os, next) ← loadFiles f next ps
    return (o :: os, next)

/-- Reads the outcomes of an algorithm; also gives the next free number. -/
def load (f : Folder) (name : String) (root : Path) (next : Nat) : Traced (HintSet Float × Nat) := do
  if !f.isFolder root then Traced.fail (.noHintFolder root.text)
  else
    let (outcomes, next) ← loadFiles f next (files f root)
    Traced.log .info
      ("Loaded " ++ Text.natText outcomes.length ++ " outcomes for " ++ name ++ " from " ++ root.text)
    return (⟨name, outcomes⟩, next)

end HintSet

end HintQuality
