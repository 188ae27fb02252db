import HintQuality.Dataset.HintSet
import HintQuality.Gold.Spreadsheet
import HintQuality.Rating.Export
import HintQuality.Rating.Run
/-!
# Rating a dataset

A dataset is a folder with the spreadsheet of a gold standard and a folder of algorithms, each of them a folder of
outcomes. Every algorithm is rated, in the order of their names, and its ratings are written next to its folder.
-/

namespace HintQuality.Dataset

/-- The path of the gold standard. -/
def goldPath (root : Path) : Path :=
  root.child "gold-standard.csv"

/-- The path of the algorithms. -/
def algorithmsPath (root : Path) : Path :=
  root.child "algorithms"

/-- Reads the gold standard. -/
def loadGold (lib : TableLibrary) (f : Folder) (root : Path) : Traced GoldStandard := do
  let text ← Traced.lift (f.read (goldPath root))
  GoldStandard.ofText lib (goldPath root).text text

/-- The names of the algorithms, in order. -/
def algorithms (f : Folder) (root : Path) : List String :=
  (f.list (algorithmsPath root)).filter fun name => f.isFolder ((algorithmsPath root).child name)

/-- Writes the ratings of an algorithm. -/
def writeRatings (lib : TableLibrary) (recording : Recording) (f : Folder) (root : Path) (s : RatingSet Float) :
    Traced Unit := do
  let path := (algorithmsPath root).child (s.name ++ ".csv")
  let _ ← Traced.lift (f.place path)
  s.writeHints lib path.text
  recording.event "ResultsWritten" [("algorithm", .str s.name), ("path", .str path.text)]

/-- Rates an algorithm; also gives the next free number. -/
def rateAlgorithm (lib : TableLibrary) (recording : Recording) (f : Folder) (root : Path) (standard : GoldStandard)
    (policy : Policy) (writes : Bool) (next : Nat) (name : String) : Traced (RatingSet Float × Nat) := do
  let (set, next) ← HintSet.load f name ((algorithmsPath root).child name) next
  Traced.log .info name
  recording.event "HintSetLoaded" [("algorithm", .str name), ("outcomes", .int set.size)]
  let ratings ← HintQuality.rate recording standard set policy
  if writes then writeRatings lib recording f root ratings
  return (ratings, next)

/-- Rates algorithms one after the other. -/
def rateAlgorithms (lib : TableLibrary) (recording : Recording) (f : Folder) (root : Path) (standard : GoldStandard)
    (policy : Policy) (writes : Bool) : Nat → List String → Traced (List (RatingSet Float))
  | _, [] => pure []
  | next, name :: names => do
    let (ratings, next) ← rateAlgorithm lib recording f root standard policy writes next name
    return ratings :: (← rateAlgorithms lib recording f root standard policy writes next names)

/-- Rates every algorithm of a dataset. -/
def rate (lib : TableLibrary) (recording : Recording) (f : Folder) (root : Path) (policy : Policy) (writes : Bool) :
    Traced (List (RatingSet Float)) := do
  let standard ← loadGold lib f root
  recording.event "GoldStandardLoaded" [("path", .str (goldPath root).text), ("hints", .int standard.size)]
  if !f.isFolder (algorithmsPath root) then Traced.fail (.noAlgorithmsFolder (algorithmsPath root).text)
  else rateAlgorithms lib recording f root standard policy writes 0 (algorithms f root)

end HintQuality.Dataset
