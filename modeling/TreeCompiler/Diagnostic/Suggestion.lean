/-
Suggestions for misspelt names.
-/
namespace TreeCompiler.Diagnostic

/-! ### Edit distance

The distances from a text to every beginning of another are kept in a row.  Reading one more
character of the first text gives the next row. -/

/-- The rest of the next row.  `c` is the character read, `left` the entry just made, `diagonal` the
entry of the last row above it, `above` what follows that entry. -/
def nextEntries (c : Char) : (left diagonal : Nat) → (above : List Nat) → List Char → List Nat
  | left, diagonal, up :: above, d :: rest =>
    let cost := if c = d then 0 else 1
    let entry := min (min (up + 1) (left + 1)) (diagonal + cost)
    entry :: nextEntries c entry up above rest
  | _, _, _, _ => []

/-- The row after one more character of the first text. -/
def nextRow (target : List Char) (row : List Nat) (c : Char) : List Nat :=
  match row with
  | [] => []
  | first :: above => (first + 1) :: nextEntries c (first + 1) first above target

/-- The least number of insertions, deletions and substitutions of single characters that turn one
text into another. -/
def editDistance (a b : String) : Nat :=
  let start := List.range (b.toList.length + 1)
  ((a.toList.foldl (nextRow b.toList) start).getLast?).getD 0

/-! ### Names that are close -/

/-- How far away a name may be; short names have to be closer. -/
def maxDistance (name : String) : Nat :=
  if name.length ≤ 2 then 1 else if name.length ≤ 5 then 2 else 3

/-- Whether a candidate is worth measuring: it is another name of about the same size in bytes. -/
def isCandidate (name candidate : String) : Bool :=
  let longer := max name.utf8ByteSize candidate.utf8ByteSize
  let shorter := min name.utf8ByteSize candidate.utf8ByteSize
  candidate ≠ name && decide (longer - shorter ≤ maxDistance name)

/-- Keep the better of the best name so far and one more candidate; the earlier wins a tie. -/
def closer (name : String) (best : Option (String × Nat)) (candidate : String) :
    Option (String × Nat) :=
  if isCandidate name candidate then
    let distance := editDistance name candidate
    let isCloser :=
      match best with
      | some (_, least) => decide (distance < least)
      | none => true
    if distance ≤ maxDistance name && isCloser then some (candidate, distance) else best
  else best

/-- The candidate closest to a name, if one is close enough. -/
def closest? (name : String) (candidates : List String) : Option String :=
  (candidates.foldl (closer name) none).map (·.1)

/-- The suggestion in words. -/
def didYouMean (name : String) (candidates : List String) : Option String :=
  (closest? name candidates).map fun found => "did you mean `" ++ found ++ "`?"

end TreeCompiler.Diagnostic
