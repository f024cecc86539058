import MacroLisp.Text.Fields

namespace MacroLisp.Trace

def words (s : String) : List String := if s.isEmpty then [] else Text.fields ' ' s

/-- The lengths of the longest common subsequences of the beginnings of two lists of words, one row
for each word of the first. The rows lie end to end, so the entry before the first of a row is the
last of the row above. -/
structure CommonTable where
  width : Nat
  entries : Array Nat

namespace CommonTable

def row (word : String) : List String → Nat → Nat → List Nat → List Nat
  | other :: others, corner, left, above :: aboves =>
    let entry := if other = word then corner + 1 else max left above
    entry :: row word others above entry aboves
  | _, _, _, _ => []

def rows (after : List String) : List Nat → List String → List Nat
  | _, [] => []
  | above, word :: before =>
    let r := row word after 0 0 above
    r ++ rows after r before

def ofWords (before after : List String) : CommonTable :=
  ⟨after.length, (rows after (List.replicate after.length 0) before).toArray⟩

variable (t : CommonTable)

def entry (k : Nat) : Nat := t.entries.getD k 0

def walk (before after : Array String) : Nat → Nat → List String → List String
  | i + 1, j + 1, found =>
    let word := before.getD i ""
    if word = after.getD j "" then walk before after i j (word :: found)
    else if i = 0 then walk before after 1 j found
    else
      let here := i * t.width + j
      if t.entry (here - t.width) < t.entry (here - 1) then walk before after (i + 1) j found
      else walk before after i (j + 1) found
  | _, _, found => found
termination_by i j => i + j

end CommonTable

def common (before after : List String) : List String :=
  (CommonTable.ofWords before after).walk before.toArray after.toArray before.length after.length []

inductive Change
  | kept
  | removed
  | added
  deriving DecidableEq, Repr

def wordChanges : List String → List String → List String → List (Change × String)
  | x :: xs, y :: ys, z :: zs =>
    if x ≠ z then (.removed, x) :: wordChanges xs (y :: ys) (z :: zs)
    else if y ≠ z then (.added, y) :: wordChanges (x :: xs) ys (z :: zs)
    else (.kept, x) :: wordChanges xs ys zs
  | xs, ys, _ => xs.map (fun x => (.removed, x)) ++ ys.map fun y => (.added, y)
termination_by xs ys => xs.length + ys.length

def joinRuns : List (Change × String) → List (Change × String)
  | [] => []
  | (c, s) :: rest =>
    match joinRuns rest with
    | (d, t) :: runs => if c = d then (c, s ++ " " ++ t) :: runs else (c, s) :: (d, t) :: runs
    | [] => [(c, s)]

def changes (before after : String) : List (Change × String) :=
  let shared := words (" ".intercalate (common (words before) (words after)))
  joinRuns (wordChanges (words before) (words after) shared)

end MacroLisp.Trace
