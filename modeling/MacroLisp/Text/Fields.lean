namespace MacroLisp.Text

variable (sep : Char)

def split : List Char → List (List Char)
  | [] => [[]]
  | c :: cs =>
    if c = sep then [] :: split cs
    else match split cs with
      | [] => [[c]]
      | field :: fields => (c :: field) :: fields

def join : List (List Char) → List Char
  | [] => []
  | [field] => field
  | field :: fields => field ++ sep :: join fields

theorem split_ne_nil (cs : List Char) : split sep cs ≠ [] := by
  cases cs with
  | nil => simp [split]
  | cons c cs =>
    simp only [split]
    split
    · simp
    · split <;> simp

theorem join_cons_of_ne_nil (field : List Char) {fields : List (List Char)} (h : fields ≠ []) :
    join sep (field :: fields) = field ++ sep :: join sep fields := by
  cases fields with
  | nil => exact absurd rfl h
  | cons f fs => rfl

theorem join_split (cs : List Char) : join sep (split sep cs) = cs := by
  induction cs with
  | nil => rfl
  | cons c cs ih =>
    simp only [split]
    split
    · next h => rw [join_cons_of_ne_nil sep [] (split_ne_nil sep cs), ih, h]; rfl
    · split
      · next h => exact absurd h (split_ne_nil sep cs)
      · next field fields h =>
        cases fields with
        | nil => simp_all [join]
        | cons f fs => simp_all [join]

def fields (s : String) : List String := (split sep s.toList).map String.ofList

end MacroLisp.Text
