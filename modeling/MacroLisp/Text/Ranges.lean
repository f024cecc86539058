namespace MacroLisp.Text

abbrev Ranges := List (Nat × Nat)

namespace Ranges

/-- Membership stops at the first interval that begins above `n`, so the intervals are in
ascending order. -/
def covers (n : Nat) : Ranges → Bool
  | [] => false
  | (lo, hi) :: rest => lo ≤ n && (n ≤ hi || covers n rest)

end Ranges

end MacroLisp.Text
