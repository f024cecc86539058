namespace MacroLisp

/-- The half-open interval of offsets that a node was read from. Offsets count the bytes of the text in UTF-8. -/
structure Span where
  start : Nat
  stop : Nat
  deriving DecidableEq, Repr, Inhabited

namespace Span

variable (a b : Span)

def nowhere : Span := ⟨0, 0⟩

def join : Span := ⟨min a.start b.start, max a.stop b.stop⟩

def length : Nat := a.stop - a.start

def isEmpty : Bool := a.length == 0

end Span

end MacroLisp
