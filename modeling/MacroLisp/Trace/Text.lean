import MacroLisp.Expansion.Engine
import MacroLisp.Trace.Diff

namespace MacroLisp.Trace

inductive Style
  | plain
  | heading
  | removed
  | added
  deriving DecidableEq, Repr

/-- The control sequence that begins a style. It undoes the style before. -/
def Style.sequence : Style → String
  | plain => "\x1b[0m"
  | heading => "\x1b[0m\x1b[1m\x1b[33m"
  | removed => "\x1b[0m\x1b[31m"
  | added => "\x1b[0m\x1b[32m"

def Change.style : Change → Style
  | kept => .plain
  | removed => .removed
  | added => .added

section Coloring

variable (colors : Bool)

def start (s : Style) : String := if colors then s.sequence else ""

def changeText (c : Change × String) : String := start colors c.1.style ++ c.2 ++ " "

def heading (index : Nat) (step : Step) : String :=
  "--- Step " ++ index.repr ++ ": " ++ step.name ++ " (" ++ step.provenance.label ++ ") ---\n"

def stepText (index : Nat) (step : Step) : String :=
  start colors .heading ++ heading index step ++ start colors .plain ++
    String.join ((changes step.input.text step.output.text).map (changeText colors)) ++
    start colors .plain ++ "\n\n"

def text (steps : List Step) : String :=
  if steps.isEmpty then "no macro expansions\n"
  else String.join (steps.mapIdx (stepText colors))

end Coloring

end MacroLisp.Trace
