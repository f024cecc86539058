import MacroLisp.Node.Printer

namespace MacroLisp

inductive ExpansionError
  /-- The macro `name` gave up on `form`. -/
  | macroFailed (name : String) (form : Node) (message : String)
  /-- After `limit` steps `form` was still a macro call. -/
  | stepLimit (limit : Nat) (form : Node)

namespace ExpansionError

def form : ExpansionError → Node
  | macroFailed _ form _ => form
  | stepLimit _ form => form

def code : ExpansionError → String
  | macroFailed .. => "quasi::macros::expansion"
  | stepLimit .. => "quasi::macros::step_limit"

def message : ExpansionError → String
  | macroFailed name _ message => "expanding macro " ++ name ++ ": " ++ message
  | stepLimit limit form => "macro expansion of " ++ form.text ++ " exceeded " ++ limit.repr ++ " steps"

def help? : ExpansionError → Option String
  | macroFailed .. => none
  | stepLimit .. =>
    some "a macro keeps expanding into another macro call; raise `step_limit` or fix the macro"

def macroName? : ExpansionError → Option String
  | macroFailed name .. => some name
  | stepLimit .. => none

end ExpansionError

end MacroLisp
