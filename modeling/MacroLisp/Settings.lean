import MacroLisp.Json.Reader
import MacroLisp.Json.Record
import MacroLisp.Json.Writer

namespace MacroLisp

structure Settings where
  /-- How many steps a form may take; any number if absent. -/
  stepLimit : Option Nat
  /-- Whether the steps are shown with the result. -/
  recordTrace : Bool
  /-- The module that definitions go to. -/
  module : String
  deriving DecidableEq, Repr

namespace Settings

def default : Settings := ⟨none, false, "__main__"⟩

def field {α : Type} (absent : α) (read : Json → Option α) : Option Json → Option α
  | none => some absent
  | some j => read j

def limitOfJson? : Json → Option (Option Nat)
  | .null => some none
  | j => j.nat64?.map some

def ofJson? (j : Json) : Option Settings :=
  match Json.fields? ["step_limit", "record_trace", "module"] j with
  | some [limit, trace, module] => do
    return ⟨← field default.stepLimit limitOfJson? limit, ← field default.recordTrace Json.bool? trace,
      ← field default.module Json.string? module⟩
  | _ => none

def ofJsonText? (text : String) : Option Settings := do ofJson? (← Json.parse? text)

def toJson (s : Settings) : Json :=
  .record [("step_limit", (s.stepLimit.map Json.ofNat).getD .null), ("record_trace", .bool s.recordTrace),
    ("module", .ofString s.module)]

end Settings

end MacroLisp
