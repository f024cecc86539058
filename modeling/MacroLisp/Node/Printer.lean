import MacroLisp.Node.Basic
import MacroLisp.Binary64.Text
import MacroLisp.Text.Quoted

namespace MacroLisp

def Literal.text : Literal → String
  | string value => Text.Quoted.literal value
  | int value => toString value.toInt
  | float value => value.text
  | keyword name => ":" ++ name

def Delimiter.wrap (d : Delimiter) (inner : String) : String :=
  String.singleton d.opening ++ inner ++ String.singleton d.closing

namespace Node

mutual

def text : Node → String
  | symbol name _ => name
  | literal value _ => value.text
  | sequence d items _ => d.wrap (" ".intercalate (texts items))

def texts : List Node → List String
  | [] => []
  | n :: ns => text n :: texts ns

end

@[simp] theorem texts_eq_map (ns : List Node) : texts ns = ns.map text := by
  induction ns with
  | nil => rfl
  | cons n ns ih => simp [texts, ih]

end Node

end MacroLisp
