import MacroLisp.Binary64.Text
import MacroLisp.Reader.Error
import MacroLisp.Reader.Form
import MacroLisp.Text.Quoted
import Std.Data.TreeMap.Basic

namespace MacroLisp

/-- A function from the form after a tag to the node that stands for both, or a message. Tags are
not mangled. -/
structure ReaderMacro where
  tag : String
  module : String
  apply : Node → Except String Node

abbrev ReaderMacros := Std.TreeMap String ReaderMacro

namespace Form

def intOfWord : List Char → Int
  | '-' :: ds => -(Binary64.natOfDigits ds)
  | ds => Binary64.natOfDigits (WordKind.dropSign ds)

def inInt64 (n : Int) : Bool := Int64.minValue.toInt ≤ n && n ≤ Int64.maxValue.toInt

def unsignedWord (w : List Char) : String :=
  String.ofList (w.dropWhile (· = '+'))

def buildWord (kind : WordKind) (w : List Char) (s : Span) : Except ReadError Node :=
  match kind with
  | .keyword => .ok (.literal (.keyword (String.ofList (w.drop 1))) s)
  | .float => .ok (.literal (.float ((Binary64.ofText? w).getD (.zero false))) s)
  | .integer =>
    if inInt64 (intOfWord w) then .ok (.literal (.int (Int64.ofInt (intOfWord w))) s)
    else .error (.integerOutOfRange (unsignedWord w) s)
  | .symbol => .ok (.symbol (String.ofList w) s)

variable (macros : ReaderMacros)

mutual

/-- The node of a form. A tag is looked up before the form after it is built. -/
def build : Form → Except ReadError Node
  | .word kind w s => buildWord kind w s
  | .string inner s => .ok (.literal (.string (String.ofList (Text.Quoted.decode inner))) s)
  | .marked mark body s => do
    let n ← build body
    return .form [.symbol mark.head s, n] s
  | .tagged tag body s =>
    match macros[String.ofList tag]? with
    | none => .error (.unknownTag (String.ofList tag) s)
    | some m => do
      let n ← build body
      match m.apply n with
      | .ok n => .ok n
      | .error message => .error (.readerMacroFailed (String.ofList tag) message s)
  | .sequence d items s => do
    let ns ← buildAll items
    return .sequence d ns s

def buildAll : List Form → Except ReadError (List Node)
  | [] => .ok []
  | form :: forms => do
    let n ← build form
    let ns ← buildAll forms
    return n :: ns

end

end Form

end MacroLisp
