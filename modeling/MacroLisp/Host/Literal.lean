import MacroLisp.Binary64.Text
import MacroLisp.Host.Expr

namespace MacroLisp.Host

/-- A string is in single quotes, unless it contains those and no double ones. -/
def quoteFor (cs : List Char) : Char :=
  if cs.contains '\'' && !cs.contains '"' then '"' else '\''

def escapeChar (quote c : Char) : List Char :=
  match c with
  | '\\' => ['\\', '\\']
  | '\n' => ['\\', 'n']
  | '\t' => ['\\', 't']
  | '\r' => ['\\', 'r']
  | _ => if c = quote then ['\\', c] else [c]

def stringChars (cs : List Char) : List Char :=
  quoteFor cs :: cs.flatMap (escapeChar (quoteFor cs)) ++ [quoteFor cs]

def stringText (s : String) : String := String.ofList (stringChars s.toList)

def floatText (x : Binary64) : String := if x.isNaN then "nan" else x.text

namespace Constant

def text : Constant → String
  | none => "None"
  | bool true => "True"
  | bool false => "False"
  | int n => toString n.toInt
  | float x => floatText x
  | string s => stringText s

/-- Whether the text begins with a minus sign, or would if NaN had one. -/
def isNegative : Constant → Bool
  | int n => n < 0
  | float x => x.isNegative
  | _ => false

end Constant

end MacroLisp.Host
