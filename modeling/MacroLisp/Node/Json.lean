import MacroLisp.Json.Reader
import MacroLisp.Json.Record
import MacroLisp.Node.Basic

namespace MacroLisp

def Span.toJson (s : Span) : Json := .record [("start", .ofNat s.start), ("end", .ofNat s.stop)]

def Span.ofJson? (j : Json) : Option Span :=
  match Json.fields? ["start", "end"] j with
  | some [some start, some stop] => do return ⟨← start.nat64?, ← stop.nat64?⟩
  | _ => none

def Delimiter.kind : Delimiter → String
  | paren => "Paren"
  | bracket => "Bracket"
  | brace => "Brace"

def Delimiter.ofKind? : String → Option Delimiter
  | "Paren" => some paren
  | "Bracket" => some bracket
  | "Brace" => some brace
  | _ => none

def Delimiter.ofJson? : Json → Option Delimiter
  | .string (some kind) => ofKind? kind
  | .object [(some kind, .null)] => ofKind? kind
  | _ => none

/-- A float that is not finite has no JSON. -/
def Literal.toJson : Literal → Json
  | string s => .record [("String", .ofString s)]
  | int n => .record [("Int", .ofInt n.toInt)]
  | float x => .record [("Float", (x.dataText?.map Json.number).getD .null)]
  | keyword k => .record [("Keyword", .ofString k)]

def Literal.ofJson? (j : Json) : Option Literal := do
  match ← j.tagged? with
  | ("String", j) => return .string (← j.string?)
  | ("Int", j) => return .int (← j.int64?)
  | ("Float", j) => return .float (← j.binary64?)
  | ("Keyword", j) => return .keyword (← j.string?)
  | _ => none

namespace Node

def jsonOf (value : Json) (s : Span) : Json := .record [("value", value), ("span", s.toJson)]

mutual

def toJson : Node → Json
  | symbol name s => jsonOf (.record [("Symbol", .ofString name)]) s
  | literal value s => jsonOf (.record [("Literal", value.toJson)]) s
  | sequence d items s =>
    jsonOf (.record [("Sequence", .array [.ofString d.kind, .array (toJsonList items)])]) s

def toJsonList : List Node → List Json
  | [] => []
  | n :: ns => toJson n :: toJsonList ns

end

def partsOfJson? (j : Json) : Option ((String × Json) × Span) :=
  match Json.fields? ["value", "span"] j with
  | some [some value, some span] => do return (← value.tagged?, ← Span.ofJson? span)
  | _ => none

/-- A symbol takes two levels of nesting, a literal three and a sequence four, besides those of its
items. -/
def ofJson? : Nat → Json → Option Node
  | depth + 4, j => do
    let (value, s) ← partsOfJson? j
    match value with
    | ("Symbol", j) => return symbol (← j.string?) s
    | ("Literal", j) => return literal (← Literal.ofJson? j) s
    | ("Sequence", .array [d, .array items]) =>
      return sequence (← Delimiter.ofJson? d) (← items.mapM (ofJson? depth)) s
    | _ => none
  | depth, j => do
    let (value, s) ← partsOfJson? j
    match value with
    | ("Symbol", j) => if 2 ≤ depth then return symbol (← j.string?) s else none
    | ("Literal", j) => if 3 ≤ depth then return literal (← Literal.ofJson? j) s else none
    | _ => none

def ofJsonText? (text : String) : Option Node := do ofJson? Json.nestingLimit (← Json.parse? text)

def listOfJsonText? (text : String) : Option (List Node) := do
  match ← Json.parse? text with
  | .array items => items.mapM (ofJson? (Json.nestingLimit - 1))
  | _ => none

end Node

end MacroLisp
