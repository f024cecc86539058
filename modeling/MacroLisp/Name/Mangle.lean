import MacroLisp.Name.Identifier
import MacroLisp.Text.Fields

namespace MacroLisp.Name

def escapeMark : List Char := "hyx_".toList

def escapeDelimiter : Char := 'X'

def spelling (c : Char) : String :=
  match c with
  | ' ' => "space"
  | '!' => "exclamation_mark"
  | '"' => "quotation_mark"
  | '#' => "number_sign"
  | '$' => "dollar_sign"
  | '%' => "percent_sign"
  | '&' => "ampersand"
  | '\'' => "apostrophe"
  | '(' => "left_parenthesis"
  | ')' => "right_parenthesis"
  | '*' => "asterisk"
  | '+' => "plus_sign"
  | ',' => "comma"
  | '-' => "hyphenHminus"
  | '.' => "full_stop"
  | '/' => "solidus"
  | ':' => "colon"
  | ';' => "semicolon"
  | '<' => "lessHthan_sign"
  | '=' => "equals_sign"
  | '>' => "greaterHthan_sign"
  | '?' => "question_mark"
  | '@' => "commercial_at"
  | '[' => "left_square_bracket"
  | '\\' => "reverse_solidus"
  | ']' => "right_square_bracket"
  | '^' => "circumflex_accent"
  | '\x60' => "grave_accent"
  | '{' => "left_curly_bracket"
  | '|' => "vertical_line"
  | '}' => "right_curly_bracket"
  | '~' => "tilde"
  | 'X' => "latin_capital_letter_x"
  | _ => "U" ++ String.ofList (Nat.toDigits 16 c.toNat)

def escapeChar (c : Char) : List Char :=
  if c ≠ escapeDelimiter ∧ isIdentifierPart c then [c]
  else escapeDelimiter :: (spelling c).toList ++ [escapeDelimiter]

def convertHyphens : List Char → List Char
  | [] => []
  | c :: cs => c :: cs.map fun d => if d = '-' then '_' else d

/-- Mangles a name without regard to dots. Leading underscores are set aside and stay in front. -/
def mangleComponent (cs : List Char) : List Char :=
  if cs.isEmpty then []
  else
    let leading := cs.takeWhile (· = '_')
    let body := convertHyphens (cs.dropWhile (· = '_'))
    if isIdentifierChars (leading ++ body) then leading ++ body
    else leading ++ escapeMark ++ body.flatMap escapeChar

/-- Mangles the components of a dotted name. A name made only of dots is one component. -/
def mangleChars (cs : List Char) : List Char :=
  if cs.contains '.' && !cs.all (· = '.') then
    Text.join '.' ((Text.split '.' cs).map mangleComponent)
  else mangleComponent cs

/-- A name that is an identifier once its hyphens are underscores stays readable; any other is marked and has the
offending characters spelled out. -/
def mangle (name : String) : String := String.ofList (mangleChars name.toList)

end MacroLisp.Name
