import MacroLisp.Text.Alphabetic
import MacroLisp.Text.Numeric

namespace MacroLisp.Name

def isIdentifierStart (c : Char) : Bool := c == '_' || Text.isAlphabetic c

def isIdentifierPart (c : Char) : Bool := c == '_' || Text.isAlphabetic c || Text.isNumeric c

def isIdentifierChars : List Char → Bool
  | [] => false
  | c :: cs => isIdentifierStart c && cs.all isIdentifierPart

def isIdentifier (name : String) : Bool := isIdentifierChars name.toList

end MacroLisp.Name
