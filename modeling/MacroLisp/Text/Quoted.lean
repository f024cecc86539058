import MacroLisp.Text.ExtendingMark
import MacroLisp.Text.Unprintable

namespace MacroLisp.Text.Quoted

def codePoint (c : Char) : List Char :=
  ['\\', 'u', '{'] ++ Nat.toDigits 16 c.toNat ++ ['}']

/-- The written form of a character. What cannot be printed, or would attach to the character before
it, is written as a code point. -/
def encodeChar (c : Char) : List Char :=
  match c with
  | '\x00' => ['\\', '0']
  | '\t' => ['\\', 't']
  | '\r' => ['\\', 'r']
  | '\n' => ['\\', 'n']
  | '"' => ['\\', '"']
  | '\\' => ['\\', '\\']
  | _ => if isExtendingMark c || isUnprintable c then codePoint c else [c]

def encode (cs : List Char) : List Char := cs.flatMap encodeChar

def literal (s : String) : String := "\"" ++ String.ofList (encode s.toList) ++ "\""

/-- The character that an escape stands for, if the escape is known. -/
def decodeChar? (c : Char) : Option Char :=
  match c with
  | 'n' => some '\n'
  | 't' => some '\t'
  | 'r' => some '\r'
  | '0' => some '\x00'
  | '\\' => some '\\'
  | '"' => some '"'
  | _ => none

/-- Reads the inside of a literal. An unknown escape stands for itself, backslash included. -/
def decode : List Char → List Char
  | [] => []
  | ['\\'] => ['\\']
  | '\\' :: c :: cs =>
    match decodeChar? c with
    | some d => d :: decode cs
    | none => '\\' :: c :: decode cs
  | c :: cs => c :: decode cs

end MacroLisp.Text.Quoted
