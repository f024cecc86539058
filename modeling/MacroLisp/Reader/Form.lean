import MacroLisp.Node.Basic
import MacroLisp.Reader.Cursor

namespace MacroLisp

inductive Mark
  | quote
  | quasiquote
  | unquote
  | unquoteSplice
  | unpackIterable
  | unpackMapping
  deriving DecidableEq, Repr

inductive WordKind
  | keyword
  | float
  | integer
  | symbol
  deriving DecidableEq, Repr

inductive Form
  | word (kind : WordKind) (chars : List Char) (span : Span)
  | string (inner : List Char) (span : Span)
  | marked (mark : Mark) (body : Form) (span : Span)
  | tagged (tag : List Char) (body : Form) (span : Span)
  | sequence (delimiter : Delimiter) (items : List Form) (span : Span)
  deriving Repr

def Mark.head : Mark → String
  | quote => "quote"
  | quasiquote => "quasiquote"
  | unquote => "unquote"
  | unquoteSplice => "unquote-splice"
  | unpackIterable => "unpack-iterable"
  | unpackMapping => "unpack-mapping"

namespace WordKind

def dropSign : List Char → List Char
  | '-' :: cs => cs
  | '+' :: cs => cs
  | cs => cs

def isInteger (w : List Char) : Bool :=
  !(dropSign w).isEmpty && (dropSign w).all Char.isDigit

def isExponent : List Char → Bool
  | [] => true
  | c :: cs => (c = 'e' ∨ c = 'E') && isInteger cs

def isFloat (w : List Char) : Bool :=
  match (dropSign w).dropWhile Char.isDigit with
  | '.' :: rest =>
    !((dropSign w).takeWhile Char.isDigit).isEmpty && !(rest.takeWhile Char.isDigit).isEmpty &&
      isExponent (rest.dropWhile Char.isDigit)
  | _ => false

def isKeyword : List Char → Bool
  | ':' :: _ :: _ => true
  | _ => false

/-- A word is a number only if a terminator or the end of the text follows, and a symbol if it is
nothing else. -/
def classify (w rest : List Char) : WordKind :=
  let ended := match rest with
    | [] => true
    | c :: _ => Cursor.isTerminator c
  if isKeyword w then keyword
  else if ended && isFloat w then float
  else if ended && isInteger w then integer
  else symbol

end WordKind

/-- The outcome of looking for something at a place: what was found and where it ends, if it was
found, and the furthest offset at which a form was missed on the way. -/
structure Attempt (α : Type) where
  result : Option (α × Cursor)
  furthest : Nat

namespace Form

variable (p : Cursor)

/-- The mark at a place and how many characters it has, the longest first. -/
def mark? : List Char → Option (Mark × Nat)
  | '~' :: '@' :: _ => some (.unquoteSplice, 2)
  | '#' :: '*' :: '*' :: _ => some (.unpackMapping, 3)
  | '#' :: '*' :: _ => some (.unpackIterable, 2)
  | '\'' :: _ => some (.quote, 1)
  | '\x60' :: _ => some (.quasiquote, 1)
  | '~' :: _ => some (.unquote, 1)
  | _ => none

def wordAt (cs : List Char) : List Char := cs.takeWhile Cursor.isSymbolChar

/-- Whether a word is the tag of a reader macro: a number sign and more, but not a star next. -/
def isTag : List Char → Bool
  | '#' :: c :: _ => c ≠ '*'
  | _ => false

def word? : Option (Form × Cursor) :=
  let w := wordAt p.rest
  let stop := p.advance w.length
  if w.isEmpty || isTag w then none
  else some (.word (WordKind.classify w stop.rest) w ⟨p.offset, stop.offset⟩, stop)

/-- The inside of a string up to its closing quote, and the place after it. A backslash takes the
next character with it. -/
def stringInner (offset : Nat) : List Char → Option (List Char × Cursor)
  | [] => none
  | ['\\'] => none
  | '\\' :: c :: cs =>
    (stringInner (offset + 1 + c.utf8Size) cs).map fun (inner, stop) => ('\\' :: c :: inner, stop)
  | c :: cs =>
    if c = '"' then some ([], ⟨offset + 1, cs⟩)
    else (stringInner (offset + c.utf8Size) cs).map fun (inner, stop) => (c :: inner, stop)

def opened? : Char → Option Delimiter
  | '(' => some .paren
  | '[' => some .bracket
  | '{' => some .brace
  | _ => none

/-- A form that is no mark, tag or sequence: a string or a word. -/
def leaf? : Option (Form × Cursor) :=
  match p.rest with
  | '"' :: cs => (stringInner (p.offset + 1) cs).map fun (inner, stop) =>
      (.string inner ⟨p.offset, stop.offset⟩, stop)
  | _ => word? p

def attemptLeaf : Attempt Form :=
  match leaf? p with
  | some found => ⟨some found, 0⟩
  | none => ⟨none, p.offset⟩

mutual

/-- Looks for a form at `p`, where no blank is skipped, by trying the alternatives in order. A mark
without a form after it can still begin a word. -/
def attempt : Nat → Cursor → Attempt Form
  | 0, p => ⟨none, p.offset⟩
  | fuel + 1, p =>
    match mark? p.rest with
    | some (mark, n) =>
      let body := attempt fuel (p.advance n).skip
      match body.result with
      | some (form, stop) => ⟨some (.marked mark form ⟨p.offset, stop.offset⟩, stop), body.furthest⟩
      | none => { attemptLeaf p with furthest := max (attemptLeaf p).furthest body.furthest }
    | none =>
    let w := wordAt p.rest
    if isTag w then
      let body := attempt fuel (p.advance w.length).skip
      match body.result with
      | some (form, stop) => ⟨some (.tagged (w.drop 1) form ⟨p.offset, stop.offset⟩, stop), body.furthest⟩
      | none => ⟨none, max p.offset body.furthest⟩
    else
    match p.rest.head?.bind opened? with
    | some d =>
      let items := attemptItems fuel (p.advance 1)
      if items.2.1.rest.head? = some d.closing then
        let stop := items.2.1.advance 1
        ⟨some (.sequence d items.1 ⟨p.offset, stop.offset⟩, stop), items.2.2⟩
      else ⟨none, max p.offset items.2.2⟩
    | none => attemptLeaf p

/-- As many forms as there are from `p` on, the place after them and the blanks that follow, and the
furthest miss. -/
def attemptItems : Nat → Cursor → List Form × Cursor × Nat
  | 0, p => ([], p.skip, p.skip.offset)
  | fuel + 1, p =>
    let first := attempt fuel p.skip
    match first.result with
    | some (form, stop) =>
      let (forms, last, furthest) := attemptItems fuel stop
      (form :: forms, last, max first.furthest furthest)
    | none => ([], p.skip, first.furthest)

end

def fuelFor : Nat := 2 * p.rest.length + 2

def find : Attempt Form := attempt (fuelFor p) p

end Form

end MacroLisp
