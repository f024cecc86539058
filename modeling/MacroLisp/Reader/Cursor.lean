import MacroLisp.Span

namespace MacroLisp

/-- A place in a text: the offset of the next character, and all that is left. -/
structure Cursor where
  offset : Nat
  rest : List Char
  deriving DecidableEq, Repr

namespace Cursor

def isBlank (c : Char) : Bool := c = ' ' ∨ c = '\t' ∨ c = '\r' ∨ c = '\n'

def isTerminator (c : Char) : Bool :=
  isBlank c ∨ c = '(' ∨ c = ')' ∨ c = '[' ∨ c = ']' ∨ c = '{' ∨ c = '}' ∨ c = '"' ∨ c = ';'

def isSymbolChar (c : Char) : Bool := !isTerminator c && !(c = '\'' ∨ c = '\x60' ∨ c = '~')

def byteLength : List Char → Nat
  | [] => 0
  | c :: cs => c.utf8Size + byteLength cs

@[simp] theorem byteLength_nil : byteLength [] = 0 := rfl

@[simp] theorem byteLength_cons (c : Char) (cs : List Char) :
    byteLength (c :: cs) = c.utf8Size + byteLength cs := rfl

@[simp] theorem byteLength_append (as bs : List Char) :
    byteLength (as ++ bs) = byteLength as + byteLength bs := by
  induction as with
  | nil => simp
  | cons c cs ih => simp [ih, Nat.add_assoc]

variable (p : Cursor)

def ofList (cs : List Char) : Cursor := ⟨0, cs⟩

def stop : Nat := p.offset + byteLength p.rest

def advance (n : Nat) : Cursor := ⟨p.offset + byteLength (p.rest.take n), p.rest.drop n⟩

@[simp] theorem stop_advance (n : Nat) : (p.advance n).stop = p.stop := by
  have h := byteLength_append (p.rest.take n) (p.rest.drop n)
  rw [List.take_append_drop] at h
  simp only [stop, advance, h]
  omega

/-- The first place at `offset` or later, where `cs` begins, that is neither blank nor in a comment.
A comment runs from a semicolon to the end of its line. -/
def skipFrom (inComment : Bool) (offset : Nat) : List Char → Cursor
  | [] => ⟨offset, []⟩
  | c :: cs =>
    if inComment then skipFrom (c ≠ '\n') (offset + c.utf8Size) cs
    else if isBlank c then skipFrom false (offset + c.utf8Size) cs
    else if c = ';' then skipFrom true (offset + c.utf8Size) cs
    else ⟨offset, c :: cs⟩

def skip : Cursor := skipFrom false p.offset p.rest

theorem stop_skipFrom (b : Bool) (o : Nat) (cs : List Char) :
    (skipFrom b o cs).stop = o + byteLength cs := by
  induction cs generalizing b o with
  | nil => simp [skipFrom, stop]
  | cons c cs ih =>
    simp only [skipFrom]
    split
    · rw [ih, byteLength_cons, Nat.add_assoc]
    · split
      · rw [ih, byteLength_cons, Nat.add_assoc]
      · split
        · rw [ih, byteLength_cons, Nat.add_assoc]
        · rfl

@[simp] theorem stop_skip : p.skip.stop = p.stop :=
  stop_skipFrom false p.offset p.rest

end Cursor

end MacroLisp
