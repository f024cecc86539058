import MacroLisp.Span

namespace MacroLisp

inductive ReadError
  /-- The text ends before a form does. -/
  | endOfInput
  /-- No form was found at `offset`, which is where reading began if `atStart` holds. -/
  | noForm (atStart : Bool) (offset : Nat)
  | unknownTag (tag : String) (span : Span)
  | integerOutOfRange (text : String) (span : Span)
  | readerMacroFailed (tag message : String) (span : Span)
  deriving DecidableEq, Repr

namespace ReadError

def message : ReadError → String
  | endOfInput => "unexpected end of input"
  | noForm true _ => "syntax error: expected next_form"
  | noForm false _ => "syntax error: expected prefix, reader_tag, paren, bracket, brace, string, keyword, float, " ++
      "integer, or symbol"
  | unknownTag tag _ => "syntax error: unknown reader macro #" ++ tag
  | integerOutOfRange text _ => "syntax error: integer literal out of range: " ++ text
  | readerMacroFailed tag message _ => "reader macro #" ++ tag ++ " failed: " ++ message

def code : ReadError → String
  | endOfInput => "quasi::read::end_of_input"
  | noForm .. | unknownTag .. | integerOutOfRange .. => "quasi::read::syntax"
  | readerMacroFailed .. => "quasi::read::reader_macro"

structure Label where
  offset : Nat
  length : Nat
  text : String
  deriving DecidableEq, Repr

/-- A label covers at least one byte. -/
def Label.ofSpan (s : Span) (text : String) : Label := ⟨s.start, max s.length 1, text⟩

def label? : ReadError → Option Label
  | endOfInput => none
  | noForm _ offset => some ⟨offset, 1, "here"⟩
  | unknownTag _ s | integerOutOfRange _ s => some (.ofSpan s "here")
  | readerMacroFailed _ _ s => some (.ofSpan s "expanded here")

end ReadError

end MacroLisp
