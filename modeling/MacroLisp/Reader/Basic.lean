import MacroLisp.Reader.Build

namespace MacroLisp

structure Reader where
  cursor : Cursor
  macros : ReaderMacros

namespace Reader

variable (r : Reader)

def ofString (source : String) : Reader := ⟨.ofList source.toList, ∅⟩

def enable (m : ReaderMacro) : Reader := { r with macros := r.macros.insert m.tag m }

def isEnabled (tag : String) : Bool := r.macros.contains tag

def position : Nat := r.cursor.offset

def isExhausted : Bool := r.cursor.skip.rest.isEmpty

def missed (furthest : Nat) : ReadError :=
  if r.cursor.stop ≤ furthest then .endOfInput
  else .noForm (furthest = r.cursor.offset) furthest

/-- Reads the next form. A failure leaves the place as it is, except that blanks and comments at the
end are passed. -/
def read : Except ReadError Node × Reader :=
  if r.isExhausted then (.error .endOfInput, { r with cursor := r.cursor.skip })
  else
    let found := Form.find r.cursor.skip
    match found.result with
    | none => (.error (r.missed found.furthest), r)
    | some (form, stop) =>
      match form.build r.macros with
      | .ok n => (.ok n, { r with cursor := stop })
      | .error e => (.error e, r)

/-- Reads forms until one read fails, at most `limit` of them: the forms, the failure and the reader
after it. -/
def drain : Nat → Reader → List Node × Option ReadError × Reader
  | 0, r => ([], none, r)
  | limit + 1, r =>
    match r.read with
    | (.error e, r) => ([], some e, r)
    | (.ok n, r) =>
      let (ns, e, r) := drain limit r
      (n :: ns, e, r)

def remaining : List Node × Option ReadError × Reader :=
  match drain (r.cursor.rest.length + 1) r with
  | (ns, some .endOfInput, r) => (ns, none, r)
  | (ns, e, r) => (ns, e, r)

end Reader

/-- Reads a text that is complete: a form cut off by its end is an error. -/
def readAll (source : String) : Except ReadError (List Node) :=
  let r := Reader.ofString source
  match r.drain (r.cursor.rest.length + 1) with
  | (ns, none, _) => .ok ns
  | (ns, some e, r) => if e = .endOfInput ∧ r.isExhausted then .ok ns else .error e

end MacroLisp
