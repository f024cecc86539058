import MacroLisp.Node.Printer

namespace MacroLisp

/-- Why a definition is refused. Each cause carries the form that is to blame. -/
inductive DefinitionError
  | notDefinition (form : Node)
  | wrongLength (form : Node)
  | severalBodies (form : Node)
  | nameNotSymbol (name form : Node)
  | paramsNotSequence (form : Node)
  | paramAfterRest (form : Node)
  | restWithoutName (form : Node)
  | invalidParam (form : Node)
  | duplicateParam (name : String) (form : Node)
  | bodyNotTemplate (form : Node)

namespace DefinitionError

def form : DefinitionError → Node
  | notDefinition f | wrongLength f | severalBodies f | nameNotSymbol _ f | paramsNotSequence f
  | paramAfterRest f | restWithoutName f | invalidParam f | duplicateParam _ f | bodyNotTemplate f => f

def code : DefinitionError → String
  | duplicateParam .. => "quasi::macros::duplicate_param"
  | _ => "quasi::macros::definition"

def reason : DefinitionError → String
  | notDefinition _ => "expected a (defmacro ...) form"
  | wrongLength _ => "expected (defmacro name [params] body) with an optional docstring"
  | severalBodies _ => "a macro body must be a single form"
  | nameNotSymbol name _ => "macro name must be a symbol, got " ++ name.text
  | paramsNotSequence _ => "parameter list must be a sequence"
  | paramAfterRest _ => "no parameters may follow `#*`"
  | restWithoutName _ => "`#*` must be followed by a name"
  | invalidParam f => "invalid parameter " ++ f.text
  | duplicateParam name _ => "duplicate parameter name '" ++ name ++ "' in macro definition"
  | bodyNotTemplate _ => "macro body must be a parameter, a literal, a quoted form, a quasiquote template or " ++
      "with-gensyms"

def message : DefinitionError → String
  | duplicateParam name f => (duplicateParam name f).reason
  | e => "malformed macro definition: " ++ e.reason

end DefinitionError

/-- The parameters of a template macro. The last one may take all arguments that are left. -/
structure Params where
  required : List String
  rest : Option String
  deriving DecidableEq, Repr

namespace Params

variable (p : Params)

def names : List String := p.required ++ p.rest.toList

def firstDuplicate (seen : List String) : List String → Option String
  | [] => none
  | name :: names => if seen.contains name then some name else firstDuplicate (name :: seen) names

def restName? : Node → Option String
  | .sequence .paren (_ :: .symbol name _ :: _) _ => some name
  | _ => none

def ofItems (whole : Node) : List Node → Except DefinitionError Params
  | [] => .ok ⟨[], none⟩
  | .symbol name _ :: items => do
    let p ← ofItems whole items
    return { p with required := name :: p.required }
  | item :: items =>
    if item.isCallTo "unpack-iterable" then
      match restName? item with
      | none => .error (.restWithoutName item)
      | some name => if items.isEmpty then .ok ⟨[], some name⟩ else .error (.paramAfterRest whole)
    else .error (.invalidParam item)

def ofNode (n : Node) : Except DefinitionError Params :=
  match n.items? with
  | none => .error (.paramsNotSequence n)
  | some items => do
    let p ← ofItems n items
    match firstDuplicate [] p.names with
    | some name => .error (.duplicateParam name n)
    | none => return p

def accepts (given : Nat) : Bool :=
  if p.rest.isSome then p.required.length ≤ given else given == p.required.length

def arityMessage (given : Nat) : String :=
  let n := p.required.length
  "expected " ++ (if p.rest.isSome then "at least " else "exactly ") ++ n.repr ++
    " argument" ++ (if n = 1 then "" else "s") ++ ", got " ++ given.repr

/-- What each parameter stands for. The rest is a form at the place of the call. The last parameter comes first, so that of
two parameters of one name the later one counts. -/
def bind (args : List Node) (span : Span) : List (String × Node) :=
  (p.required.zip args ++
    p.rest.toList.map fun name => (name, Node.form (args.drop p.required.length) span)).reverse

end Params

end MacroLisp
