import MacroLisp.Expansion.Table
import MacroLisp.Expansion.Template
import MacroLisp.Reader.Basic

namespace MacroLisp

def Node.isDefinition (n : Node) : Bool := n.isCallTo "defmacro"

structure Definition where
  name : String
  template : Template

namespace Definition

def ofParts (whole name params : Node) (doc : Option String) (body : Node) :
    Except DefinitionError Definition :=
  match name.symbol? with
  | none => .error (.nameNotSymbol name whole)
  | some name => do
    let params ← Params.ofNode params
    Template.checkBody body
    return ⟨name, params, body, doc⟩

def ofNode (n : Node) : Except DefinitionError Definition :=
  match n with
  | .sequence .paren (.symbol "defmacro" _ :: parts) _ =>
    match parts with
    | [name, params, body] => ofParts n name params none body
    | [name, params, .literal (.string doc) _, body] => ofParts n name params (some doc) body
    | [_, _, _, _] => .error (.severalBodies n)
    | _ => .error (.wrongLength n)
  | _ => .error (.notDefinition n)

end Definition

namespace MacroTable

def installTemplate (t : MacroTable) (name : String) (template : Template) : MacroTable :=
  t.install name template.expander template.doc

/-- Stores the definitions among the forms and gives back the others. What was stored before an
error stays. -/
def load : List Node → MacroTable → Except DefinitionError (List Node) × MacroTable
  | [], t => (.ok [], t)
  | form :: forms, t =>
    if form.isDefinition then
      match Definition.ofNode form with
      | .error e => (.error e, t)
      | .ok d => load forms (t.installTemplate d.name d.template)
    else
      let (rest, t) := load forms t
      (rest.map (form :: ·), t)

end MacroTable

inductive LoadError
  | read (error : ReadError)
  | definition (error : DefinitionError)

def LoadError.code : LoadError → String
  | read e => e.code
  | definition e => e.code

def LoadError.message : LoadError → String
  | read e => e.message
  | definition e => e.message

def MacroTable.loadText (text : String) (t : MacroTable) : Except LoadError (List Node) × MacroTable :=
  match readAll text with
  | .error e => (.error (.read e), t)
  | .ok forms =>
    let (rest, t) := t.load forms
    (rest.mapError .definition, t)

end MacroLisp
