import MacroLisp.Expansion.Action
import MacroLisp.Expansion.Params

namespace MacroLisp

/-- A template macro. Its body is data: a parameter, a literal, a quoted form, a template with holes, or one of these under
fresh names. -/
structure Template where
  params : Params
  body : Node
  doc : Option String

abbrev Scope := List (String × Node)

namespace Template

def bindFresh (scope : Scope) : List Node → Action Scope
  | [] => return scope
  | .symbol name _ :: names => do
    let n ← .gensym name
    bindFresh ((name, n) :: scope) names
  | _ => .refuse "with-gensyms names must be symbols"

def splice (value : Node) : Action (List Node) :=
  match value.items? with
  | some ns => return ns
  | none => .refuse ("unquote-splice requires a sequence, got " ++ value.text)

mutual

def eval (scope : Scope) : Node → Action Node
  | .symbol name _ =>
    match scope.lookup name with
    | some n => return n
    | none => .refuse ("name '" ++ name ++ "' is not bound in macro body")
  | .sequence .paren [.symbol "quote" _, quoted] _ => return quoted
  | .sequence .paren [.symbol "quasiquote" _, template] _ => fill scope 1 template
  | .sequence .paren [.symbol "with-gensyms" _, names, body] _ =>
    match names.itemsIn? .bracket with
    | some names => do
      let scope ← bindFresh scope names
      eval scope body
    | none => .refuse "with-gensyms needs a [names] list"
  | .sequence .paren (h :: ns) s =>
    .refuse ("cannot evaluate " ++ (Node.form (h :: ns) s).text ++ " at expansion time")
  | n => return n

/-- Fills the holes of a template that belong to its first level. Deeper templates are data, but
their holes lead back. -/
def fill (scope : Scope) : Nat → Node → Action Node
  | level, .sequence d items s =>
    match d, items with
    | .paren, [.symbol "unquote" hs, operand] =>
      if level = 1 then eval scope operand
      else do return .form [.symbol "unquote" hs, ← fill scope (level - 1) operand] s
    | .paren, [.symbol "unquote-splice" hs, operand] =>
      if level = 1 then .refuse "unquote-splice outside a sequence"
      else do return .form [.symbol "unquote-splice" hs, ← fill scope (level - 1) operand] s
    | .paren, [.symbol "quasiquote" hs, operand] => do
      return .form [.symbol "quasiquote" hs, ← fill scope (level + 1) operand] s
    | d, items => do return .sequence d (← fillItems scope level items) s
  | _, n => return n

/-- Fills the items of a sequence. A splice of the first level gives way to the items of its value. -/
def fillItems (scope : Scope) : Nat → List Node → Action (List Node)
  | _, [] => return []
  | 1, .sequence .paren [.symbol "unquote-splice" _] _ :: _ => .refuse "unquote-splice needs an operand"
  | 1, .sequence .paren (.symbol "unquote-splice" _ :: operand :: _) _ :: items => do
    let ns ← splice (← eval scope operand)
    return ns ++ (← fillItems scope 1 items)
  | level, item :: items => do return (← fill scope level item) :: (← fillItems scope level items)

end

def checkBody : Node → Except DefinitionError Unit
  | .sequence .paren [.symbol "with-gensyms" _, _, body] _ => checkBody body
  | .sequence .paren (h :: ns) s =>
    match h, ns with
    | .symbol "quote" _, [_] => .ok ()
    | .symbol "quasiquote" _, [_] => .ok ()
    | _, _ => .error (.bodyNotTemplate (.form (h :: ns) s))
  | _ => .ok ()

def expander (t : Template) : Expander := fun call =>
  if t.params.accepts call.args.length then do
    return .form (← eval (t.params.bind call.args call.form.span) t.body)
  else .refuse (t.params.arityMessage call.args.length)

end Template

end MacroLisp
