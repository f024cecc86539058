import MacroLisp.Expansion.Error
import MacroLisp.Modules.Resolver

namespace MacroLisp

/-- Why a macro body gives up: a message of its own, or the error of an expansion that it asked for. -/
inductive Failure
  | message (text : String)
  | expansion (error : ExpansionError)

/-- A qualified name: a chain of segments that are mangled, or a path as it is written. -/
inductive Query
  | chain (segments : List String)
  | literal (path : String)
  deriving DecidableEq, Repr

/-- What a macro does with a call. A macro body sees the world only by asking, so it is the tree of its questions, with a
branch for each answer. -/
inductive Action (α : Type) where
  | done (value : α)
  | fail (why : Failure)
  | fresh (hint : String) (next : Node → Action α)
  | expand (once : Bool) (form : Node) (next : Except ExpansionError Node → Action α)
  | resolve (query : Query) (next : Except String Value → Action α)

namespace Action

variable {α β : Type}

def bind : Action α → (α → Action β) → Action β
  | done a, f => f a
  | fail why, _ => fail why
  | fresh hint next, f => fresh hint fun n => (next n).bind f
  | expand once form next, f => expand once form fun r => (next r).bind f
  | resolve query next, f => resolve query fun r => (next r).bind f

instance : Monad Action where
  pure := done
  bind := bind

def refuse (text : String) : Action α := fail (.message text)

def gensym (hint : String) : Action Node := fresh hint done

def ofExcept : Except ExpansionError α → Action α
  | .ok a => done a
  | .error e => fail (.expansion e)

def macroexpand (form : Node) : Action Node := expand false form ofExcept

def macroexpandOnce (form : Node) : Action Node := expand true form ofExcept

def valueOf (query : Query) : Action Value :=
  resolve query fun
    | .ok v => done v
    | .error text => refuse text

end Action

/-- What a macro makes of a call: a form, which is expanded further, or a final value. -/
inductive MacroOutput
  | form (node : Node)
  | verbatim (node : Node)

structure MacroCall where
  module : String
  form : Node
  args : List Node

abbrev Expander := MacroCall → Action MacroOutput

end MacroLisp
