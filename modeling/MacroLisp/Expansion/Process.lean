import MacroLisp.Expansion.Action
import MacroLisp.Name.Fresh

namespace MacroLisp

/-- What a computation can change: the supply of names, and the modules that names refer to, if
there are any. -/
structure World where
  names : NameSupply
  resolver : Option Resolver

structure Outcome (ω ε α : Type) where
  result : Except ε α
  log : List ω
  world : World

variable {ω ω' ε ε' α β : Type}

theorem Outcome.exists_ok_of_map {run : Option (Outcome ω ε α)} {f : α → β} {b : β}
    (h : run.map (fun o => o.result.toOption.map f) = some (some b)) :
    ∃ a log w, run = some ⟨.ok a, log, w⟩ ∧ f a = b := by
  obtain ⟨⟨r, log, w⟩, ho, hr⟩ := Option.map_eq_some_iff.mp h
  cases r with
  | error e => cases hr
  | ok a => exact ⟨a, log, w, ho, Option.some.inj hr⟩

/-- A computation that draws fresh names and loads modules. It keeps a log, which survives a failure, and may run out of
the steps it was given; no answer is then the answer. -/
def Process (ω ε α : Type) := World → Option (Outcome ω ε α)

namespace Process

protected def pure (a : α) : Process ω ε α := fun w => some ⟨.ok a, [], w⟩

protected def bind (x : Process ω ε α) (f : α → Process ω ε β) : Process ω ε β := fun w =>
  match x w with
  | none => none
  | some ⟨.error e, log, w⟩ => some ⟨.error e, log, w⟩
  | some ⟨.ok a, log, w⟩ => (f a w).map fun o => { o with log := log ++ o.log }

instance : Monad (Process ω ε) where
  pure := Process.pure
  bind := Process.bind

def unfinished : Process ω ε α := fun _ => none

def throw (e : ε) : Process ω ε α := fun w => some ⟨.error e, [], w⟩

def record (entry : ω) : Process ω ε Unit := fun w => some ⟨.ok (), [entry], w⟩

/-- Runs without a log and hands over the result, be it a failure. -/
def quietly (x : Process ω ε α) : Process ω' ε' (Except ε α) := fun w =>
  (x w).map fun o => ⟨.ok o.result, [], o.world⟩

def mapError (f : ε → ε') (x : Process ω ε α) : Process ω ε' α := fun w =>
  (x w).map fun o => { o with result := o.result.mapError f }

def collect (x : Process ω ε α) : Process ω' ε (α × List ω) := fun w =>
  (x w).map fun o => { o with result := o.result.map fun a => (a, o.log), log := [] }

def freshName (hint : String) : Process ω ε String := fun w =>
  let (name, names) := w.names.fresh hint
  some ⟨.ok name, [], { w with names }⟩

def gensym (hint : String) : Process ω ε Node := do
  return .symbol (← freshName hint) .nowhere

def ask (r : Resolver) : Query → Except ResolveError Value × Resolver
  | .chain segments => r.resolveChain segments
  | .literal path => r.resolveLiteral path

/-- The value of a qualified name, or what is wrong with it. -/
def resolve (query : Query) : Process ω ε (Except String Value) := fun w =>
  match w.resolver with
  | none => some ⟨.ok (.error "no module resolver available during expansion"), [], w⟩
  | some r =>
    let (answer, r) := ask r query
    some ⟨.ok (answer.mapError ResolveError.message), [], { w with resolver := some r }⟩

end Process

/-- Answers the questions of an action. The expansions that it asks for leave no log. -/
def Action.run (nested : Bool → Node → Process ω ExpansionError Node) : Action α → Process ω Failure α
  | done a => pure a
  | fail why => .throw why
  | fresh hint next => do run nested (next (← .gensym hint))
  | expand once form next => do run nested (next (← (nested once form).quietly))
  | resolve query next => do run nested (next (← .resolve query))

end MacroLisp
