import MacroLisp.Modules.Store

namespace MacroLisp

/-- The path that was looked for: mangled component by component, or exactly as given. -/
inductive AttemptedPath
  | mangled (path : String)
  | literal (path : String)
  deriving DecidableEq, Repr

namespace AttemptedPath

def path : AttemptedPath → String
  | mangled p | literal p => p

def kind : AttemptedPath → String
  | mangled _ => "mangled"
  | literal _ => "literal"

end AttemptedPath

/-- No module or attribute was found on the way to a qualified name. -/
structure ResolveError where
  attempted : AttemptedPath
  deriving DecidableEq, Repr

namespace ResolveError

def code (_ : ResolveError) : String := "quasi::resolve::module_not_found"

def message (e : ResolveError) : String := "no module named '" ++ e.attempted.path ++ "'"

end ResolveError

structure Resolver where
  mangle : String → String
  store : ModuleStore

namespace Resolver

variable (r : Resolver)

/-- The components of a chain of segments. A slash separates like a new segment. -/
def components (segments : List String) : List String :=
  (segments.flatMap (Text.fields '/')).map r.mangle

def getAttr (v : Value) (name : String) : Except NotFound Value :=
  match v with
  | .module path => r.store.getAttr path name
  | _ => .error ⟨v.kind ++ "." ++ name⟩

def load (path : String) : Except NotFound Value × Resolver :=
  let (result, store) := r.store.load path
  (result.map fun _ => .module path, { r with store })

/-- Follows components from the value reached so far, `current` at `path`. While that is a module,
or nothing is reached yet, the longer path is loaded as a module; otherwise, or if there is none,
the component is an attribute. -/
def follow : List String → String → Option Value → Resolver → Except ResolveError Value × Resolver
  | [], _, some v, r => (.ok v, r)
  | [], _, none, r => (.error ⟨.mangled ""⟩, r)
  | c :: cs, path, current, r =>
    let longer := if path.isEmpty then c else path ++ "." ++ c
    let (loaded, r) :=
      if current.all Value.isModule then r.load longer else (.error ⟨longer⟩, r)
    match loaded with
    | .ok v => follow cs longer (some v) r
    | .error _ =>
      match current with
      | none => (.error ⟨.mangled longer⟩, r)
      | some v =>
        match r.getAttr v c with
        | .ok w => follow cs longer (some w) r
        | .error _ => (.error ⟨.mangled longer⟩, r)

def resolveChain (segments : List String) : Except ResolveError Value × Resolver :=
  follow (r.components segments) "" none r

def resolveLiteral (path : String) : Except ResolveError Value × Resolver :=
  match r.load path with
  | (.ok v, r) => (.ok v, r)
  | (.error _, r) => (.error ⟨.literal path⟩, r)

end Resolver

end MacroLisp
