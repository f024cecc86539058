import MacroLisp.Text.Fields

namespace MacroLisp.CommandLine

structure OptionForm where
  long : String
  short : Option Char
  isSwitch : Bool
  deriving DecidableEq, Repr

inductive Item
  | option (name value : String)
  | operand (text : String)
  deriving DecidableEq, Repr

/-- A hyphen alone is no option. -/
def looksLikeOption (arg : String) : Bool := arg.startsWith "-" && arg ≠ "-"

/-- An option with the value that is attached to it or else comes next. A value that looks like an
option must be attached. -/
def withValue (o : OptionForm) (attached : Option String) (rest : List String) :
    Option (Item × List String) :=
  match o.isSwitch, attached, rest with
  | true, none, rest => some (.option o.long "", rest)
  | true, some _, _ => none
  | false, some v, rest => some (.option o.long v, rest)
  | false, none, v :: rest => if looksLikeOption v then none else some (.option o.long v, rest)
  | false, none, [] => none

section Scan

variable (forms : List OptionForm)

/-- An option by its long name, with its value after an equals sign. -/
def longOption (body : List Char) (rest : List String) : Option (Item × List String) := do
  let name := body.takeWhile (· ≠ '=')
  let attached := ((body.dropWhile (· ≠ '=')).tail?).map String.ofList
  let o ← forms.find? fun o => o.long = String.ofList name
  withValue o attached rest

def shortOption (c : Char) (body : List Char) (rest : List String) : Option (Item × List String) := do
  let o ← forms.find? fun o => o.short = some c
  let attached := match body with
    | [] => none
    | '=' :: value => some (String.ofList value)
    | value => some (String.ofList value)
  withValue o attached rest

def item (arg : String) (rest : List String) : Option (Item × List String) :=
  match arg.toList with
  | '-' :: '-' :: body => longOption forms body rest
  | '-' :: c :: body => shortOption forms c body rest
  | _ => some (.operand arg, rest)

def items : Nat → List String → Option (List Item)
  | _, [] => some []
  | 0, _ => none
  | limit + 1, arg :: rest =>
    if arg = "--" then some (rest.map .operand)
    else do
      let (i, rest) ← item forms arg rest
      return i :: (← items limit rest)

/-- The short name of the version asks for it whatever is joined to it. -/
def asksVersion (arg : String) : Bool := arg = "--version" || arg.startsWith "-V"

/-- The items before the name of the command, the name and the arguments after it. To ask for the
version is a command, and what follows it is not looked at. -/
def untilCommand : Nat → List String → Option (List Item × String × List String)
  | limit + 1, arg :: rest =>
    if asksVersion arg then some ([], "--version", [])
    else do
      match ← item forms arg rest with
      | (.operand name, rest) => return ([], name, rest)
      | (i, rest) =>
        let (is, name, rest) ← untilCommand limit rest
        return (i :: is, name, rest)
  | _, _ => none

end Scan

def operands (is : List Item) : List String :=
  is.filterMap fun
    | .operand text => some text
    | .option .. => none

def given (name : String) (is : List Item) : List String :=
  is.filterMap fun
    | .option n value => if n = name then some value else none
    | .operand _ => none

def once? {α : Type} (name : String) (read : String → Option α) (is : List Item) : Option (Option α) :=
  match given name is with
  | [] => some none
  | [value] => (read value).map some
  | _ => none

def switch? (name : String) (is : List Item) : Option Bool :=
  (once? name some is).map Option.isSome

/-- A natural number of 64 bits in decimal, perhaps with a plus sign. -/
def size? (text : String) : Option Nat :=
  let digits := match text.toList with
    | '+' :: cs => cs
    | cs => cs
  if digits.isEmpty || !digits.all Char.isDigit then none
  else
    let n := Nat.ofDigitChars 10 digits 0
    if n < UInt64.size then some n else none

def path? (text : String) : Option String := if text.isEmpty then none else some text

structure Options where
  config : Option String
  stepLimit : Option Nat
  module : Option String
  deriving DecidableEq, Repr

namespace Options

def forms : List OptionForm := [⟨"config", none, false⟩, ⟨"step-limit", none, false⟩, ⟨"module", none, false⟩]

def ofItems? (is : List Item) : Option Options := do
  return ⟨← once? "config" path? is, ← once? "step-limit" size? is, ← once? "module" some is⟩

def override (before after : Options) : Options :=
  ⟨after.config.or before.config, after.stepLimit.or before.stepLimit, after.module.or before.module⟩

end Options

inductive Command
  | ast (file : String) (json : Bool)
  | expand (file : String)
  | expandOnce (file : String)
  | trace (file : String)
  | disassemble (file : String) (codegen : Bool)
  | gensym (hint : String) (count : Nat)
  | macros (file : Option String)
  | version
  deriving DecidableEq, Repr

namespace Command

def forms? : String → Option (List OptionForm)
  | "ast" => some [⟨"json", none, true⟩]
  | "expand" => some []
  | "expand-1" => some []
  | "trace" => some []
  | "disassemble" => some [⟨"codegen", none, true⟩]
  | "gensym" => some [⟨"count", some 'n', false⟩]
  | "macros" => some []
  | "--version" => some []
  | _ => none

def ofItems? (name : String) (is : List Item) : Option Command := do
  match name, operands is with
  | "ast", [file] => return ast (← path? file) (← switch? "json" is)
  | "expand", [file] => return expand (← path? file)
  | "expand-1", [file] => return expandOnce (← path? file)
  | "trace", [file] => return trace (← path? file)
  | "disassemble", [file] => return disassemble (← path? file) (← switch? "codegen" is)
  | "gensym", [] => return gensym "" ((← once? "count" size? is).getD 1)
  | "gensym", [hint] => return gensym hint ((← once? "count" size? is).getD 1)
  | "macros", [] => return macros none
  | "macros", [file] => return macros (some (← path? file))
  | "--version", [] => return version
  | _, _ => none

end Command

structure Invocation where
  options : Options
  command : Command
  deriving DecidableEq, Repr

def Invocation.ofArguments? (args : List String) : Option Invocation := do
  let (before, name, rest) ← untilCommand Options.forms args.length args
  let own ← Command.forms? name
  let after ← items (Options.forms ++ own) rest.length rest
  return ⟨(← Options.ofItems? before).override (← Options.ofItems? after), ← Command.ofItems? name after⟩

end MacroLisp.CommandLine
