import MacroLisp.CommandLine.Arguments
import MacroLisp.Expansion.Core
import MacroLisp.Expansion.Definition
import MacroLisp.Host.Dump
import MacroLisp.Host.Source
import MacroLisp.Json.Writer
import MacroLisp.Lowering.Basic
import MacroLisp.Node.Json
import MacroLisp.Settings
import MacroLisp.Trace.Text

namespace MacroLisp.CommandLine

inductive CommandError
  | noSettings (path : String)
  | badSettings (path : String)
  | noFile (path : String)
  | load (error : LoadError)
  | expansion (error : ExpansionError)
  | compile (error : CompileError)

namespace CommandError

def code : CommandError → String
  | noSettings _ => "quasi::config::io"
  | badSettings _ => "quasi::config::json"
  | noFile _ => "quasi::io"
  | load e => e.code
  | expansion e => e.code
  | compile e => e.code

def message : CommandError → String
  | noSettings path => "failed to read config file " ++ path
  | badSettings path => "invalid config " ++ path
  | noFile path => "failed to read " ++ path
  | load e => e.message
  | expansion e => e.message
  | compile e => e.message

end CommandError

abbrev Printing := Process String CommandError

def print (text : String) : Printing Unit := .record text

def printLine (text : String) : Printing Unit := print (text ++ "\n")

structure Program where
  env : MacroEnv
  forms : List Node

section Files

variable (files : String → Option String)

def settings (o : Options) : Printing Settings := do
  let base ← match o.config with
    | none => pure Settings.default
    | some path =>
      match files path with
      | none => .throw (.noSettings path)
      | some text =>
        match Settings.ofJsonText? text with
        | none => .throw (.badSettings path)
        | some s => pure s
  return { base with stepLimit := o.stepLimit.or base.stepLimit, module := o.module.getD base.module }

def source (path : String) : Printing String :=
  match files path with
  | none => .throw (.noFile path)
  | some text => return text

def program (s : Settings) (path : String) : Printing Program := do
  let env := MacroEnv.ofModule s.module
  match env.table.loadText (← source files path) with
  | (.ok forms, table) => return ⟨{ env with table }, forms⟩
  | (.error e, _) => .throw (.load e)

end Files

namespace Program

variable (p : Program)

def expansion (s : Settings) : Expansion := ⟨p.env.lookup, Name.mangle, s.stepLimit⟩

def expand (fuel : Nat) (s : Settings) (printing : Bool) : List Node → Printing (List Step)
  | [] => return []
  | n :: ns => do
    let (n, steps) ← (((p.expansion s).all fuel n).mapError .expansion).collect
    if printing then printLine n.text
    return steps ++ (← expand fuel s printing ns)

def expandOnce (fuel : Nat) (s : Settings) : List Node → Printing Unit
  | [] => return ()
  | n :: ns => do
    let (n, _) ← (((p.expansion s).macroexpandOnce fuel n).mapError .expansion).collect
    printLine n.text
    expandOnce fuel s ns

def compile (fuel : Nat) (s : Settings) : Printing Host.Module := do
  let (m, _) ← ((Compiler.module ⟨some (p.expansion s)⟩ fuel false p.forms).mapError .compile).collect
  return m

end Program

def listing (entry : Provenance × MacroBinding) : String :=
  entry.2.name ++ "  [" ++ entry.1.label ++ " from " ++ entry.2.module ++ "]\n" ++
    (entry.2.doc.map fun doc => "    " ++ doc ++ "\n").getD ""

def printFreshNames (hint : String) : Nat → Printing Unit
  | 0 => return ()
  | count + 1 => do
    printLine (← .freshName hint)
    printFreshNames hint count

def endLine (text : String) : String := if text.endsWith "\n" then text else text ++ "\n"

section Run

variable (files : String → Option String) (fuel : Nat)

def Command.run (s : Settings) : Command → Printing Unit
  | ast file json => do
    match readAll (← source files file) with
    | .error e => .throw (.load (.read e))
    | .ok forms =>
      if json then printLine (Json.pretty 0 (.array (forms.map Node.toJson)))
      else forms.forM fun n => printLine n.text
  | expand file => do
    let p ← program files s file
    let steps ← p.expand fuel s true p.forms
    if s.recordTrace then print (Trace.text false steps)
  | expandOnce file => do
    let p ← program files s file
    p.expandOnce fuel s p.forms
  | trace file => do
    let p ← program files s file
    let steps ← p.expand fuel s false p.forms
    print (Trace.text false steps)
  | disassemble file codegen => do
    let p ← program files s file
    let m ← p.compile fuel s
    print (endLine (if codegen then m.source else m.dump))
  | gensym hint count => printFreshNames hint count
  | macros file => do
    let env ← match file with
      | none => pure (MacroEnv.ofModule s.module)
      | some file => Program.env <$> program files s file
    env.visible.forM fun entry => print (listing entry)
  | version => printLine "quasi 0.1.0"

/-- The version is printed whatever the settings are. -/
def Invocation.run (i : Invocation) : Printing Unit := do
  let s ← if i.command = .version then pure .default else settings files i.options
  i.command.run files fuel s

end Run

/-- What a run prints, how it exits, and why it failed if it did. -/
structure Report where
  output : String
  status : Nat
  error : Option CommandError

/-- The report of a run on some arguments. Without an answer in the steps given there is none. -/
def report (files : String → Option String) (fuel : Nat) (args : List String) : Option Report :=
  match Invocation.ofArguments? args with
  | none => some ⟨"", 2, none⟩
  | some i =>
    (i.run files fuel ⟨.new Name.mangle, none⟩).map fun o =>
      match o.result with
      | .ok () => ⟨String.join o.log, 0, none⟩
      | .error e => ⟨String.join o.log, 1, some e⟩

def Invocation.paths (i : Invocation) : List String :=
  i.options.config.toList ++
    match i.command with
    | .ast file _ | .expand file | .expandOnce file | .trace file | .disassemble file _ => [file]
    | .gensym .. | .version => []
    | .macros file => file.toList

end MacroLisp.CommandLine
