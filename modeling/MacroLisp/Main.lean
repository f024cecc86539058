import MacroLisp.CommandLine.Run

namespace MacroLisp.CommandLine

def enoughSteps : Nat := 1000000000000000000

def readText (path : String) : IO (Option String) := do
  try return some (← IO.FS.readFile path) catch _ => return none

end MacroLisp.CommandLine

open MacroLisp CommandLine in
def main (args : List String) : IO UInt32 := do
  let paths := ((Invocation.ofArguments? args).map Invocation.paths).getD []
  let texts ← paths.mapM fun path => do return (path, ← readText path)
  match report (fun path => (texts.lookup path).join) enoughSteps args with
  | none => return 1
  | some r =>
    IO.print r.output
    match r.error with
    | some e => IO.eprintln (e.code ++ ": " ++ e.message)
    | none => if r.status = 2 then IO.eprintln "usage: quasi [options] command [arguments]"
    return r.status.toUInt32
