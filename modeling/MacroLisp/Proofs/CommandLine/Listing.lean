import MacroLisp.CommandLine.Run
import MacroLisp.Proofs.Expansion.Filling
import MacroLisp.Proofs.Expansion.Fuel
import Mathlib.Data.String.Basic

namespace MacroLisp

variable {P : Expander → Prop} {t : MacroTable} {env : MacroEnv} {b : MacroBinding}

namespace MacroTable.Filled

end MacroTable.Filled

namespace MacroEnv

end MacroEnv

namespace CommandLine

variable {files : String → Option String} {s : Settings} {file text : String} {rest : List Node} {table : MacroTable}

end CommandLine

end MacroLisp
