import MacroLisp.Name.Fresh
import MacroLisp.Node.Printer
import MacroLisp.Reader.Basic
import MacroLisp.Json.Reader
import MacroLisp.Json.Writer
import MacroLisp.Node.Json
import MacroLisp.Expansion.Engine
import MacroLisp.Host.Dump
import MacroLisp.Lowering.Basic
import MacroLisp.Host.Source
import MacroLisp.Expansion.Definition
import MacroLisp.Expansion.Core
import MacroLisp.Expansion.Transfer
import MacroLisp.Modules.Resolver
import MacroLisp.Trace.Text
import MacroLisp.Settings
import MacroLisp.CommandLine.Arguments
import MacroLisp.CommandLine.Run
import MacroLisp.Main
import MacroLisp.Proofs.Name.Fresh
import MacroLisp.Proofs.Expansion.Iteration
import MacroLisp.Proofs.Host.Reading
import MacroLisp.Proofs.Lowering.Preservation
import MacroLisp.Proofs.Name.Collision
import MacroLisp.Proofs.Name.Qualified
import MacroLisp.Proofs.Node.Bare
import MacroLisp.Proofs.Text.Quoted
import MacroLisp.Proofs.Reader.Leaf
import MacroLisp.Proofs.Reader.RoundTrip
import MacroLisp.Proofs.Reader.Relayout
import MacroLisp.Proofs.Reader.Places
import MacroLisp.Proofs.Reader.Progress
import MacroLisp.Proofs.Reader.Atom
import MacroLisp.Proofs.Reader.Concatenation
import MacroLisp.Proofs.Reader.Truncation
import MacroLisp.Proofs.Lowering.Building
import MacroLisp.Proofs.Lowering.Quasiquote
import MacroLisp.Proofs.Expansion.Draws
import MacroLisp.Proofs.Expansion.Notes
import MacroLisp.Proofs.Expansion.Hygiene
import MacroLisp.Proofs.Expansion.Answers
import MacroLisp.Proofs.Expansion.Opacity
import MacroLisp.Proofs.Expansion.Holes
import MacroLisp.Proofs.Expansion.Parts
import MacroLisp.Proofs.Expansion.Descent
import MacroLisp.Proofs.Expansion.Ceiling
import MacroLisp.Proofs.Expansion.Leftover
import MacroLisp.Proofs.Expansion.Cutoff
import MacroLisp.Proofs.Expansion.Tracing
import MacroLisp.Proofs.Expansion.Blame
import MacroLisp.Proofs.Expansion.Idle
import MacroLisp.Proofs.Modules.Loading
import MacroLisp.Proofs.Modules.Resolution
import MacroLisp.Proofs.Expansion.Transfer
import MacroLisp.Proofs.Expansion.Scopes
import MacroLisp.Proofs.Expansion.Alike
import MacroLisp.Proofs.Expansion.Spans
import MacroLisp.Proofs.Lowering.Spans
import MacroLisp.Proofs.Host.Datum
import MacroLisp.Proofs.Host.Dump
import MacroLisp.Proofs.Expansion.Supply
import MacroLisp.Proofs.Host.WellFormed
import MacroLisp.Proofs.Lowering.Values
import MacroLisp.Proofs.Lowering.Emission
import MacroLisp.Proofs.Lowering.Shape
import MacroLisp.Proofs.Host.Layout
import MacroLisp.Proofs.Lowering.Layout
import MacroLisp.Proofs.Lowering.Quotation
import MacroLisp.Proofs.Lowering.Assembly
import MacroLisp.Proofs.Lowering.Acceptance
import MacroLisp.Proofs.Lowering.Hoisting
import MacroLisp.Proofs.Host.Names
import MacroLisp.Proofs.Reader.Macros
import MacroLisp.Proofs.Lowering.Generated
import MacroLisp.Proofs.Lowering.Names
import MacroLisp.Proofs.Expansion.Interruption
import MacroLisp.Proofs.Expansion.Bulk
import MacroLisp.Proofs.Expansion.Renaming
import MacroLisp.Proofs.Modules.Effect
import MacroLisp.Proofs.Modules.Stepwise
import MacroLisp.Proofs.CommandLine.Listing
