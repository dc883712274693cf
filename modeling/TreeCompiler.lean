import TreeCompiler.Main
import TreeCompiler.Command.Folder
import TreeCompiler.Program.Numbering
import TreeCompiler.Program.Outline
import TreeCompiler.Proofs.IR.Growth
import TreeCompiler.Proofs.Lowering.Step
import TreeCompiler.Proofs.Lowering.Runs
import TreeCompiler.Proofs.Lowering.Advance
import TreeCompiler.Proofs.Lowering.Walk
import TreeCompiler.Proofs.Lowering.Policy
import TreeCompiler.Proofs.IR.ControlFlow
import TreeCompiler.Proofs.IR.Layout
import TreeCompiler.Proofs.Lowering.Sound
import TreeCompiler.Proofs.Lowering.Dominance
import TreeCompiler.Proofs.IR.Verified
import TreeCompiler.Proofs.IR.Shape
import TreeCompiler.Proofs.IR.WellFormed
import TreeCompiler.Proofs.Lowering.Declarations
import TreeCompiler.Proofs.Lowering.Inventory
import TreeCompiler.Proofs.Lowering.Returns
import TreeCompiler.Proofs.Lowering.Outline
import TreeCompiler.Proofs.Lowering.Twins
import TreeCompiler.Proofs.Command.Verdicts
import TreeCompiler.Proofs.Command.FirstError
import TreeCompiler.Proofs.Lowering.References
import TreeCompiler.Proofs.Lowering.Scopes
import TreeCompiler.Proofs.Lowering.Bindings
import TreeCompiler.Proofs.Lowering.Trace
import TreeCompiler.Proofs.Lowering.Filling
import TreeCompiler.Proofs.Lowering.Shape
import TreeCompiler.Proofs.Semantics.Evaluation
import TreeCompiler.Proofs.Semantics.Simulation
import TreeCompiler.Proofs.Lowering.Names
import TreeCompiler.Proofs.Semantics.Preservation
import TreeCompiler.Proofs.Target.Refusal
import TreeCompiler.Proofs.Target.Routine
import TreeCompiler.Proofs.IR.Symbols
import TreeCompiler.Proofs.Target.Compile
import TreeCompiler.Proofs.Target.Translation
import TreeCompiler.Proofs.IR.Links
import TreeCompiler.Proofs.Lowering.Checks
import TreeCompiler.Proofs.Lowering.Routes
import TreeCompiler.Proofs.Lowering.Locality
import TreeCompiler.Proofs.Lowering.Course
import TreeCompiler.Proofs.Lowering.FaceValue
import TreeCompiler.Proofs.Lowering.Callable
import TreeCompiler.Proofs.Target.Typing
import TreeCompiler.Proofs.Target.WellTyped
import TreeCompiler.Proofs.Lowering.Slots
import TreeCompiler.Proofs.IR.Ops
import TreeCompiler.Proofs.Lowering.Loops
import TreeCompiler.Proofs.Semantics.Steps
import TreeCompiler.Proofs.Semantics.Doubles
import TreeCompiler.Proofs.Semantics.Counting
import TreeCompiler.Proofs.Json.Numbers
import TreeCompiler.Proofs.Json.Grammar
import TreeCompiler.Proofs.Json.RoundTrip
import TreeCompiler.Proofs.Decimal.Nearest
import TreeCompiler.Proofs.Program.RoundTrip
import TreeCompiler.Proofs.Diagnostic.EditDistance
import TreeCompiler.Proofs.Diagnostic.Closest
import TreeCompiler.Proofs.Diagnostic.Report
import TreeCompiler.Proofs.IR.Construction
import TreeCompiler.Proofs.IR.Text
import TreeCompiler.Proofs.Lowering.Snapshots
import TreeCompiler.Proofs.Lowering.Labels
import TreeCompiler.Proofs.Lowering.Literal
import TreeCompiler.Proofs.Program.Numbering
import TreeCompiler.Proofs.Lowering.Reading
import TreeCompiler.Proofs.Lowering.Extent
