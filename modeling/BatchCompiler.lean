import BatchCompiler.Command.Machine
import BatchCompiler.Main
import BatchCompiler.Proofs.Command.Passes
import BatchCompiler.Proofs.Flattening.Idempotence
import BatchCompiler.Proofs.Lowering.Relocation
import BatchCompiler.Proofs.Lowering.Simulation
import BatchCompiler.Proofs.Syntax.Numerals
import BatchCompiler.Proofs.Settings.Precedence
import BatchCompiler.Proofs.Syntax.Transparency
import BatchCompiler.Proofs.Compilation.Interleaving
import BatchCompiler.Proofs.Source.Writing
import BatchCompiler.Proofs.Script.Distinctness
import BatchCompiler.Proofs.Script.Prologue
import BatchCompiler.Proofs.Compilation.Capture
import BatchCompiler.Proofs.Compilation.Unreachable
import BatchCompiler.Proofs.Source.Escapes
import BatchCompiler.Proofs.Script.Arithmetic
import BatchCompiler.Proofs.Options.Filling
import BatchCompiler.Proofs.Options.Spellings
import BatchCompiler.Proofs.Golden.Agreement
import BatchCompiler.Proofs.Scope.Uses
import BatchCompiler.Proofs.Source.Excerpts
import BatchCompiler.Proofs.Syntax.Progress
