import Lox.CommandLine
import Lox.Machine.Inspect
import Lox.Main
import Lox.Proofs.Binding.WellFormed
import Lox.Proofs.Grammar.Rendered
import Lox.Proofs.Lines.Grammar
import Lox.Proofs.Lines.Machine
import Lox.Proofs.Lines.Rule
import Lox.Proofs.Lines.Tree
import Lox.Proofs.Lines.Walk
import Lox.Proofs.Machine.Atop
import Lox.Proofs.Machine.Caller
import Lox.Proofs.Number.Overflow
import Lox.Proofs.Program.Append
import Lox.Proofs.Program.Balanced
import Lox.Proofs.Program.Bound
import Lox.Proofs.Program.CallDepth
import Lox.Proofs.Program.Construction
import Lox.Proofs.Program.Enclosed
import Lox.Proofs.Program.Extended
import Lox.Proofs.Program.Fallbacks
import Lox.Proofs.Program.Limited
import Lox.Proofs.Program.Lines
import Lox.Proofs.Program.Located
import Lox.Proofs.Program.LockStep
import Lox.Proofs.Program.Nearest
import Lox.Proofs.Program.OneByOne
import Lox.Proofs.Program.OwnVariable
import Lox.Proofs.Program.PlainLoop
import Lox.Proofs.Program.Property
import Lox.Proofs.Program.Progress
import Lox.Proofs.Program.Recovery
import Lox.Proofs.Program.Rename
import Lox.Proofs.Program.Rooted
import Lox.Proofs.Program.Super
import Lox.Proofs.Program.Touched
import Lox.Proofs.Program.Uses
import Lox.Proofs.Store.Forest
import Lox.Proofs.Token.Joined
import Lox.Proofs.Token.Lexes
import Lox.Proofs.Token.Reads
import Lox.Proofs.Token.Stretches
import Lox.Proofs.Tree.Ends
import Lox.Session
import Lox.Text.Lossy
import Lox.Tree.Outline
