import BindScript.Main
import BindScript.Proofs.Binding.Codec
import BindScript.Proofs.Binding.Output
import BindScript.Proofs.Binding.Soundness
import BindScript.Proofs.Cache.Contents
import BindScript.Proofs.Integers
import BindScript.Proofs.Machine.Defaults
import BindScript.Proofs.Machine.Discipline
import BindScript.Proofs.Machine.JumpSafety
import BindScript.Proofs.Parser.Elaborated
import BindScript.Proofs.Parser.Lines
import BindScript.Proofs.Printer
import BindScript.Proofs.RecordFields
import BindScript.Proofs.RecordLayouts
import BindScript.Proofs.Scoping.Agreement
import BindScript.Proofs.Simulation.Program
import BindScript.Proofs.Text.Occurrence
import BindScript.Proofs.Token.Lookahead
