import Munch.Main
import Munch.CommandLine.FileTree
import Munch.Proofs.Text.Cuts
import Munch.Proofs.Text.Bytes
import Munch.Proofs.Text.Positions
import Munch.Proofs.Expr.References
import Munch.Proofs.Expr.Semantics
import Munch.Proofs.Expr.Deepening
import Munch.Proofs.Expr.Range
import Munch.Proofs.Expr.Termination
import Munch.Proofs.Expr.Retarget
import Munch.Proofs.Expr.Relink
import Munch.Proofs.Expr.LinkOrder
import Munch.Proofs.Expr.Relocation
import Munch.Proofs.Expr.Guarded
import Munch.Proofs.Rule.Grammar
import Munch.Proofs.Rule.Walk
import Munch.Proofs.Rule.Steps
import Munch.Proofs.Rule.Soundness
import Munch.Proofs.Rule.Completeness
import Munch.Proofs.Rule.Owner
import Munch.Proofs.Rule.Canonical
import Munch.Proofs.Rule.Printer
import Munch.Proofs.Dictionary.Built
import Munch.Proofs.Dictionary.Registry
import Munch.Proofs.Dictionary.Runs
import Munch.Proofs.Dictionary.Linkage
import Munch.Proofs.Dictionary.Replay
import Munch.Proofs.Dictionary.Numbering
import Munch.Proofs.Dictionary.RuleFile
import Munch.Proofs.Dictionary.RuleFaults
import Munch.Proofs.Dictionary.Reorder
import Munch.Proofs.Scan.Layout
import Munch.Proofs.Scan.Step
import Munch.Proofs.Scan.Bound
import Munch.Proofs.Scan.Lossless
import Munch.Proofs.Scan.Selection
import Munch.Proofs.Scan.Safety
import Munch.Proofs.Scan.RuleOrder
import Munch.Proofs.Scan.Retention
import Munch.Proofs.Dictionary.Extension
import Munch.Proofs.Scan.LongestMatch
import Munch.Proofs.Scan.Extension
import Munch.Proofs.Expr.Window
import Munch.Proofs.Scan.Restart
import Munch.Proofs.Expr.Equivalence
import Munch.Proofs.Rule.Inline
import Munch.Proofs.Expr.Definitions
import Munch.Proofs.Expr.Inline
import Munch.Proofs.Expr.Boundary
import Munch.Proofs.Expr.Locality
import Munch.Proofs.Expr.Cutoff
import Munch.Proofs.Rule.Tracks
import Munch.Proofs.Rule.PassFaults
import Munch.Proofs.Rule.ByOffset
import Munch.Proofs.Rule.Frame
import Munch.Proofs.Rule.Faults
import Munch.Proofs.Expr.Pointers
import Munch.Proofs.Expr.LinkPass
import Munch.Proofs.Dictionary.RuleLine
import Munch.Proofs.Dictionary.Failure
import Munch.Proofs.Expr.Regroup
import Munch.Proofs.Scan.Positions
import Munch.Proofs.Text.Quoted
import Munch.Proofs.Expr.Outline
import Munch.Proofs.Rule.Agreement
