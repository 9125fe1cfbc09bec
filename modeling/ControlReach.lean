import ControlReach.Typing.ScopeTree
import ControlReach.Query.Straight
import ControlReach.Command.FileTree
import ControlReach.Main
import ControlReach.Proofs.QueryComplete
import ControlReach.Proofs.Exclusivity
import ControlReach.Proofs.RecursionGuards
import ControlReach.Proofs.RecursiveStructs
import ControlReach.Proofs.Cancellation
import ControlReach.Proofs.AssertionCoverage
import ControlReach.Proofs.QuerySorts
import ControlReach.Proofs.NodeEncoding
import ControlReach.Proofs.FormulaGrowth
import ControlReach.Proofs.CycleDetection
import ControlReach.Proofs.Pruning
import ControlReach.Proofs.StraightLine
import ControlReach.Proofs.MoreAssumptions
import ControlReach.Proofs.ContextualTyping
import ControlReach.Proofs.GenerationPolls
import ControlReach.Proofs.VisibleVariables
import ControlReach.Proofs.SingleBinding
import ControlReach.Proofs.Simplification
import ControlReach.Proofs.EffectiveSettings
import ControlReach.Proofs.NormalTerm
import ControlReach.Proofs.FieldUpdate
