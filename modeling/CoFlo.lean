import CoFlo.Ports.ReferenceFlow
import CoFlo.Ports.AcyclicFlow
import CoFlo.Ports.Connectedness
import CoFlo.Ports.ExitReachable
import CoFlo.Ports.ReturnLinks
import CoFlo.Ports.GraphOperations
import CoFlo.Ports.GraphRollback
import CoFlo.Ports.ResolvedLinks
import CoFlo.Ports.LoopExits
import CoFlo.Ports.RedundantChains
import CoFlo.Ports.KahnOrder
import CoFlo.Ports.MatchedCalls
import CoFlo.Ports.OwningFunctions
import CoFlo.Ports.UnresolvedCalls
import CoFlo.Ports.TerminateSearch
import CoFlo.Ports.DotFile
import CoFlo.Ports.PrintedCalls
import CoFlo.Ports.CallBrackets
import CoFlo.Ports.IndexPage
import CoFlo.Ports.CallFreePrint
import CoFlo.Ports.TraversalEnds
import CoFlo.Ports.FunctionCopies
import CoFlo.Ports.InDegree
import CoFlo.Ports.DotLabels
import CoFlo.Ports.VersionNumber
import CoFlo.Ports.Constraints
import CoFlo.Ports.ResponseFile
import CoFlo.Ports.PredecessorWalk
import CoFlo.Ports.PrintTermination
import CoFlo.Ports.ReportedExecution
import CoFlo.Ports.ParsedFile
import CoFlo.Ports.PicturedFlow
import CoFlo.Ports.InlinedPrint
import CoFlo.Ports.BalancedCalls
