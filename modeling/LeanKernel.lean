import LeanKernel.Expr
import LeanKernel.Alpha
import LeanKernel.Replace
import LeanKernel.Instantiate
import LeanKernel.Subst
import LeanKernel.Metavar
import LeanKernel.Beta
import LeanKernel.BetaReduce
import LeanKernel.Heap
import LeanKernel.ExprEq
import LeanKernel.Arith
import LeanKernel.MaxSharing
import LeanKernel.Pp.Binders
import LeanKernel.Pp.State
import LeanKernel.Pp.Notation
import LeanKernel.Pp.Printer
import LeanKernel.Pp.Safety
import LeanKernel.Pp.Fuel
import LeanKernel.Pp.Blocks
import LeanKernel.Pp.Termination
import LeanKernel.Pp.Occurrences
import LeanKernel.Pp.Aliases
