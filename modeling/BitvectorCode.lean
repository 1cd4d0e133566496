import BitvectorCode.Analysis.Shape
import BitvectorCode.Analysis.Value
import BitvectorCode.Eval.Tree
import BitvectorCode.Graph.WellFormed
import BitvectorCode.Layout.Struct
import BitvectorCode.Lowering.Diff
import BitvectorCode.Rewrite.ByteSwap
import BitvectorCode.Rewrite.Fold
import BitvectorCode.Saved.Graph
import BitvectorCode.SmtLib.Query
import BitvectorCode.Proofs.Graph.Run
import BitvectorCode.Proofs.Lowering.Lower
import BitvectorCode.Proofs.Lowering.Bounds
import BitvectorCode.Proofs.Lowering.Structure
import BitvectorCode.Proofs.Lowering.Constants
import BitvectorCode.Proofs.Lowering.Signs
import BitvectorCode.Proofs.Solver.Query
import BitvectorCode.Proofs.Rewrite.Fold
import BitvectorCode.Proofs.Rewrite.Involution
import BitvectorCode.Proofs.Rewrite.Narrowing
import BitvectorCode.Proofs.Lowering.ByteRun
import BitvectorCode.Proofs.Lowering.Contexts
import BitvectorCode.Proofs.Lowering.Extract
import BitvectorCode.Proofs.Lowering.Padding
import BitvectorCode.Proofs.Rewrite.NormalForm
import BitvectorCode.Proofs.Rewrite.Inverse
import BitvectorCode.Proofs.Rewrite.ConstraintSets
import BitvectorCode.Proofs.Lowering.Unchanged
import BitvectorCode.Proofs.Rewrite.Commuting
import BitvectorCode.Proofs.Analysis.ConstantValue
import BitvectorCode.Proofs.Analysis.LittleEndian
import BitvectorCode.Proofs.Analysis.TruthValue
import BitvectorCode.Proofs.Analysis.Dependence
import BitvectorCode.Proofs.Analysis.ReadOrder
import BitvectorCode.Proofs.SmtLib.Introductions
import BitvectorCode.Proofs.SmtLib.Answers
import BitvectorCode.Proofs.Layout.Fields
import BitvectorCode.Proofs.Rewrite.Calls
import BitvectorCode.Proofs.Code.SimplifiedValue
import BitvectorCode.Proofs.Analysis.Visits
import BitvectorCode.Proofs.Constant.FixedWidth
