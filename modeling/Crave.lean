import Crave.Foundation.Accumulation
import Crave.Frontend.Distribution
import Crave.Frontend.RangeWeight
import Crave.Frontend.WeightedSelection
import Crave.Foundation.SizedBits
import Crave.Foundation.BinaryDigits
import Crave.Foundation.BitCount
import Crave.Foundation.BitVectorTerm
import Crave.Foundation.Components
import Crave.Foundation.Division
import Crave.Foundation.Forest
import Crave.Foundation.Greedy
import Crave.Foundation.IntegerType
import Crave.Foundation.Oracle
import Crave.Foundation.RunMachine
import Crave.Foundation.TwosComplement
import Crave.Ir.Node
import Crave.Ir.FixWidth
import Crave.Ir.ReplaceVisitor
import Crave.Ir.Context
import Crave.Ir.EvalVisitor
import Crave.Ir.Evaluator
import Crave.Ir.HostArithmetic
import Crave.Ir.PartialEvaluation
import Crave.Ir.Constraint
import Crave.Ir.Complexity
import Crave.Ir.ConstraintPartition
import Crave.Ir.IndexArithmetic
import Crave.MetaSmt.ExpressionSort
import Crave.Backend.MetaSMTVisitor
import Crave.Backend.SolverState
import Crave.Backend.VariableContainer
import Crave.Backend.VariableSolver
import Crave.Backend.VariableDefaultSolver
import Crave.Backend.ComplexityLimit
import Crave.Backend.VariableCoverageSolver
import Crave.Backend.ValuesInForce
import Crave.Backend.VariableGenerator
import Crave.Backend.VariableCoverageGenerator
import Crave.Backend.VectorGenerator
import Crave.Backend.VectorSize
import Crave.Backend.VectorBody
import Crave.Backend.VectorSoundness
import Crave.Backend.ForeachInstance
import Crave.Backend.Generator
import Crave.Backend.GeneratorCache
import Crave.Backend.GeneratorRuns
import Crave.Backend.AssignResult
import Crave.Backend.Buildable
import Crave.Backend.UsedGenerators
import Crave.Backend.PriorValues
import Crave.Backend.BddSolvers
import Crave.Backend.FailedPartitions
import Crave.Backend.GeneratorExceptions
import Crave.Backend.SoftConstraints
import Crave.Backend.SoftPriorities
import Crave.Backend.GeneratorSoundness
import Crave.Backend.GeneratorVectors
import Crave.Backend.VectorFiling
import Crave.Backend.Operands
import Crave.Backend.RelationalOperators
import Crave.Backend.DivisionOperators
import Crave.Backend.WellSorted
import Crave.Backend.Evaluation
import Crave.Backend.HostOperators
import Crave.Experimental.BitExpressions
import Crave.Experimental.CoverageBins
import Crave.Experimental.RepetitionMatches
import Crave.Experimental.TransitionMatches
import Crave.Experimental.Covergroup
import Crave.Experimental.RuleContext
import Crave.Experimental.RuleUpdate
import Crave.Experimental.RuleDerivations
import Crave.Experimental.Executor
import Crave.Experimental.ExecutorPaths
import Crave.Experimental.ExecutorVisit
import Crave.Experimental.ExecutorDerivations
import Crave.Experimental.Object
import Crave.Experimental.ObjectNaming
import Crave.Experimental.ObjectLookup
import Crave.Experimental.ObjectTree
import Crave.Experimental.SequenceItem
import Crave.Experimental.SequenceItemBuild
import Crave.Experimental.SequenceItemRebuild
import Crave.Experimental.SequenceItemSoundness
import Crave.Backend.VectorInstances
import Crave.Backend.VectorUnique
import Crave.Frontend.Membership
import Crave.Experimental.DefaultDistribution
import Crave.Frontend.RandObj
import Crave.Frontend.RandObjRuns
import Crave.Frontend.RandObjSoundness
import Crave.Backend.CoverageSoundness
import Crave.Frontend.RandObjCoverage
import Crave.Backend.CoverageSizes
import Crave.Backend.ConstantValue
import Crave.Backend.CoverageRuns
import Crave.Frontend.CoverageCompleteness
import Crave.Backend.CoverageTermination
import Crave.Foundation.Countdown
import Crave.Frontend.ObjectCoverage
import Crave.Experimental.PathCoverage
import Crave.Backend.FailedVectors
import Crave.Backend.FailedCalls
import Crave.Foundation.BitLists
import Crave.Foundation.RestoringDivision
import Crave.MetaSmt.PredicateSolver
import Crave.MetaSmt.BitBlast
import Crave.MetaSmt.BitBlastWords
import Crave.MetaSmt.BitBlastArithmetic
import Crave.MetaSmt.BitBlastOperators
import Crave.MetaSmt.BitBlastVisitor
import Crave.MetaSmt.BitBlastSimulation
import Crave.MetaSmt.BitBlastTerminals
import Crave.Foundation.DecisionDiagram
import Crave.Foundation.ShannonExpansion
import Crave.Foundation.DiagramSampling
import Crave.Foundation.RandomMachine
import Crave.MetaSmt.CuddDistributed
import Crave.MetaSmt.CuddSampling
import Crave.MetaSmt.CuddRuns
import Crave.MetaSmt.CuddVisitor
import Crave.MetaSmt.CuddProposals
import Crave.MetaSmt.ContradictionAnalysis
import Crave.Backend.VariableGeneratorMT
