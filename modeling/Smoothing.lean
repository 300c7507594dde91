import Smoothing.Factor.Text
import Smoothing.Linear.Text
import Smoothing.Main
import Smoothing.Proofs.Real
import Smoothing.Proofs.Mat
import Smoothing.Proofs.Mat.Triangular
import Smoothing.Proofs.Mat.Substitution
import Smoothing.Proofs.BlockVector
import Smoothing.Proofs.Linear.Factor
import Smoothing.Proofs.Linear.Layout
import Smoothing.Proofs.Linear.BayesNet
import Smoothing.Proofs.Linear.Elimination
import Smoothing.Proofs.Linear.LeastSquares
import Smoothing.Proofs.Sparse.System
import Smoothing.Proofs.Sparse.Factor
import Smoothing.Proofs.Sparse.Cholesky
import Smoothing.Proofs.Linear.NormalEquations
import Smoothing.Proofs.ConjugateGradients
import Smoothing.Proofs.BlockVector.Space
import Smoothing.Proofs.Linear.Rows
import Smoothing.Proofs.Linear.Subgraph.Operator
import Smoothing.Proofs.Linear.Subgraph.Iterate
import Smoothing.Proofs.Linear.Subgraph
import Smoothing.Proofs.Scalar.Exact
import Smoothing.Proofs.Scalar.Rational
import Smoothing.Proofs.Scalar.Binary64
import Smoothing.Proofs.Config
import Smoothing.Proofs.FactorGraph
import Smoothing.Proofs.Optimizer.Step
import Smoothing.Proofs.Optimizer.Reachable
import Smoothing.Proofs.Optimizer.Descent
import Smoothing.Proofs.Optimizer.HardConstraint
import Smoothing.Proofs.Config.RoundTrip
import Smoothing.Proofs.Lie.Rotation3
import Smoothing.Proofs.Lie.Motion3
import Smoothing.Proofs.Factor
import Smoothing.Proofs.Linear.Degenerate
import Smoothing.Proofs.Linear.Damping
import Smoothing.Proofs.Optimizer.Agreement
import Smoothing.Proofs.Mat.Leading
import Smoothing.Proofs.Linear.RightHandSide
import Smoothing.Proofs.Factor.Affine
import Smoothing.Proofs.Factor.Euclidean
import Smoothing.Proofs.Optimizer.LinearProblem
import Smoothing.Proofs.Lie.Action
import Smoothing.Proofs.Lie.Space
import Smoothing.Proofs.Lie.Adjoint
import Smoothing.Proofs.Lie.Jacobians
import Smoothing.Proofs.Lie.Derivative
import Smoothing.Proofs.Factor.Derivative
import Smoothing.Proofs.FactorGraph.Gauge
import Smoothing.Proofs.Factor.Difference
import Smoothing.Proofs.Factor.Prior
import Smoothing.Proofs.Optimizer.Verbosity
import Smoothing.Proofs.Linear.Coverage
import Smoothing.Proofs.Linear.Reached
import Smoothing.Proofs.Optimizer.Dampings
import Smoothing.Proofs.Optimizer.Undamped
import Smoothing.Proofs.Linear.DampedSolution
import Smoothing.Proofs.Linear.Adjoint
import Smoothing.Proofs.DisjointSets
import Smoothing.Proofs.Linear.Subgraph.Links
import Smoothing.Proofs.Linear.Subgraph.Forest
import Smoothing.Proofs.Linear.Subgraph.Restrict
import Smoothing.Proofs.Linear.Subgraph.Steps
import Smoothing.Proofs.Linear.Subgraph.Cap
import Smoothing.Proofs.Linear.Subgraph.Descent
import Smoothing.Proofs.Optimizer.DampedLinear
import Smoothing.Proofs.FactorGraph.Linearization
import Smoothing.Proofs.EliminationOrder
import Smoothing.Proofs.EliminationOrder.FillPath
import Smoothing.Proofs.Linear.FillIn
import Smoothing.Proofs.Config.Refusal
import Smoothing.Proofs.Scalar.Order
import Smoothing.Proofs.Factor.Equality
import Smoothing.Proofs.Mat.Largest
import Smoothing.Proofs.Mat.Equations
import Smoothing.Proofs.Mat.Inverse
import Smoothing.Proofs.Mat.Definite
import Smoothing.Proofs.Mat.Whitening
import Smoothing.Proofs.Noise
import Smoothing.Proofs.FactorGraph.FirstFailure
import Smoothing.Proofs.Key.Spelling
import Smoothing.Proofs.Scalar.Whole
import Smoothing.Proofs.Simulation.Trajectory
import Smoothing.Proofs.DisjointSets.Weight
import Smoothing.Proofs.DisjointSets.History
import Smoothing.Proofs.Simulation.PoseGraph
import Smoothing.Proofs.Linear.Transpose
import Smoothing.Proofs.Linear.Pool
import Smoothing.Proofs.Linear.Triplets
