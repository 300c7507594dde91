import Smoothing.Factor.Build
import Smoothing.FactorGraph
import Smoothing.Random.Draws
import Smoothing.Scalar.Binary64
import Smoothing.Simulation.Trajectory

/-!
# Simulated pose graphs

A robot moves along a trajectory and measures how each pose follows from the one before; some more
pairs of poses are compared. Every measurement is disturbed by random noise. The initial estimate
follows the disturbed measurements along the path, so its error grows; the problem is to correct it.
-/

namespace Smoothing

open LieStructure

structure Scenario where
  topology : Topology
  /-- The side of the grid, or the number of poses on the ring. -/
  size : Nat
  shiftSigma : Float
  rotationSigma : Float
  seed : UInt64
deriving Repr

structure PoseGraph where
  graph : FactorGraph Float
  initial : Config Float
  truth : Config Float
  odometry : Nat
  closures : Nat

namespace PoseGraph

def poseKey (i : Nat) : Key := ⟨'x', UInt64.ofNat i⟩

def halfTurn : Float := 3.141592653589793

def gridPose (size i : Nat) : SE2 Float :=
  let (column, row) := Grid.cell size i
  SE2.ofPose (Float.ofNat column) (Float.ofNat row)
    (if Grid.isBackwards row then halfTurn else 0.0)

def ringPose (size i : Nat) : SE2 Float :=
  let radius := Float.ofNat size / Random.fullTurn
  let angle := Random.fullTurn * Float.ofNat i / Float.ofNat size
  SE2.ofPose (radius * Float.cos angle) (radius * Float.sin angle) (angle + halfTurn / 2.0)

def pose (s : Scenario) (i : Nat) : SE2 Float :=
  match s.topology with
  | .grid => gridPose s.size i
  | .ring => ringPose s.size i

def noise (s : Scenario) (key : Random.StreamKey) (i : Nat) : SE2.Tangent Float :=
  ⟨key.normal s.shiftSigma (3 * i), key.normal s.shiftSigma (3 * i + 1),
    key.normal s.rotationSigma (3 * i + 2)⟩

def measurement (s : Scenario) (key : Random.StreamKey) (i : Nat) (ab : Nat × Nat) : SE2 Float :=
  plus (between (pose s ab.1) (pose s ab.2)) (noise s key i)

def pairs (s : Scenario) : List (Nat × Nat) :=
  (List.range (s.topology.poses s.size - 1)).map (fun i => (i, i + 1)) ++
    s.topology.closures s.size

/-- Follows measurements from a pose on. -/
def follow (x : SE2 Float) : List (SE2 Float) → List (SE2 Float)
  | [] => [x]
  | z :: zs => x :: follow (compose x z) zs

def config (xs : List (SE2 Float)) : Config Float :=
  KeyMap.ofList (xs.zipIdx.map fun (x, i) => (poseKey i, Value.se2 x))

abbrev Run (β : Type) := Logged (Event Float) (Failure Float) β

def measured (noise : NoiseModel Float) (ab : Nat × Nat) (z : SE2 Float) : Run (Factor Float) := do
  let f ← (BetweenFactor.build (poseKey ab.1) (poseKey ab.2) (.se2 z) noise).mapCause .factor
  return .between f

def anchor (s : Scenario) : Run (Factor Float) := do
  let noise ← (NoiseModel.isotropic 3 1e-3).mapCause fun e => .problem (.noise e)
  let f ← (PriorFactor.build (poseKey 0) (.se2 (pose s 0)) noise).mapCause .factor
  return .prior f

def simulate (s : Scenario) : Run PoseGraph := do
  let σs := [s.shiftSigma, s.shiftSigma, s.rotationSigma]
  let noise ← (NoiseModel.diagonal σs).mapCause fun e => .problem (.noise e)
  let key := Random.StreamKey.ofSeed s.seed
  let pairs := pairs s
  let zs := pairs.zipIdx.map fun (ab, i) => measurement s key i ab
  let steps := s.topology.poses s.size - 1
  let first ← anchor s
  let others ← (List.zip pairs zs).mapM fun (ab, z) => measured noise ab z
  return {
    graph := ⟨first :: others⟩
    initial := config (follow (pose s 0) (zs.take steps))
    truth := config ((List.range (s.topology.poses s.size)).map (pose s))
    odometry := steps
    closures := pairs.length - steps }

/-- The root of the mean squared distance of the estimated positions from the true ones. -/
def rmsDistance (estimate truth : Config Float) : Except (ProblemError Float) Float := do
  let δ ← truth.localCoords estimate
  let sum := Scalar.sum (δ.values.map fun v => (v.slice 0 2).normSq)
  return Float.sqrt (sum / Float.ofNat (max δ.size 1))

end PoseGraph

end Smoothing
