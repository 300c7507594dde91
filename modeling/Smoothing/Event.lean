import Smoothing.Failure
import Smoothing.Linear.Factor
import Smoothing.Logged
import Smoothing.Optimizer.Params

/-!
# Events

What the solver reports while it runs. An event carries the data it is about; its level says how
severe or how detailed it is, and its scope which part of the solver reports it.
-/

namespace Smoothing

inductive Level where
  | error
  | warn
  | info
  | debug
  | trace
deriving DecidableEq, Repr

/-- The place of a level: a smaller one is more severe. -/
def Level.rank : Level → Nat
  | .error => 1
  | .warn => 2
  | .info => 3
  | .debug => 4
  | .trace => 5

inductive DirectMethod where
  | qr
  | cholesky
deriving DecidableEq, Repr

def DirectMethod.text : DirectMethod → String
  | .qr => "QR"
  | .cholesky => "Cholesky"

inductive Method where
  | gaussNewton
  | levenbergMarquardt
deriving DecidableEq, Repr

inductive Event (α : Type) where
  | failed (failure : Failure α)
  /-- A pivot of the normal equations, given by its place, is not positive, so they are singular. -/
  | pivotRefused (place : Nat)
  | negligiblePivot (key : Key) (scale : α)
  | directSolve (method : DirectMethod) (factors size : Nat)
  | subgraphChosen (chosen factors : Nat)
  | gradientStep (iteration : Nat) (residual : α)
  | gradientConverged (iterations : Nat) (residual : α)
  /-- The iteration cap was hit and the best solution is used. -/
  | gradientCapped (iterations : Nat) (residual : α)
  | configuration (params : Params α)
  | errorIsZero
  | errorChange (current next decrease relative : α)
  | errorIncreased (current next : α)
  | linearized (method : Method) (graph : GaussianGraph α)
  | update (method : Method) (delta : BlockVector α)
  | config (config : KeyMap (Value α))
  | started (method : Method) (error lambda : α)
  | finished (method : Method) (summary : Summary α)
  | attempt (number : Nat) (lambda : α)
  | dampedSystem (graph : GaussianGraph α)
  | candidateDelta (delta : BlockVector α)
  | candidateConfig (config : KeyMap (Value α))
  | trial (lambda current next : α)
  | accepted (lambda : α)
  | solveFailed (lambda : α) (cause : LinearError α)
  | runStalled (attempts : Nat) (lambda : α)

namespace Event

variable {α : Type}

def level : Event α → Level
  | failed _ | pivotRefused _ => .error
  | gradientCapped _ _ => .warn
  | negligiblePivot _ _ | subgraphChosen _ _ | gradientConverged _ _ | configuration _
  | errorIncreased _ _ | solveFailed _ _ | runStalled _ _ => .debug
  | directSolve _ _ _ | gradientStep _ _ => .trace
  | errorIsZero | errorChange _ _ _ _ | linearized _ _ | update _ _ | config _ | started _ _ _
  | finished _ _ | attempt _ _ | dampedSystem _ | candidateDelta _ | candidateConfig _
  | trial _ _ _ | accepted _ => .info

end Event

namespace Logged

variable {ε β α : Type}

/-- Reports a failure and stops with it. -/
def failWith (wrap : ε → Failure α) (e : ε) : Logged (Event α) ε β :=
  ⟨[.failed (wrap e)], .error (.cause e)⟩

end Logged

end Smoothing
