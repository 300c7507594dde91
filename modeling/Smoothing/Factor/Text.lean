import Smoothing.FactorGraph
import Smoothing.Text.Quoted
import Smoothing.Value.Text

/-!
# Noise models, factors and graphs as text
-/

namespace Smoothing

open Text

namespace NoiseModel

def sigmaText (n : NoiseModel Float) (i : Nat) : String :=
  Decimal.scientific 4 (1 / n.sqrtInfo.get i i)

def text (n : NoiseModel Float) : String :=
  match n.kind with
  | .unit => s!"Unit({n.dim})"
  | .isotropic => s!"Isotropic(dim: {n.dim}, sigma: {n.sigmaText 0})"
  | .diagonal => s!"Diagonal(sigmas: [{commas ((List.range n.dim).map n.sigmaText)}])"
  | .gaussian => s!"Gaussian(dim: {n.dim})"

end NoiseModel

namespace Factor

/-- What a factor is about, on one line. -/
def text (f : Factor Float) : String :=
  s!"{f.kind.text}({Key.listText f.keys}) measured: {f.measured.text} noise: {f.noise.text}"

end Factor

namespace FactorGraph

def text (g : FactorGraph Float) : String :=
  listing s!"FactorGraph ({g.size} factors)" (numbered (g.factors.map Factor.text))

def quotedText (g : FactorGraph Float) : String :=
  s!"[{commas (g.factors.map fun f => quoted f.text)}]"

end FactorGraph

end Smoothing
