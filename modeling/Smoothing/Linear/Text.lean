import Smoothing.Linear.BayesNet
import Smoothing.Text.Listing

/-!
# Linear problems and Bayes nets as text

Only the structure is written: which variables a factor or a conditional is about.
-/

namespace Smoothing

open Text

variable {α : Type}

namespace GaussianFactor

def text (f : GaussianFactor α) : String :=
  s!"GaussianFactor({Key.listText f.keys}) rows: {f.height}"

end GaussianFactor

namespace GaussianGraph

def text (g : GaussianGraph α) : String :=
  listing s!"GaussianFactorGraph ({g.size} factors)" (numbered (g.factors.map GaussianFactor.text))

end GaussianGraph

namespace Conditional

def text (c : Conditional α) : String := s!"p({c.key.text} | {Key.listText c.parentKeys})"

end Conditional

namespace BayesNet

def text (n : BayesNet α) : String :=
  listing s!"GaussianBayesNet ({n.size} conditionals)" (n.conditionals.map Conditional.text)

end BayesNet

end Smoothing
