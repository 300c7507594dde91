import Smoothing.Random.ChaCha

/-!
# Random numbers

The numbers drawn from a stream, by their place: evenly spread over the unit interval, or normally
distributed.
-/

namespace Smoothing.Random

/-- The ratio of a full turn to the radius. -/
def fullTurn : Float := 6.283185307179586

def leastPositive : Float := 2.2250738585072014e-308

namespace StreamKey

/-- The `i`-th pair of words of a stream as one number of 64 bits. -/
def pair (k : StreamKey) (i : Nat) : UInt64 :=
  (k.word (2 * i)).toUInt64 ||| (k.word (2 * i + 1)).toUInt64 <<< 32

def uniform (k : StreamKey) (i : Nat) : Float := (k.pair i >>> 11).toFloat / 9007199254740992.0

/-- The `i`-th normally distributed number with a standard deviation, made of two even ones. -/
def normal (k : StreamKey) (σ : Float) (i : Nat) : Float :=
  let first := k.uniform (2 * i)
  let radius := if first < leastPositive then leastPositive else first
  σ * Float.sqrt (-2.0 * Float.log radius) * Float.cos (fullTurn * k.uniform (2 * i + 1))

end StreamKey

end Smoothing.Random
