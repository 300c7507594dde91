/-!
# A stream of random words

Random numbers come from the ChaCha block function with twelve rounds. The state is a square of
sixteen words. A round works on the four columns at once, so it is written with rows: every
operation is done in all four places of a row. Between the two halves of a double round the rows are
turned, which brings the diagonals into columns.
-/

namespace Smoothing.Random

structure Row where
  w0 : UInt32
  w1 : UInt32
  w2 : UInt32
  w3 : UInt32
deriving DecidableEq, Repr

namespace Row

def zipWith (f : UInt32 → UInt32 → UInt32) (a b : Row) : Row :=
  ⟨f a.w0 b.w0, f a.w1 b.w1, f a.w2 b.w2, f a.w3 b.w3⟩

instance : Add Row := ⟨zipWith (· + ·)⟩
instance : XorOp Row := ⟨zipWith (· ^^^ ·)⟩

def rotateBits (n : UInt32) (a : Row) : Row :=
  let rotate (w : UInt32) := w <<< n ||| w >>> (32 - n)
  ⟨rotate a.w0, rotate a.w1, rotate a.w2, rotate a.w3⟩

def turn (a : Row) : Row := ⟨a.w1, a.w2, a.w3, a.w0⟩

def toList (a : Row) : List UInt32 := [a.w0, a.w1, a.w2, a.w3]

end Row

structure Block where
  a : Row
  b : Row
  c : Row
  d : Row
deriving DecidableEq, Repr

namespace Block

def add (s t : Block) : Block := ⟨s.a + t.a, s.b + t.b, s.c + t.c, s.d + t.d⟩

def toList (s : Block) : List UInt32 := s.a.toList ++ s.b.toList ++ s.c.toList ++ s.d.toList

/-- A quarter of a round in all four columns: two additions, each mixed into the next row. -/
def halfRound (m n : UInt32) (s : Block) : Block :=
  let a := s.a + s.b
  let d := (s.d ^^^ a).rotateBits m
  let c := s.c + d
  let b := (s.b ^^^ c).rotateBits n
  ⟨a, b, c, d⟩

def columnRound (s : Block) : Block := (s.halfRound 16 12).halfRound 8 7

/-- Brings the diagonals into columns. -/
def turn (s : Block) : Block := ⟨s.a, s.b.turn, s.c.turn.turn, s.d.turn.turn.turn⟩

def unturn (s : Block) : Block := ⟨s.a, s.b.turn.turn.turn, s.c.turn.turn, s.d.turn⟩

def doubleRound (s : Block) : Block := s.columnRound.turn.columnRound.unturn

/-- The block function: twelve rounds, then the state is added again. -/
def scramble (s : Block) : Block := (Nat.repeat doubleRound 6 s).add s

end Block

structure StreamKey where
  low : Row
  high : Row
deriving DecidableEq, Repr

namespace StreamKey

def constants : Row := ⟨0x61707865, 0x3320646e, 0x79622d32, 0x6b206574⟩

def state (k : StreamKey) (block : Nat) : Block :=
  ⟨constants, k.low, k.high, ⟨UInt32.ofNat block, UInt32.ofNat (block / UInt32.size), 0, 0⟩⟩

def word (k : StreamKey) (i : Nat) : UInt32 := (k.state (i / 16)).scramble.toList.getD (i % 16) 0

/-! ### Keys from a seed -/

def nextSeed (s : UInt64) : UInt64 := s * 6364136223846793005 + 11634580027462260723

def seedWord (s : UInt64) : UInt32 :=
  let x := (((s >>> 18) ^^^ s) >>> 27).toUInt32
  let r := (s >>> 59).toUInt32
  if r = 0 then x else x >>> r ||| x <<< (32 - r)

def seedStates : Nat → UInt64 → List UInt64
  | 0, _ => []
  | n + 1, s => nextSeed s :: seedStates n (nextSeed s)

def ofSeed (seed : UInt64) : StreamKey :=
  let w := (seedStates 8 seed).map seedWord
  let row i : Row := ⟨w.getD i 0, w.getD (i + 1) 0, w.getD (i + 2) 0, w.getD (i + 3) 0⟩
  ⟨row 0, row 4⟩

end StreamKey

end Smoothing.Random
