import Smoothing.Config
import Smoothing.Decimal.Text
import Smoothing.Scalar.Binary64
import Smoothing.Text.Listing

/-!
# Values, tangent vectors and configurations as text

Coordinates of values are written with four places, coordinates of updates with six.
-/

namespace Smoothing

open Text

def coordinateText (x : Float) : String := Decimal.fixed 4 x

def coordinatesText (xs : List Float) : String := s!"[{commas (xs.map coordinateText)}]"

def namedText (coordinates : List (String × Float)) : String :=
  commas (coordinates.map fun c => s!"{c.1}: {coordinateText c.2}")

def callText (name inner : String) : String := s!"{name}({inner})"

namespace Vec3

def text (v : Vec3 Float) : String := coordinatesText v.toList

end Vec3

namespace SO2

def text (r : SO2 Float) : String := callText "SO2" (namedText [("angle", r.angle)])

def tangentText (angle : Float) : String := callText "so2" (namedText [("angle", angle)])

end SO2

namespace SE2

def text (g : SE2 Float) : String :=
  callText "SE2" (namedText [("x", g.x), ("y", g.y), ("theta", g.angle)])

def Tangent.text (τ : Tangent Float) : String :=
  callText "se2" (namedText [("x", τ.x), ("y", τ.y), ("theta", τ.θ)])

end SE2

namespace SO3

def partsText (q : SO3 Float) : String :=
  "[" ++ namedText [("w", q.w), ("x", q.i), ("y", q.j), ("z", q.k)] ++ "]"

def text (q : SO3 Float) : String := callText "SO3" s!"quaternion: {q.partsText}"

def tangentText (φ : Vec3 Float) : String :=
  callText "so3" (namedText [("x", φ.x), ("y", φ.y), ("z", φ.z)])

end SO3

namespace SE3

def text (g : SE3 Float) : String :=
  callText "SE3" s!"translation: {g.shift.text}, rotation: {g.rotation.partsText}"

def Tangent.text (τ : Tangent Float) : String :=
  callText "se3" s!"rho: {τ.ρ.text}, theta: {τ.θ.text}"

end SE3

namespace Value

def text : Value Float → String
  | rn x => callText "Rn" (coordinatesText x.coords)
  | so2 x => x.text
  | se2 x => x.text
  | so3 x => x.text
  | se3 x => x.text

end Value

namespace Config

def text (c : Config Float) : String :=
  listing s!"Config ({c.size} variables)"
    (c.entries.map fun e => s!"{e.1.text}: {e.2.text}")

end Config

namespace BlockVector

def text (x : BlockVector Float) : String :=
  listing s!"VectorValues ({x.size} blocks)"
    (x.entries.map fun e => s!"{e.1.text}: [{commas (e.2.coords.map (Decimal.fixed 6))}]")

end BlockVector

end Smoothing
