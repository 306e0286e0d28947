import MorelloWorkloads.Lbm.Grid
import Mathlib.Algebra.Field.Basic
import Mathlib.Algebra.Order.Field.Rat

/-! What one cell does in a step: bounce back, or relax and send out. The texts
of the two programs agree here up to the macros that read and store. -/
namespace MorelloWorkloads.Lbm
open FlatMemory Dir

variable {K : Type*} [Field K]

def dfl1 : K := 1.0 / 3.0
def dfl2 : K := 1.0 / 18.0
def dfl3 : K := 1.0 / 36.0

/-- The stores of an obstacle cell. -/
def bounceBack (src : Dir → K) : List (Dir × K) :=
  [(C, src C), (S, src N), (N, src S), (W, src E), (E, src W), (B, src T), (T, src B),
    (SW, src NE), (SE, src NW), (NW, src SE), (NE, src SW), (SB, src NT), (ST, src NB),
    (NB, src ST), (NT, src SB), (WB, src ET), (WT, src EB), (EB, src WT), (ET, src WB)]

structure Moments (K : Type*) where
  rho : K
  ux : K
  uy : K
  uz : K

/-- Density and velocity of a fluid cell; an `ACCEL` cell has its velocity set. -/
def moments (g : Config) (src : Dir → K) (flags : BitVec 32) : Moments K :=
  let rho := src C + src N + src S + src E + src W + src T + src B + src NE + src NW + src SE +
    src SW + src NT + src NB + src ST + src SB + src ET + src EB + src WT + src WB
  let ux := src E - src W + src NE - src NW + src SE - src SW + src ET + src EB - src WT - src WB
  let uy := src N - src S + src NE + src NW - src SE - src SW + src NT + src NB - src ST - src SB
  let uz := src T - src B + src NT - src NB + src ST - src SB + src ET - src EB + src WT - src WB
  if testFlag flags g.accel then ⟨rho, 0.005, 0.002, 0.000⟩
  else ⟨rho, ux / rho, uy / rho, uz / rho⟩

def collideBGK (omega : K) (src : Dir → K) : Moments K → List (Dir × K)
  | ⟨rho, ux, uy, uz⟩ =>
    let u2 := 1.5 * (ux * ux + uy * uy + uz * uz)
    [(C, (1.0 - omega) * src C + dfl1 * omega * rho * (1.0 - u2)),
      (N, (1.0 - omega) * src N + dfl2 * omega * rho * (1.0 + uy * (4.5 * uy + 3.0) - u2)),
      (S, (1.0 - omega) * src S + dfl2 * omega * rho * (1.0 + uy * (4.5 * uy - 3.0) - u2)),
      (E, (1.0 - omega) * src E + dfl2 * omega * rho * (1.0 + ux * (4.5 * ux + 3.0) - u2)),
      (W, (1.0 - omega) * src W + dfl2 * omega * rho * (1.0 + ux * (4.5 * ux - 3.0) - u2)),
      (T, (1.0 - omega) * src T + dfl2 * omega * rho * (1.0 + uz * (4.5 * uz + 3.0) - u2)),
      (B, (1.0 - omega) * src B + dfl2 * omega * rho * (1.0 + uz * (4.5 * uz - 3.0) - u2)),
      (NE, (1.0 - omega) * src NE +
        dfl3 * omega * rho * (1.0 + (ux + uy) * (4.5 * (ux + uy) + 3.0) - u2)),
      (NW, (1.0 - omega) * src NW +
        dfl3 * omega * rho * (1.0 + (-ux + uy) * (4.5 * (-ux + uy) + 3.0) - u2)),
      (SE, (1.0 - omega) * src SE +
        dfl3 * omega * rho * (1.0 + (ux - uy) * (4.5 * (ux - uy) + 3.0) - u2)),
      (SW, (1.0 - omega) * src SW +
        dfl3 * omega * rho * (1.0 + (-ux - uy) * (4.5 * (-ux - uy) + 3.0) - u2)),
      (NT, (1.0 - omega) * src NT +
        dfl3 * omega * rho * (1.0 + (uy + uz) * (4.5 * (uy + uz) + 3.0) - u2)),
      (NB, (1.0 - omega) * src NB +
        dfl3 * omega * rho * (1.0 + (uy - uz) * (4.5 * (uy - uz) + 3.0) - u2)),
      (ST, (1.0 - omega) * src ST +
        dfl3 * omega * rho * (1.0 + (-uy + uz) * (4.5 * (-uy + uz) + 3.0) - u2)),
      (SB, (1.0 - omega) * src SB +
        dfl3 * omega * rho * (1.0 + (-uy - uz) * (4.5 * (-uy - uz) + 3.0) - u2)),
      (ET, (1.0 - omega) * src ET +
        dfl3 * omega * rho * (1.0 + (ux + uz) * (4.5 * (ux + uz) + 3.0) - u2)),
      (EB, (1.0 - omega) * src EB +
        dfl3 * omega * rho * (1.0 + (ux - uz) * (4.5 * (ux - uz) + 3.0) - u2)),
      (WT, (1.0 - omega) * src WT +
        dfl3 * omega * rho * (1.0 + (-ux + uz) * (4.5 * (-ux + uz) + 3.0) - u2)),
      (WB, (1.0 - omega) * src WB +
        dfl3 * omega * rho * (1.0 + (-ux - uz) * (4.5 * (-ux - uz) + 3.0) - u2))]

def lambda0 (omega : K) : K := 1.0 / (0.5 + 3.0 / (16.0 * (1.0 / omega - 0.5)))

/-- The array `feqs`; a chained assignment gives two entries one value. -/
def feqs : Moments K → Dir → K
  | ⟨rho, ux, uy, uz⟩ =>
    let u2 := 1.5 * (ux * ux + uy * uy + uz * uz)
    fun
    | C => dfl1 * rho * (1.0 - u2)
    | N | S => dfl2 * rho * (1.0 + 4.5 * uy * uy - u2)
    | E | W => dfl2 * rho * (1.0 + 4.5 * ux * ux - u2)
    | T | B => dfl2 * rho * (1.0 + 4.5 * uz * uz - u2)
    | NE | SW => dfl3 * rho * (1.0 + 4.5 * (ux + uy) * (ux + uy) - u2)
    | NW | SE => dfl3 * rho * (1.0 + 4.5 * (-ux + uy) * (-ux + uy) - u2)
    | NT | SB => dfl3 * rho * (1.0 + 4.5 * (uy + uz) * (uy + uz) - u2)
    | NB | .ST => dfl3 * rho * (1.0 + 4.5 * (uy - uz) * (uy - uz) - u2)
    | ET | WB => dfl3 * rho * (1.0 + 4.5 * (ux + uz) * (ux + uz) - u2)
    | EB | WT => dfl3 * rho * (1.0 + 4.5 * (ux - uz) * (ux - uz) - u2)

def feqa : Moments K → Dir → K
  | ⟨rho, ux, uy, uz⟩ => fun
    | C => 0.0
    | N => dfl2 * rho * 3.0 * uy
    | S => -(dfl2 * rho * 3.0 * uy)
    | E => dfl2 * rho * 3.0 * ux
    | W => -(dfl2 * rho * 3.0 * ux)
    | T => dfl2 * rho * 3.0 * uz
    | B => -(dfl2 * rho * 3.0 * uz)
    | NE => dfl3 * rho * 3.0 * (ux + uy)
    | SW => -(dfl3 * rho * 3.0 * (ux + uy))
    | NW => dfl3 * rho * 3.0 * (-ux + uy)
    | SE => -(dfl3 * rho * 3.0 * (-ux + uy))
    | NT => dfl3 * rho * 3.0 * (uy + uz)
    | SB => -(dfl3 * rho * 3.0 * (uy + uz))
    | NB => dfl3 * rho * 3.0 * (uy - uz)
    | .ST => -(dfl3 * rho * 3.0 * (uy - uz))
    | ET => dfl3 * rho * 3.0 * (ux + uz)
    | WB => -(dfl3 * rho * 3.0 * (ux + uz))
    | EB => dfl3 * rho * 3.0 * (ux - uz)
    | WT => -(dfl3 * rho * 3.0 * (ux - uz))

def fs (src : Dir → K) : Dir → K
  | C => src C
  | N | S => 0.5 * (src N + src S)
  | E | W => 0.5 * (src E + src W)
  | T | B => 0.5 * (src T + src B)
  | NE | SW => 0.5 * (src NE + src SW)
  | NW | SE => 0.5 * (src NW + src SE)
  | NT | SB => 0.5 * (src NT + src SB)
  | NB | .ST => 0.5 * (src NB + src ST)
  | ET | WB => 0.5 * (src ET + src WB)
  | EB | WT => 0.5 * (src EB + src WT)

def fa (src : Dir → K) : Dir → K
  | C => 0.0
  | N => 0.5 * (src N - src S)
  | S => -(0.5 * (src N - src S))
  | E => 0.5 * (src E - src W)
  | W => -(0.5 * (src E - src W))
  | T => 0.5 * (src T - src B)
  | B => -(0.5 * (src T - src B))
  | NE => 0.5 * (src NE - src SW)
  | SW => -(0.5 * (src NE - src SW))
  | NW => 0.5 * (src NW - src SE)
  | SE => -(0.5 * (src NW - src SE))
  | NT => 0.5 * (src NT - src SB)
  | SB => -(0.5 * (src NT - src SB))
  | NB => 0.5 * (src NB - src ST)
  | .ST => -(0.5 * (src NB - src ST))
  | ET => 0.5 * (src ET - src WB)
  | WB => -(0.5 * (src ET - src WB))
  | EB => 0.5 * (src EB - src WT)
  | WT => -(0.5 * (src EB - src WT))

/-- The stores of a fluid cell in the TRT step; that of `C` has no odd part. -/
def collideTRT (omega : K) (src : Dir → K) (m : Moments K) : List (Dir × K) :=
  (C, src C - omega * (fs src C - feqs m C)) ::
    [N, S, E, W, T, B, NE, NW, SE, SW, NT, NB, ST, SB, ET, EB, WT, WB].map fun d =>
      (d, src d - omega * (fs src d - feqs m d) - lambda0 omega * (fa src d - feqa m d))

/-- The same stores when `lambda0` has any value. -/
def collideTRTWith (omega lambda : K) (src : Dir → K) (m : Moments K) : List (Dir × K) :=
  (C, src C - omega * (fs src C - feqs m C)) ::
    [N, S, E, W, T, B, NE, NW, SE, SW, NT, NB, ST, SB, ET, EB, WT, WB].map fun d =>
      (d, src d - omega * (fs src d - feqs m d) - lambda * (fa src d - feqa m d))

theorem collideTRT_eq_with (omega : K) : collideTRT omega = collideTRTWith omega (lambda0 omega) := rfl

/-- All stores of a cell, in the order of the source. -/
def cellStores (g : Config) (collide : (Dir → K) → Moments K → List (Dir × K)) (src : Dir → K)
    (flags : BitVec 32) : List (Dir × K) :=
  if testFlag flags g.obstacle then bounceBack src else collide src (moments g src flags)

end MorelloWorkloads.Lbm
