import MorelloWorkloads.Lib.Accumulate
import Mathlib.Algebra.Ring.Defs

/-! The five kernels of `multiply-bench.cpp`. A buffer is a function of the
`int` index; `TYPE` is a ring, so sums are exact and their order is free. -/
namespace MorelloWorkloads.MatrixMultiply
open CountedLoop

variable {R : Type*} [CommRing R]

/-- `std::fill(c, c + len, v)` -/
def fill (c : ℤ → R) (len : ℤ) (v : R) : ℤ → R := fun i => if 0 ≤ i ∧ i < len then v else c i

/-- `acc += a[i * msize + k] * b[k * msize + j]` for `k` from `lo` below `hi` -/
def dot (msize : ℤ) (a b : ℤ → R) (i j lo hi : ℤ) : R :=
  loop lo hi 1 0 fun acc k => acc + a (i * msize + k) * b (k * msize + j)

def multiplyV1 (msize : ℤ) (a b c : ℤ → R) : ℤ → R :=
  loop 0 msize 1 c fun c i =>
    loop 0 msize 1 c fun c j =>
      let acc := dot msize a b i j 0 msize
      Function.update c (i * msize + j) acc

/-- The same loops over `std::vector`. -/
def multiplyV2 (msize : ℤ) (a b c : ℤ → R) : ℤ → R := multiplyV1 msize a b c

/-- The inner loops test `i < i0 + tile && i < msize`: they run below the minimum. -/
def multiplyV3 (msize : ℤ) (a b c : ℤ → R) (tile : ℤ) : ℤ → R :=
  loop 0 msize tile (fill c (msize * msize) 0) fun c i0 =>
    loop 0 msize tile c fun c j0 =>
      loop 0 msize tile c fun c k0 =>
        loop i0 (min (i0 + tile) msize) 1 c fun c i =>
          loop j0 (min (j0 + tile) msize) 1 c fun c j =>
            let acc := dot msize a b i j k0 (min (k0 + tile) msize)
            Function.update c (i * msize + j) (c (i * msize + j) + acc)

def multiplyV4 (msize : ℤ) (a b c : ℤ → R) : ℤ → R :=
  loop 0 msize 1 (fill c (msize * msize) 0) fun c i =>
    loop 0 msize 1 c fun c k =>
      let aik := a (i * msize + k)
      loop 0 msize 1 c fun c j =>
        Function.update c (i * msize + j) (c (i * msize + j) + aik * b (k * msize + j))

def multiplyV5 (msize : ℤ) (a b c : ℤ → R) : ℤ → R :=
  loop 0 msize 1 (fill c (msize * msize) 0) fun c j =>
    loop 0 msize 1 c fun c k =>
      let bjk := b (k * msize + j)
      loop 0 msize 1 c fun c i =>
        Function.update c (i * msize + j) (c (i * msize + j) + a (i * msize + k) * bjk)

end MorelloWorkloads.MatrixMultiply
