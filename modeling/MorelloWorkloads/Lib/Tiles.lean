import MorelloWorkloads.Lib.CountedLoop

/-! Cutting an interval into tiles of one length, the last of which may be
shorter. -/
namespace Tiles
open CountedLoop

/-- Start and length of every tile of `[lo, hi)`. -/
def tiles (c lo hi : ℤ) : List (ℤ × ℤ) := (trips lo hi c).map fun v => (v, min c (hi - v))

def Covers (b : ℤ) (t : ℤ × ℤ) : Prop := t.1 ≤ b ∧ b < t.1 + t.2

instance (b : ℤ) : DecidablePred (Covers b) := fun _ => inferInstanceAs (Decidable (_ ∧ _))

variable {c lo hi : ℤ}

theorem tiles_nil (hc : 0 < c) (h : hi ≤ lo) : tiles c lo hi = [] := by
  rw [tiles, trips_nil hc h, List.map_nil]

theorem tiles_cons (hc : 0 < c) (h : lo < hi) :
    tiles c lo hi = (lo, min c (hi - lo)) :: tiles c (lo + c) hi := by
  rw [tiles, trips_cons hc h, List.map_cons, tiles]

theorem tiles_length : (tiles c lo hi).length = ((hi - lo + c - 1) / c).toNat := by
  simp [tiles, trips, tripCount]

/-- Tiles are numbered by how many of them lie below. -/
theorem tiles_eq_range : tiles c 0 hi =
    (List.range ((hi + c - 1) / c).toNat).map fun k : ℕ => (k * c, min c (hi - k * c)) := by
  rw [tiles, trips, tripCount, List.map_map, sub_zero]
  apply List.map_congr_left
  intro k _
  simp only [Function.comp_apply, zero_add, mul_comm c]

theorem tile_pos (hc : 0 < c) {t : ℤ × ℤ} (ht : t ∈ tiles c lo hi) : 0 < t.2 := by
  obtain ⟨v, hv, rfl⟩ := List.mem_map.mp ht
  obtain ⟨k, _, hlt⟩ := (mem_trips hc).mp hv
  exact lt_min hc (by omega)

theorem covers_tile (b : ℤ) : Covers b (lo, min c (hi - lo)) ↔ lo ≤ b ∧ b < lo + c ∧ b < hi := by
  simp only [Covers]
  omega

/-- Every position of the interval lies in one tile, and no other position in any. -/
theorem countP_tiles (hc : 0 < c) (b : ℤ) :
    (tiles c lo hi).countP (fun t => Covers b t) = if lo ≤ b ∧ b < hi then 1 else 0 := by
  induction lo using trips_induction hi hc with
  | done lo h =>
    rw [tiles_nil hc h, if_neg (by omega)]
    rfl
  | next lo h ih =>
    rw [tiles_cons hc h, List.countP_cons, ih]
    simp only [decide_eq_true_eq, covers_tile]
    by_cases first : b < lo + c
    · rw [if_neg (show ¬ (lo + c ≤ b ∧ b < hi) by omega), zero_add]
      exact if_congr (by omega) rfl rfl
    · rw [if_neg (show ¬ (lo ≤ b ∧ b < lo + c ∧ b < hi) by omega), add_zero]
      exact if_congr (by omega) rfl rfl

/-- Whole tiles, and then the tiles of the rest, are the tiles of both. -/
theorem tiles_append (hc : 0 < c) (n : ℕ) (h : lo + c * n ≤ hi) :
    tiles c lo (lo + c * n) ++ tiles c (lo + c * n) hi = tiles c lo hi := by
  induction n generalizing lo with
  | zero => simp [tiles_nil hc le_rfl]
  | succ n ih =>
    have hn : 0 ≤ c * n := mul_nonneg hc.le (Int.natCast_nonneg n)
    have reach : lo + c * (n + 1 : ℕ) = (lo + c) + c * n := by
      push_cast
      ring
    rw [reach] at h ⊢
    rw [tiles_cons hc (show lo < lo + c + c * n by omega), tiles_cons hc (show lo < hi by omega),
      List.cons_append, ih h, min_eq_left (by omega), min_eq_left (by omega)]

/-- Tiling groups of `n` tiles one after the other tiles the whole. -/
theorem tiles_grouped (hc : 0 < c) {n : ℕ} (hn : 0 < n) (lo hi : ℤ) :
    (trips lo hi (c * n)).flatMap (fun v => tiles c v (min (v + c * n) hi)) = tiles c lo hi := by
  have hg : 0 < c * n := mul_pos hc (by exact_mod_cast hn)
  induction lo using trips_induction hi hg with
  | done lo h => rw [trips_nil hg h, tiles_nil hc h, List.flatMap_nil]
  | next lo h ih =>
    rw [trips_cons hg h, List.flatMap_cons, ih]
    cases le_total (lo + c * n) hi with
    | inl hle => rw [min_eq_left hle, tiles_append hc n hle]
    | inr hle => rw [min_eq_right hle, tiles_nil hc hle, List.append_nil]

end Tiles
