import Mathlib.Algebra.Order.Ring.Nat
import Mathlib.Data.List.Lex

/-! Numbers written with a fixed count of digits, the most significant one first.
The lexicographic order of such texts is the order of the numbers. -/
namespace Digits

variable {base width n m : ℕ}

/-- The last `width` digits of `n`. -/
def fixed (base : ℕ) : ℕ → ℕ → List ℕ
  | 0, _ => []
  | width + 1, n => fixed base width (n / base) ++ [n % base]

theorem length_fixed (base width n : ℕ) : (fixed base width n).length = width := by
  induction width generalizing n with
  | zero => rfl
  | succ width ih => rw [fixed, List.length_append, ih, List.length_singleton]

theorem fixed_zero (base width : ℕ) : fixed base width 0 = List.replicate width 0 := by
  induction width with
  | zero => rfl
  | succ width ih => rw [fixed, Nat.zero_div, Nat.zero_mod, ih, List.replicate_succ']

/-- Of two texts of one length that end in one more digit. -/
theorem append_singleton_lt_iff {l k : List ℕ} (same : l.length = k.length) (a b : ℕ) :
    l ++ [a] < k ++ [b] ↔ l < k ∨ l = k ∧ a < b := by
  induction l generalizing k with
  | nil =>
    obtain rfl := List.length_eq_zero_iff.mp same.symm
    simp [List.cons_lt_cons_iff]
  | cons x l ih =>
    obtain ⟨y, k, rfl⟩ := List.exists_cons_of_length_eq_add_one same.symm
    have rest := ih (Nat.succ.inj same)
    simp only [List.cons_append, List.cons_lt_cons_iff, rest, List.cons.injEq]
    tauto

theorem lt_iff_div_mod (base n m : ℕ) :
    n < m ↔ n / base < m / base ∨ n / base = m / base ∧ n % base < m % base := by
  have hn := Nat.div_add_mod n base
  have hm := Nat.div_add_mod m base
  constructor
  · intro less
    rcases (Nat.div_le_div_right less.le : n / base ≤ m / base).lt_or_eq with front | front
    · exact Or.inl front
    · rw [front] at hn
      exact Or.inr ⟨front, by omega⟩
  · rintro (front | ⟨front, last⟩)
    · exact lt_of_not_ge fun le => absurd front (not_lt.mpr (Nat.div_le_div_right le))
    · rw [front] at hn
      omega

/-- What keeps the order both ways keeps two points apart. -/
theorem eq_of_lt_iff {α β : Type*} [LinearOrder α] [Preorder β] {f : α → β} {x y : α}
    (less : f x < f y ↔ x < y) (more : f y < f x ↔ y < x) (same : f x = f y) : x = y := by
  rw [same] at less more
  have equal := lt_irrefl (f y)
  exact le_antisymm (not_lt.mp (mt more.mpr equal)) (not_lt.mp (mt less.mpr equal))

/-- Whatever characters stand for the digits, if only they are in order. -/
theorem fixed_lt_iff (pos : 0 < base) {char : ℕ → ℕ}
    (mono : ∀ x < base, ∀ y < base, char x < char y ↔ x < y) (hn : n < base ^ width)
    (hm : m < base ^ width) :
    (fixed base width n).map char < (fixed base width m).map char ↔ n < m := by
  induction width generalizing n m with
  | zero =>
    rw [pow_zero, Nat.lt_one_iff] at hn hm
    simp [fixed, hn, hm]
  | succ width ih =>
    rw [pow_succ, mul_comm] at hn hm
    have qn : n / base < base ^ width := Nat.div_lt_of_lt_mul hn
    have qm : m / base < base ^ width := Nat.div_lt_of_lt_mul hm
    have front : (fixed base width (n / base)).map char = (fixed base width (m / base)).map char ↔
        n / base = m / base := by
      constructor
      · exact eq_of_lt_iff (f := fun n => (fixed base width n).map char) (ih qn qm) (ih qm qn)
      · intro same
        rw [same]
    rw [fixed, fixed, List.map_append, List.map_append, List.map_singleton, List.map_singleton,
      append_singleton_lt_iff (by simp [length_fixed]), ih qn qm, front,
      mono _ (Nat.mod_lt n pos) _ (Nat.mod_lt m pos), ← lt_iff_div_mod]

theorem leftpad_append_singleton {α : Type*} (a c : α) (l : List α) :
    (l ++ [c]).leftpad (width + 1) a = l.leftpad width a ++ [c] := by
  simp [List.leftpad]

/-- The decimal text of a number that has room, padded with zeros. -/
theorem leftpad_toDigits (large : 1 < base) (some_digit : 0 < width) (room : n < base ^ width) :
    (Nat.toDigits base n).leftpad width '0' = (fixed base width n).map Nat.digitChar := by
  induction width, some_digit using Nat.le_induction generalizing n with
  | base =>
    rw [Nat.succ_eq_add_one, zero_add, pow_one] at room
    simp [Nat.toDigits_of_lt_base room, fixed, List.leftpad, Nat.mod_eq_of_lt room]
  | succ width _ ih =>
    rw [fixed, List.map_append, List.map_singleton]
    by_cases small : n < base
    · rw [Nat.toDigits_of_lt_base small, Nat.div_eq_of_lt small, Nat.mod_eq_of_lt small, fixed_zero]
      simp [List.leftpad, Nat.digitChar]
    · rw [pow_succ, mul_comm] at room
      rw [Nat.toDigits_of_base_le large (not_lt.mp small), leftpad_append_singleton,
        ih (Nat.div_lt_of_lt_mul room)]

end Digits
