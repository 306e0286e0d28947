import Mathlib.Data.List.GetD
import Mathlib.Data.List.ReduceOption
import Mathlib.Tactic.Common

/-! Sequences with gaps. Dropping the gaps shifts everything after them, so a
reader that goes by position finds each entry in its place only when nothing but
the default comes after a gap. -/
namespace Gaps

variable {α : Type*}

/-- Entry `k`; a gap reads as `zero`. -/
def entry (zero : α) (xs : List (Option α)) (k : ℕ) : α := (xs.getD k none).getD zero

/-- Entry `k` once the gaps have been dropped. -/
def packed (zero : α) (xs : List (Option α)) (k : ℕ) : α := xs.reduceOption.getD k zero

@[simp] theorem entry_succ (zero : α) (x : Option α) (xs : List (Option α)) (k : ℕ) :
    entry zero (x :: xs) (k + 1) = entry zero xs k := by simp [entry]

@[simp] theorem packed_none (zero : α) (xs : List (Option α)) (k : ℕ) :
    packed zero (none :: xs) k = packed zero xs k := by simp [packed]

@[simp] theorem packed_some_succ (zero a : α) (xs : List (Option α)) (k : ℕ) :
    packed zero (some a :: xs) (k + 1) = packed zero xs k := by simp [packed]

/-- An entry moves to the front by the gaps before it. -/
theorem packed_of_some (zero : α) {v : α} {xs : List (Option α)} {k : ℕ} (h : xs[k]? = some (some v)) :
    ∃ p ≤ k, packed zero xs p = v := by
  induction xs generalizing k with
  | nil => simp at h
  | cons x xs ih =>
    cases k with
    | zero =>
      obtain rfl : x = some v := by simpa using h
      exact ⟨0, Nat.le_refl 0, by simp [packed]⟩
    | succ k =>
      obtain ⟨p, hp, hv⟩ := ih (by simpa using h)
      cases x with
      | none => exact ⟨p, by omega, by simpa using hv⟩
      | some a => exact ⟨p + 1, by omega, by simpa using hv⟩

/-- After a gap that reads right, every entry is the default. -/
theorem entry_after_gap {zero : α} {xs : List (Option α)}
    (h : ∀ k, packed zero (none :: xs) k = entry zero (none :: xs) k) (k : ℕ) :
    entry zero xs k = zero := by
  induction k using Nat.strongRecOn with
  | _ k ih =>
    rcases hk : xs[k]? with _ | _ | v
    · simp [entry, hk]
    · simp [entry, hk]
    · obtain ⟨p, hp, hv⟩ := packed_of_some zero hk
      have reads : entry zero xs k = packed zero (none :: xs) p := by simp [entry, hk, hv]
      rw [reads, h p]
      cases p with
      | zero => simp [entry]
      | succ q =>
        rw [entry_succ]
        exact ih q (by omega)

theorem packed_default {zero : α} {xs : List (Option α)} (h : ∀ b ∈ xs, b.getD zero = zero) (k : ℕ) :
    packed zero xs k = zero := by
  rw [packed, List.getD_eq_getElem?_getD]
  cases hk : xs.reduceOption[k]? with
  | none => rfl
  | some a => exact h (some a) (List.reduceOption_mem_iff.mp (List.mem_of_getElem? hk))

theorem entry_default {zero : α} {xs : List (Option α)} (h : ∀ b ∈ xs, b.getD zero = zero) (k : ℕ) :
    entry zero xs k = zero := by
  rw [entry, List.getD_eq_getElem?_getD]
  cases hk : xs[k]? with
  | none => rfl
  | some b => exact h b (List.mem_of_getElem? hk)

theorem packed_beyond (zero : α) {xs : List (Option α)} {k : ℕ} (h : xs.length ≤ k) :
    packed zero xs k = zero := by
  have short := xs.reduceOption_length_le
  rw [packed, List.getD_eq_default _ _ (by omega)]

theorem entry_beyond (zero : α) {xs : List (Option α)} {k : ℕ} (h : xs.length ≤ k) :
    entry zero xs k = zero := by
  rw [entry, List.getD_eq_default _ _ h, Option.getD_none]

/-- Reading by position is right exactly when only the default follows a gap. -/
theorem packed_eq_entry_iff {zero : α} {xs : List (Option α)} :
    (∀ k, packed zero xs k = entry zero xs k) ↔
      xs.Pairwise fun a b => a = none → b.getD zero = zero := by
  induction xs with
  | nil => simp [packed, entry]
  | cons x xs ih =>
    cases x with
    | some a =>
      have shift : (∀ k, packed zero (some a :: xs) k = entry zero (some a :: xs) k) ↔
          ∀ k, packed zero xs k = entry zero xs k := by
        constructor
        · intro h k
          simpa using h (k + 1)
        · intro h k
          cases k with
          | zero => simp [packed, entry]
          | succ k => simpa using h k
      rw [shift, ih]
      simp
    | none =>
      rw [List.pairwise_cons]
      constructor
      · intro h
        have zeros (b : Option α) (hb : b ∈ xs) : b.getD zero = zero := by
          obtain ⟨k, hk, rfl⟩ := List.getElem_of_mem hb
          simpa [entry, hk] using entry_after_gap h k
        exact ⟨fun b hb _ => zeros b hb, List.pairwise_of_forall_mem_list fun _ _ b hb _ => zeros b hb⟩
      · rintro ⟨afterGap, _⟩ k
        have zeros : ∀ b ∈ none :: xs, b.getD zero = zero := by
          intro b hb
          cases hb with
          | head =>
            rfl
          | tail _ hb =>
            exact afterGap b hb rfl
        rw [packed_default zeros, entry_default zeros]

end Gaps
