import MorelloWorkloads.Lib.FlatMemory
import Mathlib.Tactic.Ring

/-! Strings in a memory of characters, each ended by a `nul`, and buffers that are filled
with them piece by piece until they are full. -/
namespace CString
open FlatMemory

variable {α : Type}

section Strings
variable (ok : ℤ → Prop) [DecidablePred ok]

/-- The characters go to `a` and the addresses after it. -/
def store : (ℤ → α) → ℤ → List α → Option (ℤ → α)
  | m, _, [] => some m
  | m, a, c :: cs => do
    let m ← (⟨a, fun _ => c⟩ : Edit ℤ α).runIn ok m
    store m (a + 1) cs

variable (nul : α)

/-- Up to `n - 1` of the characters and a NUL; nothing at all without a room of one. -/
def snprintf (m : ℤ → α) (a n : ℤ) (text : List α) : Option (ℤ → α) :=
  if n ≤ 0 then some m else store ok m a (text.take (n - 1).toNat ++ [nul])

variable [DecidableEq α]

/-- The characters up to a NUL; no result without one in the next `fuel` characters. -/
def read (m : ℤ → α) : ℕ → ℤ → Option (List α)
  | 0, _ => none
  | fuel + 1, a => do
    let c ← load ok m a
    if c = nul then some []
    else
      let cs ← read m fuel (a + 1)
      return c :: cs

def strlen (m : ℤ → α) (fuel : ℕ) (a : ℤ) : Option ℤ := do
  let cs ← read ok nul m fuel a
  return cs.length

end Strings

/-- These characters lie from `a` on. -/
def At (m : ℤ → α) (a : ℤ) (cs : List α) : Prop := ∀ (k : ℕ) (h : k < cs.length), m (a + k) = cs[k]

theorem at_nil (m : ℤ → α) (a : ℤ) : At m a [] := fun _ h => absurd h (Nat.not_lt_zero _)

theorem at_append {m : ℤ → α} {a : ℤ} {cs ds : List α} :
    At m a (cs ++ ds) ↔ At m a cs ∧ At m (a + cs.length) ds := by
  constructor
  · intro whole
    constructor
    · intro k h
      rw [whole k (by rw [List.length_append]; omega), List.getElem_append_left h]
    · intro k h
      have later := whole (cs.length + k) (by rw [List.length_append]; omega)
      rw [List.getElem_append_right (by omega)] at later
      simp only [Nat.add_sub_cancel_left] at later
      rw [← later]
      push_cast
      ring_nf
  · rintro ⟨first, second⟩ k h
    rw [List.length_append] at h
    by_cases before : k < cs.length
    · rw [List.getElem_append_left before, first k before]
    · rw [List.getElem_append_right (by omega), ← second (k - cs.length) (by omega)]
      congr 1
      omega

theorem At.congr {m m' : ℤ → α} {a : ℤ} {cs : List α} (lies : At m a cs)
    (same : ∀ b, a ≤ b → b < a + cs.length → m' b = m b) : At m' a cs := by
  intro k h
  rw [same (a + k) (by omega) (by omega), lies k h]

section Run
variable {ok : ℤ → Prop} [DecidablePred ok]

variable (ok) in
theorem store_run (cs : List α) (m : ℤ → α) (a : ℤ) (inside : ∀ b, a ≤ b → b < a + cs.length → ok b) :
    ∃ m', store ok m a cs = some m' ∧ At m' a cs ∧ ∀ b, b < a ∨ a + cs.length ≤ b → m' b = m b := by
  induction cs generalizing m a with
  | nil => exact ⟨m, rfl, at_nil m a, fun _ _ => rfl⟩
  | cons c cs ih =>
    rw [List.length_cons] at inside
    obtain ⟨m', rest, lies, other⟩ := ih (Function.update m a c) (a + 1)
      fun b low high => inside b (by omega) (by push_cast; omega)
    have here : ok a := inside a le_rfl (by push_cast; omega)
    refine ⟨m', ?_, ?_, ?_⟩
    · rw [store, Edit.runIn, if_pos here]
      exact rest
    · rw [← List.singleton_append, at_append]
      refine ⟨?_, lies⟩
      intro k h
      obtain rfl : k = 0 := by simpa using h
      rw [other _ (Or.inl (by omega))]
      simp
    · intro b outside
      rw [List.length_cons] at outside
      push_cast at outside
      rw [other b (by omega), Function.update_of_ne (by omega)]

variable [DecidableEq α] {nul : α}

theorem read_run {cs : List α} (plain : nul ∉ cs) {m : ℤ → α} {a : ℤ} {fuel : ℕ}
    (inside : ∀ b, a ≤ b → b ≤ a + cs.length → ok b) (lies : At m a (cs ++ [nul]))
    (enough : cs.length < fuel) : read ok nul m fuel a = some cs := by
  induction cs generalizing a fuel with
  | nil =>
    obtain ⟨fuel, rfl⟩ := Nat.exists_eq_add_of_lt enough
    have nul : m a = nul := by simpa using lies 0 (by simp)
    have here : ok a := inside a le_rfl (by simp)
    simp [read, load, here, nul]
  | cons c cs ih =>
    rw [List.length_cons] at inside enough
    cases fuel with
    | zero => omega
    | succ fuel =>
      rw [List.mem_cons, not_or] at plain
      rw [List.cons_append, ← List.singleton_append, at_append] at lies
      have first : m a = c := by simpa using lies.1 0 (by simp)
      have here : ok a := inside a le_rfl (by push_cast; omega)
      have rest : read ok nul m fuel (a + 1) = some cs := ih plain.2
        (fun b low high => inside b (by omega) (by push_cast; omega)) (by simpa using lies.2) (by omega)
      have more : c ≠ nul := Ne.symm plain.1
      simp [read, load, here, first, more, rest]

theorem strlen_run {cs : List α} (plain : nul ∉ cs) {m : ℤ → α} {a : ℤ} {fuel : ℕ}
    (inside : ∀ b, a ≤ b → b ≤ a + cs.length → ok b) (lies : At m a (cs ++ [nul]))
    (enough : cs.length < fuel) : strlen ok nul m fuel a = some (cs.length : ℤ) := by
  rw [strlen, read_run plain inside lies enough]
  rfl

end Run

/-! ## Joining -/

theorem intercalate_append {sep : List α} {ws us : List (List α)} (some_words : ws ≠ []) (more : us ≠ []) :
    sep.intercalate (ws ++ us) = sep.intercalate ws ++ sep ++ sep.intercalate us := by
  induction ws with
  | nil => exact absurd rfl some_words
  | cons w ws ih =>
    rw [List.cons_append, List.intercalate_cons_of_ne_nil (by simp [more])]
    cases ws with
    | nil => simp
    | cons v ws =>
      have first : sep.intercalate (w :: v :: ws) = w ++ sep ++ sep.intercalate (v :: ws) :=
        List.intercalate_cons_of_ne_nil (List.cons_ne_nil v ws)
      rw [ih (List.cons_ne_nil v ws), first]
      simp only [List.append_assoc]

/-! ## Filling a buffer -/

/-- The buffer of `size` from `z` on has got the first `i` characters of a text, all or
as many as it has room for. The cell behind them can have got a NUL. -/
structure Filled (z size : ℤ) (before after : ℤ → α) (text : List α) (i : ℤ) : Prop where
  count : i = min (text.length : ℤ) (size - 1)
  text : At after z (text.take i.toNat)
  other : ∀ b, b < z ∨ z + i < b → after b = before b

theorem Filled.start {z size : ℤ} (room : 1 ≤ size) (m : ℤ → α) : Filled z size m m [] 0 where
  count := by simp only [List.length_nil, Nat.cast_zero]; omega
  text := at_nil m z
  other _ _ := rfl

/-- What goes behind the text fills the rest of the buffer. -/
theorem Filled.append {z size : ℤ} {m m' m'' : ℤ → α} {text more : List α} {i j : ℤ} (room : 1 ≤ size)
    (first : Filled z size m m' text i) (second : Filled (z + i) (size - i) m' m'' more j) :
    Filled z size m m'' (text ++ more) (i + j) := by
  have count := first.count
  have count' := second.count
  have pieces : (text ++ more).take (i + j).toNat = text.take i.toNat ++ more.take j.toNat := by
    by_cases whole : (text.length : ℤ) ≤ size - 1
    · have all : i.toNat = text.length := by omega
      have sum : (i + j).toNat = text.length + j.toNat := by omega
      rw [sum, all, List.take_length, List.take_length_add_append]
    · have none_left : j = 0 := by omega
      rw [none_left, add_zero, Int.toNat_zero, List.take_zero, List.append_nil,
        List.take_append_of_le_length (by omega)]
  have length : (text.take i.toNat).length = i.toNat := by
    rw [List.length_take]
    omega
  refine ⟨by rw [List.length_append]; push_cast; omega, ?_, ?_⟩
  · rw [pieces, at_append, length]
    refine ⟨first.text.congr fun b low high => second.other b (Or.inl ?_), ?_⟩
    · rw [length] at high
      omega
    · rw [show z + (i.toNat : ℤ) = z + i by omega]
      exact second.text
  · intro b outside
    rw [second.other b (by omega), first.other b (by omega)]

/-- A text that is empty, or meets a buffer that has no room left, leaves it alone. -/
theorem Filled.nothing {z size : ℤ} {text : List α} (room : 1 ≤ size) (none_fits : text = [] ∨ size = 1)
    (m : ℤ → α) : Filled z size m m text 0 where
  count := by
    cases none_fits with
    | inl empty =>
      rw [empty, List.length_nil]
      omega
    | inr full => omega
  text := at_nil m z
  other _ _ := rfl

section Steps
variable {ok : ℤ → Prop} [DecidablePred ok] (z size : ℤ)

theorem store_filled (c : α) (room : 2 ≤ size) (inside : ∀ b, z ≤ b → b < z + size → ok b) (m : ℤ → α) :
    ∃ m', store ok m z [c] = some m' ∧ Filled z size m m' [c] 1 := by
  obtain ⟨m', run, lies, other⟩ := store_run ok [c] m z
    fun b low high => inside b low (by simp at high; omega)
  refine ⟨m', run, ?_, lies, ?_⟩
  · simp only [List.length_singleton]
    omega
  · intro b outside
    rw [other b (by simp; omega)]

/-- `snprintf` fills the buffer and `strlen` finds out how far. -/
theorem snprintf_filled [DecidableEq α] {nul : α} {text : List α} (plain : nul ∉ text) (room : 1 ≤ size)
    (inside : ∀ b, z ≤ b → b < z + size → ok b) (m : ℤ → α) :
    ∃ m' i, snprintf ok nul m z size text = some m' ∧ strlen ok nul m' size.toNat z = some i ∧
      Filled z size m m' text i ∧ m' (z + i) = nul := by
  obtain ⟨part, hpart⟩ : ∃ part, part = text.take (size - 1).toNat := ⟨_, rfl⟩
  have length : part.length = min (size - 1).toNat text.length := by rw [hpart, List.length_take]
  obtain ⟨m', run, lies, other⟩ := store_run ok (part ++ [nul]) m z
    fun b low high => inside b low (by
      rw [List.length_append, List.length_singleton] at high
      push_cast at high
      omega)
  have measured := strlen_run (fun member => plain (List.mem_of_mem_take (hpart ▸ member)))
    (fun b low high => inside b low (by omega)) lies (show part.length < size.toNat by omega)
  refine ⟨m', part.length, ?_, measured, ⟨by omega, ?_, ?_⟩, ?_⟩
  · rw [snprintf, if_neg (by omega), ← hpart]
    exact run
  · rw [Int.toNat_natCast]
    have same : text.take part.length = part := by
      rw [hpart, List.length_take, ← List.take_eq_take_min]
    rw [same]
    exact (at_append.mp lies).1
  · intro b outside
    apply other
    rw [List.length_append, List.length_singleton]
    push_cast
    omega
  · simpa using (at_append.mp lies).2 0 (by simp)

end Steps

end CString
