import Mathlib.Data.Int.Notation
import Mathlib.Data.List.Nodup
import Mathlib.Logic.Function.Basic
import Mathlib.Tactic.Common

/-! Flat memory as a function of the address. Code acts on it through edits of
single words, and an edit outside the object it is made on is undefined. -/
namespace FlatMemory

variable {ι α β σ : Type*}

/-- A loop whose passes are each guarded is defined when every guard holds. -/
theorem foldlM_guard (c : β → Prop) [DecidablePred c] (f : σ → β → σ) (l : List β) (s : σ) :
    l.foldlM (fun s q => if c q then some (f s q) else none) s =
      if ∀ q ∈ l, c q then some (l.foldl f s) else none := by
  induction l generalizing s with
  | nil => simp
  | cons q qs ih =>
    rw [List.foldlM_cons]
    by_cases hq : c q
    · simp [hq, ih]
    · simp [hq]

theorem mapM_guard {γ : Type*} (c : β → Prop) [DecidablePred c] (f : β → γ) (l : List β) :
    l.mapM (fun q => if c q then some (f q) else none) =
      if ∀ q ∈ l, c q then some (l.map f) else none := by
  induction l with
  | nil => simp
  | cons q qs ih =>
    rw [List.mapM_cons, ih]
    by_cases hq : c q
    · by_cases hqs : ∀ p ∈ qs, c p
      · rw [if_pos hqs, if_pos (List.forall_mem_cons.mpr ⟨hq, hqs⟩)]
        simp [hq]
      · rw [if_neg hqs, if_neg fun h => hqs (List.forall_mem_cons.mp h).2]
        simp [hq]
    · simp [hq]

variable [DecidableEq ι]

/-- A read-modify-write of the word at `addr`. -/
structure Edit (ι α : Type*) where
  addr : ι
  change : α → α

def Edit.run (m : ι → α) (e : Edit ι α) : ι → α :=
  Function.update m e.addr (e.change (m e.addr))

def runAll (m : ι → α) (l : List (Edit ι α)) : ι → α := l.foldl Edit.run m

section Checked
variable (ok : ι → Prop) [DecidablePred ok]

def load (m : ι → α) (i : ι) : Option α := if ok i then some (m i) else none

def Edit.runIn (m : ι → α) (e : Edit ι α) : Option (ι → α) :=
  if ok e.addr then some (e.run m) else none

def runAllIn (m : ι → α) (l : List (Edit ι α)) : Option (ι → α) := l.foldlM (Edit.runIn ok) m

theorem runAllIn_eq (m : ι → α) (l : List (Edit ι α)) :
    runAllIn ok m l = if ∀ e ∈ l, ok e.addr then some (runAll m l) else none :=
  foldlM_guard (fun e : Edit ι α => ok e.addr) Edit.run l m

/-- Word `i` is used when the run is undefined as soon as `i` alone is out of reach. -/
def Uses (run : (ok : ι → Prop) → [DecidablePred ok] → Option σ) (i : ι) : Prop :=
  run (fun k => k ≠ i) = none

/-- A run that is defined when all words of `named` can be accessed uses just these. -/
theorem uses_iff {run : (ok : ι → Prop) → [DecidablePred ok] → Option σ} {named : ι → Prop}
    (defined : ∀ (ok : ι → Prop) [DecidablePred ok], (run ok).isSome ↔ ∀ i, named i → ok i) (i : ι) :
    Uses run i ↔ named i := by
  rw [Uses, ← Option.not_isSome_iff_eq_none, defined]
  constructor
  · intro h
    by_contra hi
    exact h fun k hk eq => hi (eq ▸ hk)
  · intro hi h
    exact h i hi rfl

end Checked

@[simp] theorem run_self (m : ι → α) (e : Edit ι α) : e.run m e.addr = e.change (m e.addr) := by
  simp [Edit.run]

theorem run_of_ne (m : ι → α) {e : Edit ι α} {i : ι} (h : e.addr ≠ i) : e.run m i = m i := by
  simp [Edit.run, Function.update_of_ne h.symm]

/-- A word that no edit names keeps its content. -/
theorem runAll_of_forall_ne {l : List (Edit ι α)} {i : ι} (h : ∀ e ∈ l, e.addr ≠ i) (m : ι → α) :
    runAll m l i = m i := by
  induction l generalizing m with
  | nil => rfl
  | cons e es ih =>
    have he := run_of_ne m (h e List.mem_cons_self)
    have hes := ih (fun d hd => h d (List.mem_cons_of_mem e hd)) (e.run m)
    exact hes.trans he

theorem runAll_append (m : ι → α) (l k : List (Edit ι α)) :
    runAll m (l ++ k) = runAll (runAll m l) k := List.foldl_append

theorem foldl_runAll (prog : β → List (Edit ι α)) (l : List β) (m : ι → α) :
    l.foldl (fun m q => runAll m (prog q)) m = runAll m (l.flatMap prog) := by
  induction l generalizing m with
  | nil => rfl
  | cons q qs ih => rw [List.foldl_cons, ih, List.flatMap_cons, runAll_append]

/-- The content of a word depends only on its own old content and its edits. -/
theorem runAll_congr {l : List (Edit ι α)} {m m' : ι → α} {i : ι} (h : m i = m' i) :
    runAll m l i = runAll m' l i := by
  induction l generalizing m m' with
  | nil => exact h
  | cons e es ih =>
    apply ih
    by_cases he : e.addr = i
    · subst he; simp [h]
    · rw [run_of_ne m he, run_of_ne m' he, h]

/-- A sweep of checked edits, each member of which has a guard of its own, is
defined when all guards and all checks hold; it then makes all edits in order. -/
theorem foldlM_runAllIn (ok : ι → Prop) [DecidablePred ok] (c : β → Prop) [DecidablePred c]
    (prog : β → List (Edit ι α)) (l : List β) (m : ι → α) :
    l.foldlM (fun m q => if c q then runAllIn ok m (prog q) else none) m =
      if ∀ q ∈ l, c q ∧ ∀ e ∈ prog q, ok e.addr then some (runAll m (l.flatMap prog)) else none := by
  have body (m : ι → α) (q : β) : (if c q then runAllIn ok m (prog q) else none) =
      if c q ∧ ∀ e ∈ prog q, ok e.addr then some (runAll m (prog q)) else none := by
    rw [runAllIn_eq]
    by_cases hc : c q
    · simp [hc]
    · simp [hc]
  simp only [body]
  rw [foldlM_guard, foldl_runAll]

/-- Where one member of a sweep owns a word, the sweep does to the word what
that member does. -/
theorem runAll_flatMap_owner {prog : β → List (Edit ι α)} {l : List β} (hl : l.Nodup) {q : β}
    (hq : q ∈ l) {i : ι} (owner : ∀ p ∈ l, p ≠ q → ∀ e ∈ prog p, e.addr ≠ i) (m : ι → α) :
    runAll m (l.flatMap prog) i = runAll m (prog q) i := by
  obtain ⟨before, after, rfl⟩ := List.append_of_mem hq
  have hn := List.nodup_append.mp hl
  have hb : ∀ e ∈ before.flatMap prog, e.addr ≠ i := by
    intro e he
    obtain ⟨p, hp, hep⟩ := List.mem_flatMap.mp he
    have hne : p ≠ q := fun eq => hn.2.2 p hp q List.mem_cons_self eq
    exact owner p (List.mem_append_left _ hp) hne e hep
  have ha : ∀ e ∈ after.flatMap prog, e.addr ≠ i := by
    intro e he
    obtain ⟨p, hp, hep⟩ := List.mem_flatMap.mp he
    have hne : p ≠ q := by
      rintro rfl
      exact (List.nodup_cons.mp hn.2.1).1 hp
    exact owner p (List.mem_append_right _ (List.mem_cons_of_mem q hp)) hne e hep
  rw [List.flatMap_append, List.flatMap_cons, runAll_append, runAll_append,
    runAll_of_forall_ne ha]
  exact runAll_congr (runAll_of_forall_ne hb m)

/-- Edits at distinct addresses do not disturb each other. -/
theorem runAll_of_mem {l : List (Edit ι α)} (hl : (l.map Edit.addr).Nodup) {e : Edit ι α}
    (he : e ∈ l) (m : ι → α) : runAll m l e.addr = e.change (m e.addr) := by
  obtain ⟨before, after, rfl⟩ := List.append_of_mem he
  rw [List.map_append, List.map_cons] at hl
  have hn := List.nodup_append.mp hl
  have hb : ∀ d ∈ before, d.addr ≠ e.addr := fun d hd eq =>
    hn.2.2 d.addr (List.mem_map_of_mem hd) e.addr List.mem_cons_self eq
  have ha : ∀ d ∈ after, d.addr ≠ e.addr := fun d hd eq =>
    (List.nodup_cons.mp hn.2.1).1 (eq ▸ List.mem_map_of_mem hd)
  rw [runAll_append, show runAll (runAll m before) (e :: after) =
    runAll (e.run (runAll m before)) after from rfl, runAll_of_forall_ne ha, run_self,
    runAll_of_forall_ne hb]

/-- A sweep in place, the members of which read only what no member writes, makes
the edits that its members name at the start. -/
theorem foldlM_inPlace {step : (ι → α) → β → Option (ι → α)} (prog : (ι → α) → β → List (Edit ι α))
    (writes : ι → Prop) {l : List β} (run : ∀ q ∈ l, ∀ m, step m q = some (runAll m (prog m q)))
    (within : ∀ q ∈ l, ∀ m, ∀ e ∈ prog m q, writes e.addr)
    (stable : ∀ q ∈ l, ∀ m m', (∀ i, ¬ writes i → m i = m' i) → prog m q = prog m' q) (m : ι → α) :
    l.foldlM step m = some (runAll m (l.flatMap (prog m))) := by
  induction l generalizing m with
  | nil => rfl
  | cons q qs ih =>
    have agree (i : ι) (outside : ¬ writes i) : runAll m (prog m q) i = m i := by
      apply runAll_of_forall_ne
      rintro e he rfl
      exact outside (within q List.mem_cons_self m e he)
    have rest := ih (fun p hp => run p (List.mem_cons_of_mem q hp))
      (fun p hp => within p (List.mem_cons_of_mem q hp))
      (fun p hp => stable p (List.mem_cons_of_mem q hp)) (runAll m (prog m q))
    have same : qs.flatMap (prog (runAll m (prog m q))) = qs.flatMap (prog m) := by
      apply List.flatMap_congr
      intro p hp
      exact stable p (List.mem_cons_of_mem q hp) _ _ agree
    rw [List.foldlM_cons, run q List.mem_cons_self m, Option.bind_eq_bind, Option.bind_some, rest, same,
      List.flatMap_cons, runAll_append]

/-- Storing `g` word by word over `keys`. -/
theorem foldlM_store {f : ι → Option α} {g : ι → α} {keys : List ι}
    (h : ∀ k ∈ keys, f k = some (g k)) (m : ι → α) :
    keys.foldlM (fun m k => (f k).map (Function.update m k)) m =
      some fun i => if i ∈ keys then g i else m i := by
  induction keys generalizing m with
  | nil => simp
  | cons k ks ih =>
    rw [List.foldlM_cons, h k List.mem_cons_self]
    simp only [Option.map_some, Option.bind_eq_bind, Option.bind_some]
    rw [ih fun k' hk => h k' (List.mem_cons_of_mem k hk)]
    congr 1
    funext i
    by_cases hi : i ∈ ks
    · simp [hi]
    · by_cases hk : i = k
      · subst hk
        simp [hi]
      · simp [hi, hk]

/-- `memcpy` of `[0, len)` from `src` onto `dst`. -/
def copy (len : ℤ) (dst src : ℤ → α) : ℤ → α := fun i => if 0 ≤ i ∧ i < len then src i else dst i

theorem copy_inside {len i : ℤ} (dst src : ℤ → α) (h : 0 ≤ i ∧ i < len) :
    copy len dst src i = src i := if_pos h

theorem copy_outside {len i : ℤ} (dst src : ℤ → α) (h : ¬ (0 ≤ i ∧ i < len)) :
    copy len dst src i = dst i := if_neg h

end FlatMemory
