import Mathlib.Data.Set.Lattice
import Mathlib.Logic.Function.Basic
import Mathlib.Order.CompletePartialOrder
import Mathlib.Tactic.Common

/-! Threads that load and store single words of one memory, in any order of their
steps. Programs that do not race leave what each of them leaves alone. -/
namespace SharedMemory

universe u v

/-- What a thread still has to do; it goes on as the words that it loads tell it. -/
inductive Code (ι : Type u) (α : Type v) : Type (max u v) where
  | done
  | load (addr : ι) (next : α → Code ι α)
  | store (addr : ι) (value : α) (next : Code ι α)

variable {ι : Type u} {α : Type v} {τ β : Type*}

namespace Code

/-- First `c`, then `k`. -/
def andThen : Code ι α → Code ι α → Code ι α
  | .done, k => k
  | .load a next, k => .load a fun w => (next w).andThen k
  | .store a w next, k => .store a w (next.andThen k)

/-- Whatever it loads: it loads from `reads` or `writes`, and stores to `writes`. -/
def Within (reads writes : Set ι) : Code ι α → Prop
  | .done => True
  | .load a next => a ∈ reads ∪ writes ∧ ∀ w, (next w).Within reads writes
  | .store a _ next => a ∈ writes ∧ next.Within reads writes

/-- The word that the next step of the program uses. -/
def access? : Code ι α → Option ι
  | .done => none
  | .load a _ => some a
  | .store a _ _ => some a

theorem Within.access {reads writes : Set ι} {c : Code ι α} (within : c.Within reads writes) {i : ι}
    (next : c.access? = some i) : i ∈ reads ∪ writes := by
  cases c with
  | done => cases next
  | load a k =>
    obtain rfl := Option.some.inj next
    exact within.1
  | store a w k =>
    obtain rfl := Option.some.inj next
    exact Or.inr within.1

variable [DecidableEq ι]

/-- The memory that the program leaves when nothing else runs. -/
def alone : Code ι α → (ι → α) → ι → α
  | .done, m => m
  | .load a next, m => (next (m a)).alone m
  | .store a w next, m => next.alone (Function.update m a w)

theorem alone_andThen (c k : Code ι α) (m : ι → α) : (c.andThen k).alone m = k.alone (c.alone m) := by
  induction c generalizing m with
  | done => rfl
  | load a next ih => exact ih (m a) m
  | store a w next ih => exact ih _

omit [DecidableEq ι] in
theorem Within.mono {reads writes reads' writes' : Set ι} {c : Code ι α} (within : c.Within reads writes)
    (r : reads ⊆ reads') (w : writes ⊆ writes') : c.Within reads' writes' := by
  induction c with
  | done => trivial
  | load a next ih => exact ⟨Set.union_subset_union r w within.1, fun word => ih word (within.2 word)⟩
  | store a word next ih => exact ⟨w within.1, ih within.2⟩

omit [DecidableEq ι] in
theorem Within.andThen {reads writes : Set ι} {c k : Code ι α} (first : c.Within reads writes)
    (second : k.Within reads writes) : (c.andThen k).Within reads writes := by
  induction c with
  | done => exact second
  | load a next ih => exact ⟨first.1, fun w => ih w (first.2 w)⟩
  | store a w next ih => exact ⟨first.1, ih first.2⟩

theorem alone_outside {reads writes : Set ι} {c : Code ι α} (within : c.Within reads writes) (m : ι → α)
    {i : ι} (outside : i ∉ writes) : c.alone m i = m i := by
  induction c generalizing m with
  | done => rfl
  | load a next ih => exact ih (m a) (within.2 (m a)) m
  | store a w next ih =>
    have other : i ≠ a := fun same => outside (same ▸ within.1)
    rw [alone, ih within.2, Function.update_of_ne other]

/-- What a program leaves in its words depends on no others. -/
theorem alone_congr {reads writes : Set ι} {c : Code ι α} (within : c.Within reads writes) {m m' : ι → α}
    (agree : ∀ i ∈ reads ∪ writes, m i = m' i) {i : ι} (mem : i ∈ reads ∪ writes) :
    c.alone m i = c.alone m' i := by
  induction c generalizing m m' with
  | done => exact agree i mem
  | load a next ih =>
    rw [alone, alone, agree a within.1]
    exact ih (m' a) (within.2 (m' a)) agree
  | store a w next ih =>
    apply ih within.2
    intro k hk
    by_cases same : k = a
    · subst same
      simp
    · rw [Function.update_of_ne same, Function.update_of_ne same, agree k hk]

end Code

/-! ## Runs -/

structure Threads (τ : Type*) (ι : Type u) (α : Type v) where
  memory : ι → α
  code : τ → Code ι α

namespace Threads
variable [DecidableEq ι] [DecidableEq τ]

/-- Thread `t` makes its next step, if it has one. -/
def step (s : Threads τ ι α) (t : τ) : Threads τ ι α :=
  match s.code t with
  | .done => s
  | .load a next => { s with code := Function.update s.code t (next (s.memory a)) }
  | .store a w next => ⟨Function.update s.memory a w, Function.update s.code t next⟩

def run (s : Threads τ ι α) (schedule : List τ) : Threads τ ι α := schedule.foldl step s

def Finished (s : Threads τ ι α) : Prop := ∀ t, s.code t = .done

/-- No thread stores to a word that another one uses. -/
structure RaceFree (reads writes : τ → Set ι) (s : Threads τ ι α) : Prop where
  within : ∀ t, (s.code t).Within (reads t) (writes t)
  apart : Pairwise fun t u => Disjoint (writes t) (reads u ∪ writes u)

variable {reads writes : τ → Set ι} {s : Threads τ ι α}

theorem step_within (free : RaceFree reads writes s) (t : τ) : RaceFree reads writes (s.step t) := by
  refine ⟨fun u => ?_, free.apart⟩
  have own := free.within t
  unfold step
  split
  · exact free.within u
  · rename_i a next code
    rw [code] at own
    by_cases same : u = t
    · subst same
      simpa using own.2 (s.memory a)
    · simpa [Function.update_of_ne same] using free.within u
  · rename_i a w next code
    rw [code] at own
    by_cases same : u = t
    · subst same
      simpa using own.2
    · simpa [Function.update_of_ne same] using free.within u

/-- A step of one thread does not change what another will leave. -/
theorem step_alone (free : RaceFree reads writes s) (t : τ) {u : τ} {i : ι} (mem : i ∈ writes u) :
    ((s.step t).code u).alone (s.step t).memory i = (s.code u).alone s.memory i := by
  have own := free.within t
  unfold step
  split
  · rfl
  · rename_i a next code
    by_cases same : u = t
    · subst same
      simp [code, Code.alone]
    · simp [Function.update_of_ne same]
  · rename_i a w next code
    rw [code] at own
    by_cases same : u = t
    · subst same
      simp [code, Code.alone]
    · simp only [Function.update_of_ne same]
      apply Code.alone_congr (free.within u) _ (Or.inr mem)
      intro k hk
      have other : k ≠ a := by
        rintro rfl
        exact Set.disjoint_left.mp (free.apart (Ne.symm same)) own.1 hk
      exact Function.update_of_ne other _ _

theorem step_unwritten (free : RaceFree reads writes s) (t : τ) {i : ι} (unwritten : ∀ u, i ∉ writes u) :
    (s.step t).memory i = s.memory i := by
  have own := free.within t
  unfold step
  split
  · rfl
  · rfl
  · rename_i a w next code
    rw [code] at own
    have other : i ≠ a := by
      rintro rfl
      exact unwritten t own.1
    exact Function.update_of_ne other _ _

/-- After any run, a thread will leave in its words what it would have left alone,
and words that no thread writes are as they were. -/
theorem run_raceFree (free : RaceFree reads writes s) (schedule : List τ) :
    RaceFree reads writes (s.run schedule) ∧
    (∀ u, ∀ i ∈ writes u, ((s.run schedule).code u).alone (s.run schedule).memory i =
      (s.code u).alone s.memory i) ∧
    ∀ i, (∀ u, i ∉ writes u) → (s.run schedule).memory i = s.memory i := by
  induction schedule generalizing s with
  | nil => exact ⟨free, fun _ _ _ => rfl, fun _ _ => rfl⟩
  | cons t ts ih =>
    obtain ⟨stays, left, unwritten⟩ := ih (step_within free t)
    refine ⟨stays, ?_, ?_⟩
    · intro u i mem
      exact (left u i mem).trans (step_alone free t mem)
    · intro i outside
      exact (unwritten i outside).trans (step_unwritten free t outside)

/-- A run of one thread alone gets it done and leaves the others where they were. -/
theorem exists_run_done (s : Threads τ ι α) (t : τ) :
    ∃ n, ((s.run (List.replicate n t)).code t = .done) ∧
      ∀ u, u ≠ t → (s.run (List.replicate n t)).code u = s.code u := by
  generalize start : s.code t = c
  induction c generalizing s with
  | done => exact ⟨0, start, fun _ _ => rfl⟩
  | load a next ih =>
    have first : (s.step t) = { s with code := Function.update s.code t (next (s.memory a)) } := by
      simp only [step, start]
    obtain ⟨n, done, others⟩ := ih (s.memory a) (s.step t) (by simp [first])
    refine ⟨n + 1, done, fun u other => (others u other).trans ?_⟩
    rw [first]
    exact Function.update_of_ne other _ _
  | store a w next ih =>
    have first : (s.step t) = ⟨Function.update s.memory a w, Function.update s.code t next⟩ := by
      simp only [step, start]
    obtain ⟨n, done, others⟩ := ih (s.step t) (by simp [first])
    refine ⟨n + 1, done, fun u other => (others u other).trans ?_⟩
    rw [first]
    exact Function.update_of_ne other _ _

/-- Finitely many threads can always be brought to their end. -/
theorem exists_finished (s : Threads τ ι α) (ts : List τ) (all : ∀ t, t ∉ ts → s.code t = .done) :
    ∃ schedule, (s.run schedule).Finished := by
  induction ts generalizing s with
  | nil => exact ⟨[], fun t => all t (by simp)⟩
  | cons t ts ih =>
    obtain ⟨n, done, others⟩ := exists_run_done s t
    obtain ⟨rest, finished⟩ := ih (s.run (List.replicate n t)) (by
      intro u hu
      by_cases same : u = t
      · exact same ▸ done
      · rw [others u same]
        exact all u (by simp [same, hu]))
    refine ⟨List.replicate n t ++ rest, ?_⟩
    rwa [run, List.foldl_append]

end Threads

/-! ## Loops whose passes are shared out -/

section ParallelFor
variable [DecidableEq ι] [DecidableEq τ] {body : β → Code ι α} {reads writes : β → Set ι}

/-- The passes `l` of a loop write what no other of them uses. -/
structure Independent (body : β → Code ι α) (reads writes : β → Set ι) (l : List β) : Prop where
  within : ∀ q ∈ l, (body q).Within (reads q) (writes q)
  apart : ∀ p ∈ l, ∀ q ∈ l, p ≠ q → Disjoint (writes p) (reads q ∪ writes q)

omit [DecidableEq ι] [DecidableEq τ] in
theorem Independent.mono {l k : List β} (independent : Independent body reads writes l)
    (sub : ∀ q ∈ k, q ∈ l) : Independent body reads writes k where
  within q hq := independent.within q (sub q hq)
  apart p hp q hq := independent.apart p (sub p hp) q (sub q hq)

/-- The loop as one program. -/
def inOrder (body : β → Code ι α) (l : List β) : Code ι α :=
  l.foldr (fun q k => (body q).andThen k) .done

omit [DecidableEq τ] in
theorem alone_inOrder (body : β → Code ι α) (l : List β) (m : ι → α) :
    (inOrder body l).alone m = l.foldl (fun m q => (body q).alone m) m := by
  induction l generalizing m with
  | nil => rfl
  | cons q qs ih =>
    rw [inOrder, List.foldr_cons, Code.alone_andThen, ← inOrder, ih]
    rfl

omit [DecidableEq ι] [DecidableEq τ] in
theorem inOrder_within {l : List β} (within : ∀ q ∈ l, (body q).Within (reads q) (writes q)) :
    (inOrder body l).Within (⋃ q ∈ l, reads q) (⋃ q ∈ l, writes q) := by
  suffices ∀ k : List β, k ⊆ l → (inOrder body k).Within (⋃ q ∈ l, reads q) (⋃ q ∈ l, writes q) from
    this l (List.Subset.refl l)
  intro k sub
  induction k with
  | nil => trivial
  | cons q qs ih =>
    have mem : q ∈ l := sub List.mem_cons_self
    apply Code.Within.andThen _ (ih fun p hp => sub (List.mem_cons_of_mem q hp))
    exact (within q mem).mono (Set.subset_biUnion_of_mem (u := reads) mem)
      (Set.subset_biUnion_of_mem (u := writes) mem)

omit [DecidableEq τ] in
theorem foldl_alone_outside {l : List β} (within : ∀ q ∈ l, (body q).Within (reads q) (writes q)) {i : ι}
    (outside : ∀ q ∈ l, i ∉ writes q) (m : ι → α) :
    l.foldl (fun m q => (body q).alone m) m i = m i := by
  induction l generalizing m with
  | nil => rfl
  | cons q qs ih =>
    have rest := ih (fun p hp => within p (List.mem_cons_of_mem q hp))
      (fun p hp => outside p (List.mem_cons_of_mem q hp)) ((body q).alone m)
    have first := Code.alone_outside (within q List.mem_cons_self) m (outside q List.mem_cons_self)
    exact rest.trans first

omit [DecidableEq τ] in
/-- In its words a pass leaves what it would have left at the start of the loop. -/
theorem foldl_alone_owner {l : List β} (independent : Independent body reads writes l) (nodup : l.Nodup)
    {q : β} (hq : q ∈ l) {i : ι} (mem : i ∈ writes q) (m : ι → α) :
    l.foldl (fun m q => (body q).alone m) m i = (body q).alone m i := by
  have split := List.append_of_mem hq
  obtain ⟨before, after, parts⟩ := split
  have first {p : β} (hp : p ∈ before) : p ∈ l := parts ▸ List.mem_append_left _ hp
  have last {p : β} (hp : p ∈ after) : p ∈ l :=
    parts ▸ List.mem_append_right _ (List.mem_cons_of_mem q hp)
  have distinct := List.nodup_append.mp (parts ▸ nodup)
  have outside {p : β} (hp : p ∈ l) (other : p ≠ q) {k : ι} (hk : k ∈ reads q ∪ writes q) :
      k ∉ writes p :=
    fun written => Set.disjoint_left.mp (independent.apart p hp q hq other) written hk
  have earlier {p : β} (hp : p ∈ before) : p ≠ q := fun same =>
    distinct.2.2 p hp q List.mem_cons_self same
  have later {p : β} (hp : p ∈ after) : p ≠ q := fun same =>
    (List.nodup_cons.mp distinct.2.1).1 (same ▸ hp)
  rw [parts, List.foldl_append, List.foldl_cons,
    foldl_alone_outside (fun p hp => independent.within p (last hp)) fun p hp =>
      outside (last hp) (later hp) (Or.inr mem)]
  apply Code.alone_congr (independent.within q hq) _ (Or.inr mem)
  intro k hk
  exact foldl_alone_outside (fun p hp => independent.within p (first hp))
    (fun p hp => outside (first hp) (earlier hp) hk) m

/-- Which passes each thread makes; together the threads make those of `l`, once. -/
structure Shares (work : τ → List β) (l : List β) : Prop where
  nodup : ∀ t, (work t).Nodup
  once : ∀ t u q, q ∈ work t → q ∈ work u → t = u
  all : ∀ q, q ∈ l ↔ ∃ t, q ∈ work t

def share (body : β → Code ι α) (work : τ → List β) (m : ι → α) : Threads τ ι α :=
  ⟨m, fun t => inOrder body (work t)⟩

omit [DecidableEq ι] [DecidableEq τ] in
theorem share_raceFree {l : List β} (independent : Independent body reads writes l)
    {work : τ → List β} (shares : Shares work l) (m : ι → α) :
    Threads.RaceFree (fun t => ⋃ q ∈ work t, reads q) (fun t => ⋃ q ∈ work t, writes q)
      (share body work m) := by
  have own {t : τ} {q : β} (hq : q ∈ work t) : q ∈ l := (shares.all q).mpr ⟨t, hq⟩
  refine ⟨fun t => inOrder_within fun q hq => independent.within q (own hq), ?_⟩
  intro t u other
  rw [Set.disjoint_left]
  intro i written used
  obtain ⟨p, hp, hi⟩ := Set.mem_iUnion₂.mp written
  have meets {q : β} (hq : q ∈ work u) (hi' : i ∈ reads q ∪ writes q) : False := by
    have distinct : p ≠ q := by
      rintro rfl
      exact other (shares.once t u p hp hq)
    exact Set.disjoint_left.mp (independent.apart p (own hp) q (own hq) distinct) hi hi'
  cases used with
  | inl read =>
    obtain ⟨q, hq, hi'⟩ := Set.mem_iUnion₂.mp read
    exact meets hq (Or.inl hi')
  | inr write =>
    obtain ⟨q, hq, hi'⟩ := Set.mem_iUnion₂.mp write
    exact meets hq (Or.inr hi')

/-- However the passes of a loop are shared out and the threads take turns: when
all have finished, the memory is as after the loop. -/
theorem share_finished {l : List β} (independent : Independent body reads writes l) (nodup : l.Nodup)
    {work : τ → List β} (shares : Shares work l) (m : ι → α) {schedule : List τ}
    (finished : ((share body work m).run schedule).Finished) :
    ((share body work m).run schedule).memory = l.foldl (fun m q => (body q).alone m) m := by
  obtain ⟨-, left, unwritten⟩ := Threads.run_raceFree (share_raceFree independent shares m) schedule
  funext i
  by_cases written : ∃ q ∈ l, i ∈ writes q
  · obtain ⟨q, hq, hi⟩ := written
    obtain ⟨t, ht⟩ := (shares.all q).mp hq
    have own := left t i (Set.mem_biUnion ht hi)
    rw [finished t] at own
    rw [foldl_alone_owner independent nodup hq hi]
    calc ((share body work m).run schedule).memory i
        = (inOrder body (work t)).alone m i := own
      _ = (body q).alone m i := by
        have mine := independent.mono (k := work t) fun p hp => (shares.all p).mpr ⟨t, hp⟩
        rw [alone_inOrder, foldl_alone_owner mine (shares.nodup t) ht hi]
  · have outside (t : τ) : i ∉ ⋃ q ∈ work t, writes q := by
      intro hi
      obtain ⟨q, hq, hi⟩ := Set.mem_iUnion₂.mp hi
      exact written ⟨q, (shares.all q).mpr ⟨t, hq⟩, hi⟩
    have kept := foldl_alone_outside independent.within (fun q hq hi => written ⟨q, hq, hi⟩) m
    exact (unwritten i outside).trans kept.symm

/-- What holds of a loop in every way to share its passes out among threads and
for every order of the threads' steps. -/
structure Leaves (body : β → Code ι α) (l : List β) (ok : ι → Prop) (before after : ι → α) : Prop where
  safe : ∀ (τ : Type) [DecidableEq τ] (work : τ → List β), Shares work l → ∀ schedule t i,
    (((share body work before).run schedule).code t).access? = some i → ok i
  ends : ∀ (τ : Type) [DecidableEq τ] (work : τ → List β), Shares work l →
    ∃ schedule, ((share body work before).run schedule).Finished
  result : ∀ (τ : Type) [DecidableEq τ] (work : τ → List β), Shares work l → ∀ schedule,
    ((share body work before).run schedule).Finished →
      ((share body work before).run schedule).memory = after

omit [DecidableEq ι] [DecidableEq τ] in
/-- Only finitely many threads have any pass to make. -/
theorem Shares.workers {work : τ → List β} {l : List β} (shares : Shares work l) :
    ∃ ts : List τ, ∀ t, t ∉ ts → work t = [] := by
  have found (q : β) (hq : q ∈ l) : ∃ t, q ∈ work t := (shares.all q).mp hq
  choose worker made using found
  refine ⟨l.attach.map fun q => worker q.1 q.2, fun t idle => ?_⟩
  apply List.eq_nil_iff_forall_not_mem.mpr
  intro q hq
  have mem : q ∈ l := (shares.all q).mpr ⟨t, hq⟩
  have same : t = worker q mem := shares.once t (worker q mem) q hq (made q mem)
  exact idle (List.mem_map.mpr ⟨⟨q, mem⟩, List.mem_attach l _, same.symm⟩)

/-- A loop whose passes are independent leaves what it leaves in order. -/
theorem Independent.leaves {l : List β} (independent : Independent body reads writes l)
    (nodup : l.Nodup) {ok : ι → Prop} (allowed : ∀ q ∈ l, ∀ i ∈ reads q ∪ writes q, ok i) (m : ι → α) :
    Leaves body l ok m (l.foldl (fun m q => (body q).alone m) m) where
  safe τ _ work shares schedule t i next := by
    have free := (Threads.run_raceFree (share_raceFree independent shares m) schedule).1
    have inside {q : β} (hq : q ∈ work t) (hi : i ∈ reads q ∪ writes q) : ok i :=
      allowed q ((shares.all q).mpr ⟨t, hq⟩) i hi
    cases (free.within t).access next with
    | inl read =>
      obtain ⟨q, hq, hi⟩ := Set.mem_iUnion₂.mp read
      exact inside hq (Or.inl hi)
    | inr write =>
      obtain ⟨q, hq, hi⟩ := Set.mem_iUnion₂.mp write
      exact inside hq (Or.inr hi)
  ends τ _ work shares := by
    obtain ⟨ts, idle⟩ := shares.workers
    apply Threads.exists_finished _ ts
    intro t ht
    have code : inOrder body (work t) = .done := by
      rw [idle t ht]
      rfl
    exact code
  result τ _ work shares _ finished := share_finished independent nodup shares m finished

end ParallelFor
end SharedMemory
