import MorelloWorkloads.Pxz.CompressStream

/-! The temporary descriptors as files in memory: what resetting, writing and
draining them leaves. -/
namespace MorelloWorkloads.Pxz
open CountedLoop

/-- A temporary descriptor, as a file in memory. -/
structure File where
  data : List UInt8
  pos : ℕ
  isOpen : Bool

/-- The functions act as on files in memory, for the descriptors that have been
allocated and that the given count admits. -/
structure InMemory {F : Type*} (S : SpecMem F) (allocated : ℤ) (view : F → ℤ → File) : Prop where
  setOpen : ∀ f p, 0 ≤ p → p < allocated →
    view (S.setOpen f p) = Function.update (view f) p { view f p with isOpen := true }
  reset : ∀ f n p, 0 ≤ p → p < n → p < allocated → (view f p).isOpen →
    view (S.reset f n p) = Function.update (view f) p ⟨[], 0, true⟩
  rewind : ∀ f n p, 0 ≤ p → p < n → p < allocated → (view f p).isOpen →
    view (S.rewind f n p) = Function.update (view f) p { view f p with pos := 0 }
  fwrite : ∀ f n bytes p data, 0 ≤ p → p < n → p < allocated → bytes ≠ [] →
    view f p = ⟨data, data.length, true⟩ → ∃ f', S.fwrite f n bytes p = some f' ∧
      view f' = Function.update (view f) p ⟨data ++ bytes, (data ++ bytes).length, true⟩
  fread : ∀ f n size p data pos, 0 ≤ p → p < n → p < allocated → view f p = ⟨data, pos, true⟩ →
    ∃ f', S.fread f n size p = some ((data.drop pos).take size, f') ∧
      view f' = Function.update (view f) p ⟨data, pos + ((data.drop pos).take size).length, true⟩
  close : ∀ f n p q, 0 ≤ p → p < n → p < allocated → q ≠ p → view (S.close f n p) q = view f q

/-- Descriptors as a table of files. -/
def filesInMemory : SpecMem (ℤ → File) where
  setOpen f p := Function.update f p { f p with isOpen := true }
  reset f _ p := Function.update f p ⟨[], 0, true⟩
  rewind f _ p := Function.update f p { f p with pos := 0 }
  fwrite f _ bytes p :=
    let out := (f p).data.take (f p).pos ++ bytes
    some (Function.update f p ⟨out, out.length, true⟩)
  fread f _ size p :=
    let got := ((f p).data.drop (f p).pos).take size
    some (got, Function.update f p ⟨(f p).data, (f p).pos + got.length, true⟩)
  close f _ p := Function.update f p { f p with isOpen := false }

theorem filesInMemory_inMemory (allocated : ℤ) : InMemory filesInMemory allocated id where
  setOpen _ _ _ _ := rfl
  reset _ _ _ _ _ _ _ := rfl
  rewind _ _ _ _ _ _ _ := rfl
  fwrite f n bytes p data _ _ _ _ h := by
    simp only [id] at h
    exact ⟨_, rfl, by simp [h]⟩
  fread f n size p data pos _ _ _ h := by
    simp only [id] at h
    simp [filesInMemory, h]
  close f n p q _ _ _ hne := Function.update_of_ne hne _ _

section Files
variable {F : Type*} {P : Params F} {view : F → ℤ → File} (mem : InMemory P.mem P.threads view)
include mem

/-- Every descriptor of the pass is open and holds what `data` says. -/
def Holds (P : Params F) (view : F → ℤ → File) (w : World F) (data : ℤ → List UInt8) : Prop :=
  ∀ p, 0 ≤ p → p < P.threads → view w.tmpfds p = ⟨data p, (data p).length, true⟩

theorem reset_view (f : F) {p : ℤ} (h₀ : 0 ≤ p) (h : p < P.threads) :
    view (P.mem.rewind (P.mem.reset (P.mem.setOpen f p) P.threads p) P.threads p) =
      Function.update (view f) p ⟨[], 0, true⟩ := by
  have opened := mem.setOpen f p h₀ h
  have emptied := mem.reset (P.mem.setOpen f p) P.threads p h₀ h h (by simp [opened])
  have rewound := mem.rewind (P.mem.reset (P.mem.setOpen f p) P.threads p) P.threads p
    h₀ h h (by simp [emptied])
  rw [rewound, emptied, opened]
  simp

theorem resetFiles_holds (w : World F) : Holds P view (resetFiles P w) fun _ => [] := by
  have each (l : List ℤ) (hl : ∀ p ∈ l, 0 ≤ p ∧ p < P.threads) (w : World F) (q : ℤ) :
      (q ∈ l ∨ view w.tmpfds q = ⟨[], 0, true⟩) →
      view (l.foldl (fun w p => { w with
        tmpfds := P.mem.rewind (P.mem.reset (P.mem.setOpen w.tmpfds p) P.threads p) P.threads p
        used := w.used ++ [p] }) w).tmpfds q = ⟨[], 0, true⟩ := by
    induction l generalizing w with
    | nil => simp
    | cons p ps ih =>
      intro hq
      obtain ⟨h₀, h⟩ := hl p List.mem_cons_self
      rw [List.foldl_cons]
      apply ih fun r hr => hl r (List.mem_cons_of_mem p hr)
      by_cases hqp : q = p
      · right
        subst hqp
        simp [reset_view mem _ h₀ h]
      · cases hq with
        | inl hq => exact Or.inl ((List.mem_cons.mp hq).resolve_left hqp)
        | inr hq =>
          right
          simpa [reset_view mem _ h₀ h, hqp] using hq
  intro p h₀ h
  exact each _ (fun q hq => mem_trips_one.mp hq) w p (Or.inl (mem_trips_one.mpr ⟨h₀, h⟩))

theorem writeFiles_holds {writes : List (ℤ × List UInt8)}
    (hw : ∀ x ∈ writes, 0 ≤ x.1 ∧ x.1 < P.threads ∧ x.2 ≠ []) {w : World F}
    {data : ℤ → List UInt8} (h : Holds P view w data) :
    ∃ w', writeFiles P writes w = some w' ∧ w'.fo = w.fo ∧
      w'.used = w.used ++ writes.map Prod.fst ∧
      Holds P view w' fun p => data p ++ ((writes.filter fun x => x.1 = p).map Prod.snd).flatten := by
  induction writes generalizing w data with
  | nil => exact ⟨w, rfl, rfl, by simp, by simpa using h⟩
  | cons x xs ih =>
    obtain ⟨p, piece⟩ := x
    obtain ⟨h₀, hp, hne⟩ := hw (p, piece) List.mem_cons_self
    obtain ⟨f, hf, hview⟩ := mem.fwrite w.tmpfds P.threads piece p (data p) h₀ hp hp hne (h p h₀ hp)
    let next : World F := { w with tmpfds := f, used := w.used ++ [p] }
    have hnext : Holds P view next fun q => data q ++ if q = p then piece else [] := by
      intro q hq₀ hq
      by_cases hqp : q = p
      · subst hqp
        simp [next, hview]
      · simpa [next, hview, hqp] using h q hq₀ hq
    obtain ⟨w', hrun, hfo, hused, hholds⟩ := ih (fun x hx => hw x (List.mem_cons_of_mem _ hx)) hnext
    refine ⟨w', ?_, hfo, by simp [hused, next], ?_⟩
    · simpa [writeFiles, hf, next] using hrun
    · intro q hq₀ hq
      have := hholds q hq₀ hq
      by_cases hqp : q = p
      · subst hqp
        simpa using this
      · simpa [hqp, Ne.symm hqp] using this

/-- Reading to the end copies what the file holds from its position on. -/
theorem copyOut_eq {count p : ℤ} (h₀ : 0 ≤ p) (hc : p < count)
    (hp : p < P.threads) {data : List UInt8} {pos fuel : ℕ} {w : World F}
    (h : view w.tmpfds p = ⟨data, pos, true⟩) (hfuel : data.length - pos < fuel) :
    ∃ w', copyOut P count p fuel w = some w' ∧ w'.fo = w.fo ++ data.drop pos ∧ w'.used = w.used ∧
      ∀ q, q ≠ p → view w'.tmpfds q = view w.tmpfds q := by
  induction fuel generalizing pos w with
  | zero => omega
  | succ fuel ih =>
    obtain ⟨f, hf, hview⟩ := mem.fread w.tmpfds count P.bufsiz p data pos h₀ hc hp h
    have others (q : ℤ) (hq : q ≠ p) : view f q = view w.tmpfds q := by simp [hview, hq]
    cases hread : (data.drop pos).take P.bufsiz with
    | nil =>
      have hb := P.bufsiz_pos
      have done : data.drop pos = [] := by
        cases List.take_eq_nil_iff.mp hread with
        | inl hz => omega
        | inr hz => exact hz
      refine ⟨{ w with tmpfds := f }, ?_, by simp [done], rfl, others⟩
      rw [copyOut, hf, hread]
    | cons b bs =>
      have here : view f p = ⟨data, pos + (b :: bs).length, true⟩ := by simp [hview, hread]
      have hlen : (b :: bs).length = min P.bufsiz (data.length - pos) := by
        rw [← hread, List.length_take, List.length_drop]
      have hpos : 0 < (b :: bs).length := by simp
      obtain ⟨w', hrun, hfo, hused, hothers⟩ := ih (w := { w with tmpfds := f, fo := w.fo ++ b :: bs })
        here (by omega)
      refine ⟨w', ?_, ?_, hused, fun q hq => (hothers q hq).trans (others q hq)⟩
      · rw [copyOut, hf, hread]
        exact hrun
      · have split : data.drop pos = (b :: bs) ++ data.drop (pos + (b :: bs).length) := by
          have front : (b :: bs) <+: data.drop pos := hread ▸ List.take_prefix _ _
          rw [← List.drop_drop]
          exact (List.prefix_iff_eq_append.mp front).symm
        rw [hfo, split, List.append_assoc]

theorem drainFile_eq {count p : ℤ} (h₀ : 0 ≤ p) (hc : p < count)
    (hp : p < P.threads) {data : List UInt8} {fuel : ℕ} {w : World F}
    (h : view w.tmpfds p = ⟨data, data.length, true⟩) (hfuel : data.length < fuel) :
    ∃ w', drainFile P count fuel w p = some w' ∧ w'.fo = w.fo ++ data ∧ w'.used = w.used ++ [p] ∧
      ∀ q, q ≠ p → view w'.tmpfds q = view w.tmpfds q := by
  have rewound := mem.rewind w.tmpfds count p h₀ hc hp (by simp [h])
  let start : World F :=
    { w with tmpfds := P.mem.rewind w.tmpfds count p, used := w.used ++ [p] }
  have hstart : view start.tmpfds p = ⟨data, 0, true⟩ := by simp [start, rewound, h]
  obtain ⟨w', hrun, hfo, hused, hothers⟩ := copyOut_eq mem h₀ hc hp hstart (by omega)
  refine ⟨{ w' with tmpfds := P.mem.close w'.tmpfds count p }, ?_, hfo, hused, fun q hq => ?_⟩
  · simp only [drainFile]
    rw [show copyOut P count p fuel _ = some w' from hrun]
    rfl
  · have kept : view start.tmpfds q = view w.tmpfds q := by simp [start, rewound, hq]
    exact (mem.close _ _ _ _ h₀ hc hp hq).trans ((hothers q hq).trans kept)

theorem drainFiles_eq {count : ℤ} (hcount : count ≤ P.threads)
    {data : ℤ → List UInt8} {fuel : ℕ} {w : World F} (h : Holds P view w data)
    (hfuel : ∀ p, 0 ≤ p → p < P.threads → (data p).length < fuel) :
    ∃ w', drainFiles P count fuel w = some w' ∧
      w'.fo = w.fo ++ (trips 0 count 1).flatMap data ∧ w'.used = w.used ++ trips 0 count 1 := by
  have each (l : List ℤ) (hl : ∀ p ∈ l, 0 ≤ p ∧ p < count) (nodup : l.Nodup) (w : World F)
      (h : ∀ p ∈ l, view w.tmpfds p = ⟨data p, (data p).length, true⟩) :
      ∃ w', l.foldlM (drainFile P count fuel) w = some w' ∧ w'.fo = w.fo ++ l.flatMap data ∧
        w'.used = w.used ++ l := by
    induction l generalizing w with
    | nil => exact ⟨w, rfl, by simp, by simp⟩
    | cons p ps ih =>
      obtain ⟨h₀, hc⟩ := hl p List.mem_cons_self
      obtain ⟨fresh, rest⟩ := List.nodup_cons.mp nodup
      obtain ⟨w₁, hrun, hfo, hused, hothers⟩ := drainFile_eq mem h₀ hc (by omega)
        (h p List.mem_cons_self) (hfuel p h₀ (by omega))
      have untouched (q : ℤ) (hq : q ∈ ps) :
          view w₁.tmpfds q = ⟨data q, (data q).length, true⟩ := by
        have hne : q ≠ p := by
          rintro rfl
          exact fresh hq
        exact (hothers q hne).trans (h q (List.mem_cons_of_mem p hq))
      obtain ⟨w₂, hrun₂, hfo₂, hused₂⟩ :=
        ih (fun q hq => hl q (List.mem_cons_of_mem p hq)) rest w₁ untouched
      refine ⟨w₂, ?_, ?_, ?_⟩
      · rw [List.foldlM_cons, hrun]
        exact hrun₂
      · rw [hfo₂, hfo, List.flatMap_cons, List.append_assoc]
      · rw [hused₂, hused, List.append_assoc, List.singleton_append]
  apply each _ (fun p hp => mem_trips_one.mp hp) (trips_nodup one_pos) w
  intro p hp
  have hb := mem_trips_one.mp hp
  exact h p hb.1 (by omega)

omit mem in
theorem resetFiles_fields (w : World F) :
    (resetFiles P w).fo = w.fo ∧ (resetFiles P w).used = w.used ++ trips 0 P.threads 1 := by
  unfold resetFiles loop
  generalize trips 0 P.threads 1 = l
  induction l generalizing w with
  | nil => simp
  | cons p ps ih =>
    rw [List.foldl_cons]
    obtain ⟨hfo, hused⟩ := ih { w with
      tmpfds := P.mem.rewind (P.mem.reset (P.mem.setOpen w.tmpfds p) P.threads p) P.threads p
      used := w.used ++ [p] }
    exact ⟨hfo, by rw [hused]; simp⟩

end Files

end MorelloWorkloads.Pxz
