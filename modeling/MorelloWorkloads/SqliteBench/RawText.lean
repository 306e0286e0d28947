import MorelloWorkloads.SqliteBench.Raw
import MorelloWorkloads.SqliteBench.Report

/-! `raw_to_string` and `raw_print`: the recorded values as text. The digits that a
conversion prints are arbitrary. -/
namespace MorelloWorkloads.SqliteBench
open CountedLoop CheckedInt FlatMemory

variable {α : Type}

/-- `if (r_size <= strlen(r) + strlen(buf))`, which keeps room for the terminator. -/
def Buffer.reserveText (r : Buffer) (buf : List Char) : Buffer :=
  if r.size ≤ r.text.length + buf.length then { r with size := r.size * 2 } else r

/-- One pass; without a string, `NULL` has been returned. -/
def rawToStringPass (line : α → List Char) (data : Values α) (r : Option Buffer) (i : ℤ) :
    Option (Option Buffer) :=
  match r with
  | none => some none
  | some r => do
    let value ← load data.Holds data.cell i
    let buf := line value
    if buf.length ≥ 200 then return none
    else
      let r ← (r.reserveText buf).strcat buf
      return some r

/-- `none` is an access out of bounds, and `some none` is `NULL`. -/
def rawToString [Zero α] (line : α → List Char) (raw : Raw α) : Option (Option Buffer) :=
  let raw := if raw.data.isNone then rawCalloc raw else raw
  match raw.data with
  | none => some none
  | some data => loopM 0 raw.pos 1 (some ⟨1024, []⟩) (rawToStringPass line data)

/-- What is written to the stream. -/
def rawPrint [Zero α] (line : α → List Char) (raw : Raw α) : Option (List Char) :=
  let raw := if raw.data.isNone then rawCalloc raw else raw
  match raw.data with
  | none => some []
  | some data => loopM 0 raw.pos 1 "num,time\n".toList fun out i => do
    let value ← load data.Holds data.cell i
    return out ++ ((toString i).toList ++ [','] ++ line value)

/-- What the loop has after the values so far: nothing from a long line on. -/
def Texts (line : α → List Char) (values : List α) (r : Option Buffer) : Prop :=
  match r with
  | none => ∃ v ∈ values, 200 ≤ (line v).length
  | some r => (∀ v ∈ values, (line v).length < 200) ∧ r.text = values.flatMap line ∧
      r.text.length < r.size ∧ 1024 ≤ r.size

section Loop
variable {line : α → List Char} {data : Values α} {values : List α}

/-- One doubling makes room for a line and the terminator. -/
theorem reserveText_room {r : Buffer} {buf : List Char} (room : r.text.length < r.size)
    (least : 1024 ≤ r.size) (short : buf.length < 200) : (r.reserveText buf).text = r.text ∧
      r.text.length + buf.length < (r.reserveText buf).size ∧ 1024 ≤ (r.reserveText buf).size := by
  unfold Buffer.reserveText
  split
  · refine ⟨rfl, ?_, ?_⟩ <;> simp only <;> omega
  · exact ⟨rfl, by omega, least⟩

theorem texts_pass {v : α} {i : ℤ} (holds : data.Holds i) (here : data.cell i = v) {r : Option Buffer}
    (texts : Texts line values r) :
    ∃ r', rawToStringPass line data r i = some r' ∧ Texts line (values ++ [v]) r' := by
  have read : load data.Holds data.cell i = some v := by
    rw [load, if_pos holds, here]
  cases r with
  | none =>
    obtain ⟨u, member, long⟩ := texts
    exact ⟨none, rfl, u, List.mem_append_left _ member, long⟩
  | some r =>
    obtain ⟨short, text, room, least⟩ := texts
    by_cases long : (line v).length ≥ 200
    · refine ⟨none, ?_, v, by simp, long⟩
      simp only [rawToStringPass, read, Option.bind_eq_bind, Option.bind_some, if_pos long]
      rfl
    · obtain ⟨kept, space, wide⟩ := reserveText_room room least (not_le.mp long)
      have after : (r.reserveText (line v)).strcat (line v) =
          some ⟨(r.reserveText (line v)).size, r.text ++ line v⟩ := by
        rw [strcat_eq (by rwa [kept]), kept]
      refine ⟨some ⟨(r.reserveText (line v)).size, r.text ++ line v⟩, ?_, ?_, ?_, ?_, wide⟩
      · simp only [rawToStringPass, read, Option.bind_eq_bind, Option.bind_some, if_neg long, after]
        rfl
      · intro u member
        cases List.mem_append.mp member with
        | inl old => exact short u old
        | inr new =>
          rw [List.mem_singleton.mp new]
          exact not_le.mp long
      · rw [text, List.flatMap_append, List.flatMap_singleton]
      · rw [List.length_append]
        exact space

variable {raw : Raw α}

/-- Each value is where the loops look for it. -/
theorem Raw.Records.value (records : raw.Records values) {cell : ℤ → α}
    (kept : ∀ (i : ℕ) (h : i < values.length), cell i = values[i]) {i : ℤ} (low : 0 ≤ i) (high : i < raw.pos) :
    ∃ inside : i.toNat < values.length, (⟨8 * raw.dataSize, cell⟩ : Values α).Holds i ∧
      cell i = values[i.toNat] := by
  have pos := records.pos
  have room := records.room
  refine ⟨by omega, ?_, ?_⟩
  · simp only [Values.Holds]
    omega
  · rw [← kept i.toNat (by omega), Int.toNat_of_nonneg low]

theorem rawToString_texts [Zero α] (records : raw.Records values) :
    ∃ r, rawToString line raw = some r ∧ Texts line values r := by
  obtain ⟨cell, data, kept⟩ := records.data
  have pos := records.pos
  have run : rawToString line raw = loopM 0 raw.pos 1 (some ⟨1024, []⟩)
      (rawToStringPass line ⟨8 * raw.dataSize, cell⟩) := by
    simp only [rawToString, data, Option.isNone_some, Bool.false_eq_true, if_false]
  rw [run]
  obtain ⟨r, loop, texts⟩ := @loopM_upto _ 0 raw.pos (by omega) (rawToStringPass line ⟨8 * raw.dataSize, cell⟩)
    (fun i r => Texts line (values.take i.toNat) r) (fun i r low high texts => by
      obtain ⟨inside, holds, here⟩ := records.value kept low high
      have next : (i + 1).toNat = i.toNat + 1 := by omega
      rw [next, List.take_succ_eq_append_getElem inside]
      exact texts_pass holds here texts) (some ⟨1024, []⟩)
    ⟨by simp, by simp, by simp, le_rfl⟩
  refine ⟨r, loop, ?_⟩
  rwa [pos, Int.toNat_natCast, List.take_length] at texts

theorem rawPrint_lines [Zero α] (records : raw.Records values) :
    rawPrint line raw = some ("num,time\n".toList ++
      values.zipIdx.flatMap fun (v, i) => (toString (i : ℤ)).toList ++ [','] ++ line v) := by
  obtain ⟨cell, data, kept⟩ := records.data
  have pos := records.pos
  let lines (values : List α) : List Char :=
    values.zipIdx.flatMap fun (v, i) => (toString (i : ℤ)).toList ++ [','] ++ line v
  obtain ⟨out, loop, printed⟩ := @loopM_upto _ 0 raw.pos (by omega) (fun out i => do
      let value ← load (⟨8 * raw.dataSize, cell⟩ : Values α).Holds cell i
      return out ++ ((toString i).toList ++ [','] ++ line value))
    (fun i out => out = "num,time\n".toList ++ lines (values.take i.toNat)) (fun i out low high printed => by
      obtain ⟨inside, holds, here⟩ := records.value kept low high
      have next : (i + 1).toNat = i.toNat + 1 := by omega
      refine ⟨_, by rw [load, if_pos holds]; rfl, ?_⟩
      have last : lines (values.take (i.toNat + 1)) =
          lines (values.take i.toNat) ++ ((toString i).toList ++ [','] ++ line (values[i.toNat])) := by
        simp only [lines]
        rw [List.take_succ_eq_append_getElem inside, List.zipIdx_append, List.flatMap_append]
        simp [List.length_take, inside.le, Int.toNat_of_nonneg low]
      rw [printed, next, last, here, List.append_assoc]) "num,time\n".toList
    (by simp [lines])
  have run : rawPrint line raw = some out := by
    simp only [rawPrint, data, Option.isNone_some, Bool.false_eq_true, if_false]
    exact loop
  rw [run, printed, pos, Int.toNat_natCast, List.take_length]

end Loop

section Recorded
variable {digits : α → List Char}

/-- The lines can be told apart again. -/
theorem splitOn_lines (plain : ∀ v, '\n' ∉ digits v) (values : List α) :
    (values.flatMap fun v => digits v ++ ['\n']).splitOn '\n' = values.map digits ++ [[]] := by
  induction values with
  | nil => exact List.splitOn_nil _
  | cons v values ih =>
    rw [List.flatMap_cons, List.append_assoc, List.singleton_append,
      List.splitOn_append_cons_self_of_not_mem (plain v), ih, List.map_cons, List.cons_append]

/-- What was recorded since a clear comes out as text. The buffer is never overrun; it is
given up for `NULL` exactly when a line does not fit `buf`, and otherwise its lines are the
values in order. The stream gets the values with their numbers. -/
theorem recorded_text [Zero α] (raw : Raw α) (plain : ∀ v, '\n' ∉ digits v) {calls : List (α × (ℤ → α))}
    (few : calls.length < 2 ^ 31) :
    let line := fun v => digits v ++ ['\n']
    ∃ raw' r, rawAddAll (rawClear raw) calls = some raw' ∧ rawToString line raw' = some r ∧
      (r = none ↔ ∃ call ∈ calls, 199 ≤ (digits call.1).length) ∧
      (∀ text ∈ r, text.text.length < text.size ∧
        text.text.splitOn '\n' = calls.map (fun call => digits call.1) ++ [[]]) ∧
      rawPrint line raw' = some ("num,time\n".toList ++ (calls.map Prod.fst).zipIdx.flatMap fun (v, i) =>
        (toString (i : ℤ)).toList ++ [','] ++ line v) := by
  intro line
  obtain ⟨raw', run, records⟩ := rawAddAll_records (rawClear_records raw) calls (by simpa using few)
  rw [List.nil_append] at records
  obtain ⟨r, string, texts⟩ := @rawToString_texts _ line _ _ _ records
  have length (v : α) : (line v).length = (digits v).length + 1 := by
    rw [List.length_append, List.length_singleton]
  refine ⟨raw', r, run, string, ?_, ?_, rawPrint_lines records⟩
  · cases r with
    | none =>
      obtain ⟨v, member, long⟩ := texts
      obtain ⟨call, here, rfl⟩ := List.mem_map.mp member
      rw [length] at long
      exact ⟨fun _ => ⟨call, here, by omega⟩, fun _ => rfl⟩
    | some text =>
      obtain ⟨short, -⟩ := texts
      constructor
      · intro absent
        cases absent
      · rintro ⟨call, here, long⟩
        have fits := short call.1 (List.mem_map_of_mem here)
        rw [length] at fits
        omega
  · rintro text rfl
    obtain ⟨-, joined, room, -⟩ := texts
    refine ⟨room, ?_⟩
    rw [joined, splitOn_lines plain, List.map_map]
    rfl

end Recorded

/-- Three values in unary. -/
theorem recorded_text_three :
    let digits := fun v : ℕ => List.replicate v '1'
    let line := fun v => digits v ++ ['\n']
    let raw : Raw ℕ := ⟨none, 0, 0⟩
    let calls : List (ℕ × (ℤ → ℕ)) := [(2, fun _ => 7), (0, fun _ => 7), (1, fun _ => 7)]
    ∃ raw' r, rawAddAll (rawClear raw) calls = some raw' ∧ rawToString line raw' = some r ∧
      (r = none ↔ ∃ call ∈ calls, 199 ≤ (digits call.1).length) ∧
      (∀ text ∈ r, text.text.length < text.size ∧
        text.text.splitOn '\n' = calls.map (fun call => digits call.1) ++ [[]]) ∧
      rawPrint line raw' = some ("num,time\n".toList ++ (calls.map Prod.fst).zipIdx.flatMap fun (v, i) =>
        (toString (i : ℤ)).toList ++ [','] ++ line v) :=
  recorded_text ⟨none, 0, 0⟩ (fun v member => by simp at member) (by decide)

end MorelloWorkloads.SqliteBench
