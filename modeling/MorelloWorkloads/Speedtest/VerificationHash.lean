import MorelloWorkloads.Lib.CString
import MorelloWorkloads.Lib.CountedLoop
import Mathlib.Logic.Equiv.Basic

/-! The verification hash: what `--verify` makes of the results of all statements, and
the text of the last result beside it. -/
namespace MorelloWorkloads.Speedtest
open CString CountedLoop

/-- `HashContext` -/
structure Hash where
  i : BitVec 8
  j : BitVec 8
  s : BitVec 8 → BitVec 8

def hashInit : Hash := ⟨0, 0, fun k => k⟩

/-- One pass of `HashUpdate`. -/
def hashByte (h : Hash) (a : BitVec 8) : Hash :=
  let j := h.j + (h.s h.i + a)
  let t := h.s j
  let s := Function.update h.s j (h.s h.i)
  let s := Function.update s h.i t
  ⟨h.i + 1, j, s⟩

def hashUpdate (h : Hash) (aData : List (BitVec 8)) : Hash := aData.foldl hashByte h

/-- One pass of `HashFinal`, and the byte of `r` that it sets. -/
def hashFinalPass (h : Hash) : Hash × BitVec 8 :=
  let i := h.i + 1
  let t := h.s i
  let j := h.j + t
  let s := Function.update h.s i (h.s j)
  let s := Function.update s j t
  let t := t + s i
  (⟨i, j, s⟩, s t)

/-- The next `k` bytes of `r`. -/
def hashFinal : ℕ → Hash → List (BitVec 8)
  | 0, _ => []
  | k + 1, h => (hashFinalPass h).2 :: hashFinal k (hashFinalPass h).1

/-! ## The results of statements -/

/-- `sqlite3_column_type`, which counts from one in this order. -/
inductive ColumnType where
  | integer | float | text | blob | null

/-- `"-IFTBN"[eType]` -/
def ColumnType.letter : ColumnType → BitVec 8
  | integer => BitVec.ofNat 8 'I'.toNat
  | float => BitVec.ofNat 8 'F'.toNat
  | text => BitVec.ofNat 8 'T'.toNat
  | blob => BitVec.ofNat 8 'B'.toNat
  | null => BitVec.ofNat 8 'N'.toNat

/-- What the column functions return in the order of their calls: the text up to its NUL, the
type that is reported after it, which a conversion to text can have changed, and the blob. -/
structure Column where
  text : Option (List (BitVec 8))
  type : ColumnType
  blob : List (BitVec 8)

def newline : BitVec 8 := BitVec.ofNat 8 '\n'.toNat

def blank : BitVec 8 := BitVec.ofNat 8 ' '.toNat

def bytes (text : String) : List (BitVec 8) := text.toList.map fun c => BitVec.ofNat 8 c.toNat

def Column.z (c : Column) : List (BitVec 8) := c.text.getD (bytes "nil")

/-- The part of the globals that statements work on. `file` is what `hashFile` gets. -/
structure Globals where
  hash : Hash
  file : List (BitVec 8)
  nResByte : ℕ
  nResult : ℤ
  zResult : ℤ → BitVec 8

/-- `HashUpdate` -/
def Globals.feed (g : Globals) (aData : List (BitVec 8)) : Globals :=
  { g with hash := hashUpdate g.hash aData, file := g.file ++ aData }

def hexDigits : List (BitVec 8) := bytes "0123456789abcdef"

/-- `zChar` -/
def hexPair (b : BitVec 8) : List (BitVec 8) :=
  [hexDigits.getD (b >>> 4).toNat 0, hexDigits.getD (b &&& 15).toNat 0]

def hashColumn (g : Globals) (c : Column) : Globals :=
  let g := if g.nResByte ≠ 0 then g.feed [newline, c.type.letter] else g.feed [c.type.letter]
  match c.type with
  | .float => { g with nResByte := g.nResByte + 2 }
  | .blob =>
    let g := c.blob.foldl (fun g b => g.feed (hexPair b)) g
    { g with nResByte := g.nResByte + (c.blob.length * 2 + 2) }
  | _ =>
    let g := g.feed c.z
    { g with nResByte := g.nResByte + (c.z.length + 2) }

/-- `char zResult[3000]` -/
def InResult (a : ℤ) : Prop := 0 ≤ a ∧ a < 3000

instance : DecidablePred InResult := fun _ => inferInstanceAs (Decidable (_ ∧ _))

/-- The copy of a text behind the others. `none` is a store out of bounds. -/
def storeColumn (g : Globals) (z : List (BitVec 8)) : Option Globals :=
  if g.nResult + z.length < 3000 - 2 then do
    let g ← (if g.nResult > 0 then do
        let zResult ← store InResult g.zResult g.nResult [blank]
        return { g with zResult, nResult := g.nResult + 1 }
      else some g)
    let zResult ← store InResult g.zResult g.nResult (z ++ [0])
    return { g with zResult, nResult := g.nResult + z.length }
  else some g

def runColumn (bVerify : Bool) (g : Globals) (c : Column) : Option Globals :=
  storeColumn (if bVerify then hashColumn g c else g) c.z

/-- The loops of `speedtest1_run` over the rows that the statement returns. -/
def speedtest1Run (bVerify : Bool) (g : Globals) (rows : List (List Column)) : Option Globals :=
  rows.foldlM (fun g row => row.foldlM (runColumn bVerify) g) { g with nResult := 0 }

/-- What `speedtest1_final` prints, the number and the hash, and what `hashFile` has got. -/
def speedtest1Final (g : Globals) : ℕ × List (BitVec 8) × List (BitVec 8) :=
  let nResByte := g.nResByte
  let g := g.feed [newline]
  (nResByte, (hashFinal 32 g.hash).take 24, g.file)

/-! ## The state of the hash -/

/-- A byte exchanges two entries of the table. -/
theorem hashByte_swap (h : Hash) (a : BitVec 8) :
    (hashByte h a).s = h.s ∘ Equiv.swap h.i (hashByte h a).j :=
  (Equiv.comp_swap_eq_update h.i (hashByte h a).j h.s).symm

/-- The state before a byte can be told from the state after it. -/
theorem hashByte_injective (a : BitVec 8) : Function.Injective fun h => hashByte h a := by
  intro h h' same
  have i : h.i = h'.i := (BitVec.add_left_inj 1).mp (congrArg Hash.i same)
  have j : (hashByte h a).j = (hashByte h' a).j := congrArg Hash.j same
  have s : h.s = h'.s := by
    have tables : (hashByte h a).s = (hashByte h' a).s := congrArg Hash.s same
    rw [hashByte_swap, hashByte_swap, j, i] at tables
    exact (Equiv.surjective _).injective_comp_right tables
  have before : h.j = h'.j := by
    have sum : h.j + (h.s h.i + a) = h'.j + (h'.s h'.i + a) := j
    rw [s, i] at sum
    exact (BitVec.add_left_inj _).mp sum
  cases h
  cases h'
  simp only at i s before
  rw [i, s, before]

theorem hashUpdate_injective (aData : List (BitVec 8)) : Function.Injective fun h => hashUpdate h aData := by
  induction aData with
  | nil => exact Function.injective_id
  | cons a aData ih => exact ih.comp (hashByte_injective a)

/-! ## The stream of results -/

/-- What is hashed of a value beside its type. -/
def Column.content (c : Column) : List (BitVec 8) :=
  match c.type with
  | .float => []
  | .blob => c.blob.flatMap hexPair
  | _ => c.z

def Column.item (c : Column) : List (BitVec 8) := c.type.letter :: c.content

def stream (cs : List Column) : List (BitVec 8) := [newline].intercalate (cs.map Column.item)

theorem feed_feed (g : Globals) (a b : List (BitVec 8)) : (g.feed a).feed b = g.feed (a ++ b) := by
  simp only [Globals.feed, hashUpdate, List.foldl_append, List.append_assoc]

theorem feed_blob (blob : List (BitVec 8)) (g : Globals) :
    blob.foldl (fun g b => g.feed (hexPair b)) g = g.feed (blob.flatMap hexPair) := by
  induction blob generalizing g with
  | nil => simp [Globals.feed, hashUpdate]
  | cons b blob ih => rw [List.foldl_cons, ih, feed_feed, List.flatMap_cons]

theorem hexPairs_length (blob : List (BitVec 8)) : (blob.flatMap hexPair).length = blob.length * 2 := by
  induction blob with
  | nil => rfl
  | cons b blob ih =>
    rw [List.flatMap_cons, List.length_append, ih, List.length_cons, add_mul, add_comm]
    rfl

/-- A value is fed to the hash with its separator and its type, and counted with both. -/
theorem hashColumn_eq (g : Globals) (c : Column) : hashColumn g c =
    { g.feed ((if g.nResByte ≠ 0 then [newline] else []) ++ c.item) with
      nResByte := g.nResByte + (c.item.length + 1) } := by
  have first : (if g.nResByte ≠ 0 then g.feed [newline, c.type.letter] else g.feed [c.type.letter]) =
      g.feed ((if g.nResByte ≠ 0 then [newline] else []) ++ [c.type.letter]) := by
    split
    · rfl
    · rfl
  have whole : (if g.nResByte ≠ 0 then [newline] else []) ++ c.item =
      (if g.nResByte ≠ 0 then [newline] else []) ++ [c.type.letter] ++ c.content := by
    rw [List.append_assoc]
    rfl
  unfold hashColumn
  rw [first, whole, Column.item, Column.content]
  cases c.type with
  | float =>
    rw [List.append_nil]
    rfl
  | blob =>
    simp only [feed_blob, feed_feed, List.length_cons, hexPairs_length]
    rfl
  | integer | text | null =>
    simp only [feed_feed]
    rfl

/-- The hash is that of the stream so far; the count is one ahead of its length, which
makes room for the last newline. -/
structure Hashed (g : Globals) (cs : List Column) : Prop where
  file : g.file = stream cs
  hash : g.hash = hashUpdate hashInit (stream cs)
  count : g.nResByte = if cs = [] then 0 else (stream cs).length + 1

theorem stream_concat (cs : List Column) (c : Column) :
    stream (cs ++ [c]) = stream cs ++ ((if cs = [] then [] else [newline]) ++ c.item) := by
  by_cases empty : cs = []
  · simp [empty, stream]
  · rw [if_neg empty, stream, List.map_append, intercalate_append (by simpa using empty) (by simp), stream]
    simp

theorem hashColumn_hashed {g : Globals} {cs : List Column} (hashed : Hashed g cs) (c : Column) :
    Hashed (hashColumn g c) (cs ++ [c]) := by
  have separator : (if g.nResByte ≠ 0 then [newline] else []) = if cs = [] then [] else [newline] := by
    rw [hashed.count]
    by_cases empty : cs = []
    · simp [empty]
    · simp [empty]
  rw [hashColumn_eq, separator]
  refine ⟨?_, ?_, ?_⟩
  · rw [stream_concat, ← hashed.file]
    rfl
  · rw [stream_concat, hashUpdate, List.foldl_append]
    show hashUpdate g.hash _ = _
    rw [hashed.hash]
    rfl
  · show g.nResByte + (c.item.length + 1) = _
    rw [if_neg (by simp), stream_concat, hashed.count]
    by_cases empty : cs = []
    · simp [empty, stream]
    · simp only [if_neg empty, List.length_append, List.length_singleton]
      omega

/-! ## The text of the last result -/

/-- A text joins the others unless it is too long for what is left of the buffer. -/
def collect (t z : List (BitVec 8)) : List (BitVec 8) :=
  if t.length + z.length < 2998 then (if t.length > 0 then t ++ [blank] else t) ++ z else t

/-- The buffer holds a text, with its end once a value has been stored. -/
structure Shows (g : Globals) (stored : Prop) (t : List (BitVec 8)) : Prop where
  count : g.nResult = t.length
  short : t.length ≤ 2998
  text : At g.zResult 0 t
  ended : stored ∨ t ≠ [] → g.zResult t.length = 0

/-- What a copy leaves as it is. -/
def SameHash (g g' : Globals) : Prop := g'.hash = g.hash ∧ g'.file = g.file ∧ g'.nResByte = g.nResByte

theorem copy_shows {m : ℤ → BitVec 8} {n : ℤ} {t : List (BitVec 8)} (count : n = t.length) (text : At m 0 t)
    (z : List (BitVec 8)) (room : t.length + z.length ≤ 2998) :
    ∃ m', store InResult m n (z ++ [0]) = some m' ∧
      ∀ (g : Globals) (p : Prop), Shows { g with zResult := m', nResult := n + z.length } p (t ++ z) := by
  obtain ⟨m', run, lies, other⟩ := store_run InResult (z ++ [0]) m n
    (fun b low high => by
      simp only [List.length_append, List.length_singleton] at high
      push_cast at high
      constructor <;> omega)
  rw [at_append] at lies
  refine ⟨m', run, fun g p => ⟨?_, by rw [List.length_append]; exact room, ?_, fun _ => ?_⟩⟩
  · simp only [List.length_append, count]
    push_cast
    ring
  · rw [at_append, zero_add, ← count]
    exact ⟨text.congr fun b low high => other b (by omega), lies.1⟩
  · have nul := lies.2 0 (by simp)
    rw [List.length_append]
    push_cast
    rw [← count]
    simpa using nul

theorem storeColumn_shows {g : Globals} {stored : Prop} {t : List (BitVec 8)} (shows : Shows g stored t)
    (z : List (BitVec 8)) : ∃ g', storeColumn g z = some g' ∧ SameHash g g' ∧
      Shows g' (stored ∨ z.length < 2998) (collect t z) := by
  have count := shows.count
  by_cases fits : t.length + z.length < 2998
  · have test : g.nResult + z.length < 3000 - 2 := by omega
    by_cases more : t.length > 0
    · obtain ⟨m, run, lies, other⟩ := store_run InResult [blank] g.zResult g.nResult
        (fun b low high => by
          simp only [List.length_singleton] at high
          constructor <;> omega)
      have spaced : At m 0 (t ++ [blank]) := by
        rw [at_append, zero_add, ← count]
        exact ⟨shows.text.congr fun b low high => other b (Or.inl (by omega)), lies⟩
      obtain ⟨m', copied, after⟩ := copy_shows (n := g.nResult + 1) (by simp [count]) spaced z (by simp; omega)
      refine ⟨{ g with zResult := m', nResult := g.nResult + 1 + z.length }, ?_, ⟨rfl, rfl, rfl⟩, ?_⟩
      · rw [storeColumn, if_pos test, if_pos (by omega)]
        simp only [run, Option.bind_eq_bind, Option.bind_some, Option.pure_def, copied]
      · rw [collect, if_pos fits, if_pos more]
        exact after g _
    · obtain ⟨m', copied, after⟩ := copy_shows count shows.text z (by omega)
      refine ⟨{ g with zResult := m', nResult := g.nResult + z.length }, ?_, ⟨rfl, rfl, rfl⟩, ?_⟩
      · rw [storeColumn, if_pos test, if_neg (by omega)]
        simp only [Option.bind_eq_bind, Option.bind_some, copied]
        rfl
      · rw [collect, if_pos fits, if_neg more]
        exact after g _
  · refine ⟨g, if_neg (by omega), ⟨rfl, rfl, rfl⟩, ?_⟩
    rw [collect, if_neg fits]
    refine ⟨count, shows.short, shows.text, ?_⟩
    rintro ((before | short) | some_text)
    · exact shows.ended (Or.inl before)
    · refine shows.ended (Or.inr ?_)
      rintro rfl
      exact fits (by simpa using short)
    · exact shows.ended (Or.inr some_text)

/-! ## The runs -/

theorem columns_run (bVerify : Bool) (columns : List Column) {g : Globals} {cs : List Column}
    (hashed : bVerify = true → Hashed g cs) {stored : Prop} {t : List (BitVec 8)} (shows : Shows g stored t) :
    ∃ g', columns.foldlM (runColumn bVerify) g = some g' ∧ (bVerify = true → Hashed g' (cs ++ columns)) ∧
      Shows g' (stored ∨ ∃ c ∈ columns, c.z.length < 2998) ((columns.map Column.z).foldl collect t) := by
  induction columns generalizing g cs stored t with
  | nil => exact ⟨g, rfl, by simpa using hashed, by simpa using shows⟩
  | cons c columns ih =>
    have step : bVerify = true → Hashed (if bVerify then hashColumn g c else g) (cs ++ [c]) := by
      intro verify
      rw [if_pos verify]
      exact hashColumn_hashed (hashed verify) c
    have same : Shows (if bVerify then hashColumn g c else g) stored t := by
      cases bVerify with
      | false => exact shows
      | true =>
        rw [if_pos rfl, hashColumn_eq]
        exact ⟨shows.count, shows.short, shows.text, shows.ended⟩
    obtain ⟨mid, here, kept, shown⟩ := storeColumn_shows same c.z
    have hashedMid : bVerify = true → Hashed mid (cs ++ [c]) := by
      intro verify
      obtain ⟨hash, file, count⟩ := kept
      obtain ⟨file', hash', count'⟩ := step verify
      exact ⟨file.trans file', hash.trans hash', count.trans count'⟩
    obtain ⟨g', rest, hashed', shows'⟩ := ih hashedMid shown
    refine ⟨g', ?_, by simpa using hashed', ?_⟩
    · rw [List.foldlM_cons, runColumn, here]
      exact rest
    · simpa [or_assoc] using shows'

theorem statement_run (bVerify : Bool) (rows : List (List Column)) {g : Globals} {cs : List Column}
    (hashed : bVerify = true → Hashed g cs) : ∃ g', speedtest1Run bVerify g rows = some g' ∧
      (bVerify = true → Hashed g' (cs ++ rows.flatten)) ∧
      Shows g' (∃ c ∈ rows.flatten, c.z.length < 2998) ((rows.flatten.map Column.z).foldl collect []) := by
  have start : Shows { g with nResult := 0 } False [] :=
    ⟨rfl, Nat.zero_le _, at_nil _ 0, fun absurd_store => by simp at absurd_store⟩
  have kept : bVerify = true → Hashed { g with nResult := 0 } cs :=
    fun verify => ⟨(hashed verify).file, (hashed verify).hash, (hashed verify).count⟩
  obtain ⟨g', run, hashed', shows⟩ := columns_run bVerify rows.flatten kept start
  refine ⟨g', ?_, hashed', by simpa using shows⟩
  rw [← run, speedtest1Run, ← List.flatMap_id, foldlM_flatMap]
  rfl

theorem statements_run (bVerify : Bool) (runs : List (List (List Column))) {g : Globals} {cs : List Column}
    (hashed : bVerify = true → Hashed g cs) : ∃ g', runs.foldlM (speedtest1Run bVerify) g = some g' ∧
      (bVerify = true → Hashed g' (cs ++ runs.flatten.flatten)) := by
  induction runs generalizing g cs with
  | nil => exact ⟨g, rfl, by simpa using hashed⟩
  | cons rows runs ih =>
    obtain ⟨mid, here, kept, -⟩ := statement_run bVerify rows hashed
    obtain ⟨g', rest, hashed'⟩ := ih kept
    refine ⟨g', ?_, by simpa using hashed'⟩
    rw [List.foldlM_cons, here]
    exact rest

/-- The globals before the first statement; the buffer may hold anything. -/
def Globals.start (zResult : ℤ → BitVec 8) : Globals := ⟨hashInit, [], 0, 0, zResult⟩

theorem start_hashed (zResult : ℤ → BitVec 8) : Hashed (Globals.start zResult) [] := ⟨rfl, rfl, rfl⟩

/-- Whatever the statements return, the hash is that of one stream with all their values,
and the number printed beside it is the length of that stream. -/
theorem verified_statements (zResult : ℤ → BitVec 8) (runs : List (List (List Column))) :
    ∃ g, runs.foldlM (speedtest1Run true) (Globals.start zResult) = some g ∧ speedtest1Final g =
      (if runs.flatten.flatten = [] then 0 else (stream runs.flatten.flatten ++ [newline]).length,
        (hashFinal 32 (hashUpdate hashInit (stream runs.flatten.flatten ++ [newline]))).take 24,
        stream runs.flatten.flatten ++ [newline]) := by
  obtain ⟨g, run, hashed⟩ := statements_run true runs fun _ => start_hashed zResult
  obtain ⟨file, hash, count⟩ := hashed rfl
  rw [List.nil_append] at file hash count
  refine ⟨g, run, ?_⟩
  have fed : hashUpdate g.hash [newline] =
      hashUpdate hashInit (stream runs.flatten.flatten ++ [newline]) := by
    rw [hash, hashUpdate, hashUpdate, hashUpdate, List.foldl_append]
  simp only [speedtest1Final, Globals.feed, fed, file, count, List.length_append,
    List.length_singleton]

/-- After any statements, and with or without `--verify`, the buffer holds the texts of the
last statement's values that had room, and no store has left it. -/
theorem result_text (bVerify : Bool) (zResult : ℤ → BitVec 8) (runs : List (List (List Column)))
    (rows : List (List Column)) :
    let text := (rows.flatten.map Column.z).foldl collect []
    ∃ g, (runs ++ [rows]).foldlM (speedtest1Run bVerify) (Globals.start zResult) = some g ∧
      g.nResult = text.length ∧ text.length ≤ 2998 ∧ At g.zResult 0 text ∧
      ((∃ c ∈ rows.flatten, c.z.length < 2998) → At g.zResult 0 (text ++ [0])) := by
  intro text
  obtain ⟨mid, before, kept⟩ := statements_run bVerify runs fun _ => start_hashed zResult
  obtain ⟨g, last, -, shows⟩ := statement_run bVerify rows kept
  refine ⟨g, ?_, shows.count, shows.short, shows.text, fun fits => ?_⟩
  · rw [List.foldlM_append, before]
    simp only [Option.bind_eq_bind, Option.bind_some, List.foldlM_cons, last, List.foldlM_nil]
    rfl
  · rw [at_append]
    refine ⟨shows.text, fun k hk => ?_⟩
    obtain rfl : k = 0 := by simpa using hk
    rw [zero_add, Nat.cast_zero, add_zero]
    exact shows.ended (Or.inl fits)

/-! ## What the hash can tell -/

theorem hashUpdate_bijective {h : Hash} (bijective : Function.Bijective h.s) (aData : List (BitVec 8)) :
    Function.Bijective (hashUpdate h aData).s := by
  induction aData generalizing h with
  | nil => exact bijective
  | cons a aData ih =>
    apply ih
    rw [hashByte_swap]
    exact bijective.comp (Equiv.bijective _)

/-- What `--verify` can tell of a stream: the table stays a permutation, no two states are
taken to the same one, and another byte in one place makes another state. -/
theorem hash_tells (aData : List (BitVec 8)) :
    Function.Bijective (hashUpdate hashInit aData).s ∧
    (Function.Injective fun h => hashUpdate h aData) ∧
    ∀ before after a b,
      hashUpdate hashInit (before ++ a :: after) = hashUpdate hashInit (before ++ b :: after) →
      a = b := by
  refine ⟨hashUpdate_bijective Function.bijective_id aData, hashUpdate_injective aData, ?_⟩
  intro before after a b same
  simp only [hashUpdate, List.foldl_append, List.foldl_cons] at same
  have place := congrArg Hash.j (hashUpdate_injective after same)
  exact (BitVec.add_right_inj _).mp ((BitVec.add_right_inj _).mp place)

/-- The type and the content that an item has been made of. -/
def openItem : List (BitVec 8) → Option ColumnType × List (BitVec 8)
  | [] => (none, [])
  | l :: content => ([.integer, .float, .text, .blob, .null].find? fun t => t.letter = l, content)

theorem openItem_item (c : Column) : openItem c.item = (some c.type, c.content) := by
  rw [Column.item, openItem]
  cases c.type with
  | integer | float | text | blob | null => rfl

theorem newline_item {c : Column} (plain : newline ∉ c.content) : newline ∉ c.item := by
  rw [Column.item, List.mem_cons, not_or]
  refine ⟨?_, plain⟩
  cases c.type with
  | integer | float | text | blob | null => decide

theorem stream_splitOn {cs : List Column} (plain : ∀ c ∈ cs, newline ∉ c.content) (some_values : cs ≠ []) :
    (stream cs).splitOn newline = cs.map Column.item := by
  apply List.splitOn_intercalate
  · intro item member
    obtain ⟨c, here, rfl⟩ := List.mem_map.mp member
    exact newline_item (plain c here)
  · simpa using some_values

theorem stream_eq_nil {cs : List Column} : stream cs = [] ↔ cs = [] := by
  cases cs with
  | nil => simp [stream]
  | cons c cs =>
    cases cs with
    | nil => simp [stream, Column.item]
    | cons d cs => simp [stream, Column.item, List.intercalate_cons_cons]

/-- Results without newlines have the same stream only when the same types and contents come
in the same order. Of floating-point numbers only the type counts. -/
theorem stream_tells {cs ds : List Column} (plain : ∀ c ∈ cs, newline ∉ c.content)
    (plain' : ∀ d ∈ ds, newline ∉ d.content) : stream cs = stream ds ↔
      cs.map (fun c => (c.type, c.content)) = ds.map fun d => (d.type, d.content) := by
  constructor
  · intro same
    have items : cs.map Column.item = ds.map Column.item := by
      by_cases empty : cs = []
      · rw [empty] at same ⊢
        rw [stream_eq_nil.mp (same.symm.trans (stream_eq_nil.mpr rfl))]
      · have full : ds ≠ [] := fun none => empty (stream_eq_nil.mp (same.trans (stream_eq_nil.mpr none)))
        rw [← stream_splitOn plain empty, same, stream_splitOn plain' full]
    have opened := congrArg (List.map openItem) items
    simp only [List.map_map, Function.comp_def, openItem_item] at opened
    have typed := congrArg (List.map fun v => (v.1.getD .null, v.2)) opened
    simpa only [List.map_map, Function.comp_def, Option.getD_some] using typed
  · intro same
    have items := congrArg (List.map fun v : ColumnType × List (BitVec 8) => v.1.letter :: v.2) same
    simp only [List.map_map, Function.comp_def] at items
    exact congrArg [newline].intercalate items

theorem stream_tells_two :
    let cs : List Column := [⟨some (bytes "one"), .text, []⟩, ⟨none, .null, []⟩]
    let ds : List Column := [⟨some (bytes "1.5"), .float, []⟩]
    stream cs = stream ds ↔
      cs.map (fun c => (c.type, c.content)) = ds.map fun d => (d.type, d.content) :=
  stream_tells (by decide) (by decide)

end MorelloWorkloads.Speedtest
