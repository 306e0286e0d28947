import Mathlib.Data.List.Basic
import Mathlib.Data.List.Nodup
import Mathlib.Tactic.Common

/-! Python's `literal_eval` on a dictionary of dictionaries with keys in single
quotes. A value of an inner dictionary is one symbol of the text: the assumption
that it is read back as it was printed. Literals that the texts of a writer of such
dictionaries cannot contain by intent (other quotes, adjacent strings, comments,
numeric and named escapes) are rejected. -/
namespace PyLiteral

variable {α : Type*}

inductive Symbol (α : Type*) where
  | char (c : Char)
  | value (v : α)
  deriving DecidableEq

inductive Token (α : Type*) where
  | str (s : List Char)
  | value (v : α)
  | lbrace
  | rbrace
  | colon
  | comma
  deriving DecidableEq

/-- A dictionary in insertion order. -/
abbrev Dict (κ β : Type*) := List (κ × β)

/-- A key that is there keeps its place. -/
def Dict.set {κ β : Type*} [DecidableEq κ] (d : Dict κ β) (k : κ) (v : β) : Dict κ β :=
  if k ∈ d.map Prod.fst then d.map fun e => if e.1 = k then (k, v) else e else d ++ [(k, v)]

/-! ## Tokens -/

/-- Where a scan stands: between tokens, in a string, or behind a backslash in
one. The characters of the string come last first. -/
inductive Place where
  | outside
  | inside (acc : List Char)
  | escaped (acc : List Char)

def blanks : List Char := [' ', '\t', '\n', '\r', '\x0c']

/-- What no string in single quotes may contain, whatever precedes it. -/
def breaks : List Char := ['\n', '\r', '\x00']

def escape : Char → Option Char
  | '\\' => some '\\'
  | '\'' => some '\''
  | '"' => some '"'
  | 'a' => some '\x07'
  | 'b' => some '\x08'
  | 'f' => some '\x0c'
  | 'n' => some '\n'
  | 'r' => some '\r'
  | 't' => some '\t'
  | 'v' => some '\x0b'
  | _ => none

/-- The first characters of numeric and named escapes. -/
def numeric : List Char := ['0', '1', '2', '3', '4', '5', '6', '7', 'x', 'u', 'U', 'N']

def mark : Char → Option (Token α)
  | '{' => some .lbrace
  | '}' => some .rbrace
  | ':' => some .colon
  | ',' => some .comma
  | _ => none

/-- A backslash and a line break in a string are nothing, a backslash and a
character with no meaning of its own are both. -/
def lex : Place → List (Symbol α) → Option (List (Token α))
  | .outside, [] => some []
  | .outside, .value v :: rest => (lex .outside rest).map (.value v :: ·)
  | .outside, .char c :: rest =>
    if c = '\'' then lex (.inside []) rest
    else if c ∈ blanks then lex .outside rest
    else match mark c with
      | some t => (lex .outside rest).map (t :: ·)
      | none => none
  | .inside acc, .char c :: rest =>
    if c = '\'' then (lex .outside rest).map (.str acc.reverse :: ·)
    else if c = '\\' then lex (.escaped acc) rest
    else if c ∈ breaks then none
    else lex (.inside (c :: acc)) rest
  | .escaped acc, .char c :: rest =>
    if c = '\n' ∨ c = '\r' then lex (.inside acc) rest
    else if c = '\x00' ∨ c ∈ numeric then none
    else match escape c with
      | some e => lex (.inside (e :: acc)) rest
      | none => lex (.inside (c :: '\\' :: acc)) rest
  | _, _ => none

theorem lex_nil : lex .outside ([] : List (Symbol α)) = some [] := rfl

theorem lex_value (v : α) (rest : List (Symbol α)) :
    lex .outside (.value v :: rest) = (lex .outside rest).map (.value v :: ·) := rfl

theorem lex_outside (c : Char) (rest : List (Symbol α)) :
    lex .outside (.char c :: rest) =
      if c = '\'' then lex (.inside []) rest
      else if c ∈ blanks then lex .outside rest
      else match mark c with
        | some t => (lex .outside rest).map (t :: ·)
        | none => none := rfl

theorem lex_inside (acc : List Char) (c : Char) (rest : List (Symbol α)) :
    lex (.inside acc) (.char c :: rest) =
      if c = '\'' then (lex .outside rest).map (.str acc.reverse :: ·)
      else if c = '\\' then lex (.escaped acc) rest
      else if c ∈ breaks then none
      else lex (.inside (c :: acc)) rest := rfl

theorem lex_escaped (acc : List Char) (c : Char) (rest : List (Symbol α)) :
    lex (.escaped acc) (.char c :: rest) =
      if c = '\n' ∨ c = '\r' then lex (.inside acc) rest
      else if c = '\x00' ∨ c ∈ numeric then none
      else match escape c with
        | some e => lex (.inside (e :: acc)) rest
        | none => lex (.inside (c :: '\\' :: acc)) rest := rfl

/-! ## Dictionaries -/

/-- Reads entries, each with a comma behind it, into `done` or into the inner
dictionary that is open. -/
def entries (done : Dict (List Char) (Dict (List Char) α)) :
    Option (List Char × Dict (List Char) α) → List (Token α) →
      Option (Dict (List Char) (Dict (List Char) α))
  | none, [.rbrace] => some done
  | none, .str k :: .colon :: .lbrace :: rest => entries done (some (k, [])) rest
  | some (k, d), .str m :: .colon :: .value v :: .comma :: rest =>
    entries done (some (k, Dict.set d m v)) rest
  | some (k, d), .rbrace :: .comma :: rest => entries (Dict.set done k d) none rest
  | _, _ => none

def literalEval (text : List (Symbol α)) : Option (Dict (List Char) (Dict (List Char) α)) := do
  match ← lex .outside text with
  | .lbrace :: rest => entries [] none rest
  | _ => none

/-! ## Strings that quotes alone make a literal -/

/-- A backslash before `c` means itself. -/
def Verbatim (c : Char) : Prop := c ∉ breaks ∧ c ∉ numeric ∧ escape c = none

instance : DecidablePred Verbatim := fun _ => inferInstanceAs (Decidable (_ ∧ _))

def Ordinary (c : Char) : Prop := c ≠ '\'' ∧ c ≠ '\\' ∧ c ∉ breaks

instance : DecidablePred Ordinary := fun _ => inferInstanceAs (Decidable (_ ∧ _))

/-- No quote, no line break, and no backslash that has a meaning. -/
def plain : List Char → Bool
  | [] => true
  | [c] => decide (Ordinary c)
  | c :: d :: rest =>
    if c = '\\' then decide (Verbatim d) && plain rest else decide (Ordinary c) && plain (d :: rest)

def chars (s : List Char) : List (Symbol α) := s.map .char

theorem chars_cons (c : Char) (s : List Char) : (chars (c :: s) : List (Symbol α)) = .char c :: chars s := rfl

theorem lex_ordinary {c : Char} (h : Ordinary c) (acc : List Char) (rest : List (Symbol α)) :
    lex (.inside acc) (.char c :: rest) = lex (.inside (c :: acc)) rest := by
  rw [lex_inside, if_neg h.1, if_neg h.2.1, if_neg h.2.2]

theorem lex_verbatim {c : Char} (h : Verbatim c) (acc : List Char) (rest : List (Symbol α)) :
    lex (.inside acc) (.char '\\' :: .char c :: rest) = lex (.inside (c :: '\\' :: acc)) rest := by
  obtain ⟨breaking, number, kept⟩ := h
  simp only [breaks, List.mem_cons, List.not_mem_nil, or_false, not_or] at breaking
  rw [lex_inside, if_neg (by decide), if_pos rfl, lex_escaped, if_neg (by tauto),
    if_neg (by tauto), kept]

/-- A plain text goes into the string that is open, as it stands. -/
theorem lex_plain (s : List Char) (h : plain s = true) (acc : List Char) (rest : List (Symbol α)) :
    lex (.inside acc) (chars s ++ rest) = lex (.inside (s.reverse ++ acc)) rest := by
  induction s using plain.induct generalizing acc with
  | case1 => rfl
  | case2 c => exact lex_ordinary (by simpa [plain] using h) acc rest
  | case3 d s ih =>
    simp only [plain, if_true, Bool.and_eq_true, decide_eq_true_eq] at h
    simp only [chars_cons, List.cons_append]
    rw [lex_verbatim h.1, ih h.2]
    simp
  | case4 c d s ne ih =>
    simp only [plain, if_neg ne, Bool.and_eq_true, decide_eq_true_eq] at h
    rw [chars_cons, List.cons_append, lex_ordinary h.1, ih h.2]
    simp

/-- A plain text in quotes is one token. -/
theorem lex_quoted (s : List Char) (h : plain s = true) (rest : List (Symbol α)) :
    lex .outside (.char '\'' :: (chars s ++ .char '\'' :: rest)) =
      (lex .outside rest).map (.str s :: ·) := by
  rw [lex_outside, if_pos rfl, lex_plain s h, lex_inside, if_pos rfl]
  simp

/-! ## Lines that open an inner dictionary -/

/-- What stands behind the key. -/
def opening : List Char := ['\'', ':', ' ', '{', '\n']

theorem lex_opening (acc : List Char) (rest : List (Symbol α)) :
    lex (.inside acc) (chars opening ++ rest) =
      (lex .outside rest).map fun ts => .str acc.reverse :: .colon :: .lbrace :: ts := by
  simp only [opening, chars, List.map_cons, List.map_nil, List.cons_append, List.nil_append]
  simp [lex_outside, lex_inside, blanks, mark, Function.comp_def]

/-- Read from outside, the quote that should close opens a string, and the line
ends in it. -/
theorem lex_opening_outside (rest : List (Symbol α)) :
    lex .outside (chars opening ++ rest) = none := by
  simp only [opening, chars, List.map_cons, List.map_nil, List.cons_append, List.nil_append]
  simp [lex_outside, lex_inside, breaks]

theorem lex_opening_escaped (acc : List Char) (rest : List (Symbol α)) :
    lex (.escaped acc) (chars opening ++ rest) = none := by
  simp only [opening, chars, List.map_cons, List.map_nil, List.cons_append, List.nil_append]
  simp [lex_inside, lex_escaped, breaks, numeric, escape]

/-- The tokens are some whose strings satisfy `P`, and those of `rest`. -/
def Reads (tokens : List (Token α)) (rest : List (Symbol α)) (P : List Char → Prop) : Prop :=
  ∃ front back, tokens = front ++ back ∧ lex .outside rest = some back ∧ ∀ s, .str s ∈ front → P s

theorem Reads.mono {tokens : List (Token α)} {rest : List (Symbol α)} {P Q : List Char → Prop}
    (h : Reads tokens rest P) (imp : ∀ s, P s → Q s) : Reads tokens rest Q := by
  obtain ⟨front, back, eq, run, all⟩ := h
  exact ⟨front, back, eq, run, fun s hs => imp s (all s hs)⟩

/-- What a scan that stands at `place` before `cs` can still read as a string:
the plain text that it is in, or something shorter. -/
def Readable : Place → List Char → List Char → Prop
  | .outside, cs, s => s.length < cs.length
  | .inside acc, cs, s => s = acc.reverse ++ cs ∧ plain cs = true ∨ s.length < acc.length + cs.length
  | .escaped acc, cs, s =>
    s = acc.reverse ++ '\\' :: cs ∧ plain ('\\' :: cs) = true ∨ s.length < acc.length + 1 + cs.length

theorem plain_cons {c : Char} {cs : List Char} (hc : Ordinary c) (h : plain cs = true) :
    plain (c :: cs) = true := by
  cases cs with
  | nil => simpa [plain] using hc
  | cons d ds =>
    rw [plain, if_neg hc.2.1]
    simp [hc, h]

theorem plain_verbatim {c : Char} {cs : List Char} (hc : Verbatim c) (h : plain cs = true) :
    plain ('\\' :: c :: cs) = true := by
  rw [plain, if_pos rfl]
  simp [hc, h]

theorem Readable.length_le {acc cs s : List Char} (h : Readable (.inside acc) cs s) :
    s.length ≤ acc.length + cs.length := by
  rcases h with ⟨rfl, -⟩ | lt
  · simp
  · exact Nat.le_of_lt lt

theorem mark_ne_str {c : Char} {t : Token α} (h : mark c = some t) (s : List Char) : t ≠ .str s := by
  rintro rfl
  unfold mark at h
  split at h <;> cases h

/-- The tokens of a line of which `cs` is what remains of the key. -/
def LineReads (rest : List (Symbol α)) (cs : List Char) : Prop :=
  ∀ place tokens, lex place (chars cs ++ (chars opening ++ rest)) = some tokens →
    Reads tokens rest (Readable place cs)

theorem LineReads.nil (rest : List (Symbol α)) : LineReads rest [] := by
  intro place tokens run
  rw [chars, List.map_nil, List.nil_append] at run
  cases place with
  | outside =>
    rw [lex_opening_outside] at run
    cases run
  | inside acc =>
    rw [lex_opening] at run
    obtain ⟨back, hback, rfl⟩ := Option.map_eq_some_iff.mp run
    refine ⟨[.str acc.reverse, .colon, .lbrace], back, rfl, hback, ?_⟩
    intro s hs
    obtain rfl : s = acc.reverse := by simpa using hs
    exact .inl ⟨by simp, rfl⟩
  | escaped acc =>
    rw [lex_opening_escaped] at run
    cases run

section Step
variable {rest : List (Symbol α)} {cs : List Char} (ih : LineReads rest cs) (c : Char)
  {tokens : List (Token α)}
include ih

theorem LineReads.outside
    (run : lex .outside (.char c :: (chars cs ++ (chars opening ++ rest))) = some tokens) :
    Reads tokens rest (Readable .outside (c :: cs)) := by
  rw [lex_outside] at run
  split at run
  · refine (ih _ _ run).mono fun s hs => ?_
    have := hs.length_le
    simp only [Readable, List.length_cons, List.length_nil] at this ⊢
    omega
  · split at run
    · exact (ih _ _ run).mono fun s hs => Nat.lt_succ_of_lt hs
    · split at run
      · rename_i t known
        obtain ⟨ts, hts, rfl⟩ := Option.map_eq_some_iff.mp run
        obtain ⟨front, back, rfl, hback, all⟩ := ih _ _ hts
        refine ⟨t :: front, back, rfl, hback, fun s hs => ?_⟩
        cases List.mem_cons.mp hs with
        | inl eq =>
          exact absurd eq.symm (mark_ne_str known s)
        | inr hs =>
          exact Nat.lt_succ_of_lt (all s hs)
      · cases run

theorem LineReads.inside {acc : List Char}
    (run : lex (.inside acc) (.char c :: (chars cs ++ (chars opening ++ rest))) = some tokens) :
    Reads tokens rest (Readable (.inside acc) (c :: cs)) := by
  rw [lex_inside] at run
  split at run
  · obtain ⟨ts, hts, rfl⟩ := Option.map_eq_some_iff.mp run
    obtain ⟨front, back, rfl, hback, all⟩ := ih _ _ hts
    refine ⟨.str acc.reverse :: front, back, rfl, hback, fun s hs => .inr ?_⟩
    cases List.mem_cons.mp hs with
    | inl eq =>
      cases eq
      simp
    | inr hs =>
      have : s.length < cs.length := all s hs
      simp only [List.length_cons]
      omega
  · rename_i quote
    split at run
    · rename_i backslash
      subst backslash
      refine (ih _ _ run).mono fun s hs => ?_
      cases hs with
      | inl same =>
        exact .inl same
      | inr lt =>
        right
        simp only [List.length_cons]
        omega
    · rename_i backslash
      split at run
      · cases run
      · rename_i breaking
        refine (ih _ _ run).mono fun s hs => ?_
        rcases hs with ⟨rfl, h⟩ | lt
        · exact .inl ⟨by simp, plain_cons ⟨quote, backslash, breaking⟩ h⟩
        · right
          simp only [List.length_cons] at lt ⊢
          omega

theorem LineReads.escaped {acc : List Char}
    (run : lex (.escaped acc) (.char c :: (chars cs ++ (chars opening ++ rest))) = some tokens) :
    Reads tokens rest (Readable (.escaped acc) (c :: cs)) := by
  rw [lex_escaped] at run
  split at run
  · refine (ih _ _ run).mono fun s hs => .inr ?_
    have := hs.length_le
    simp only [List.length_cons]
    omega
  · rename_i continued
    split at run
    · cases run
    · rename_i number
      split at run
      · refine (ih _ _ run).mono fun s hs => .inr ?_
        have := hs.length_le
        simp only [List.length_cons] at this ⊢
        omega
      · rename_i kept
        have verbatim : Verbatim c := by
          rw [not_or] at continued number
          refine ⟨?_, number.2, kept⟩
          simp only [breaks, List.mem_cons, List.not_mem_nil, or_false, not_or]
          exact ⟨continued.1, continued.2, number.1⟩
        refine (ih _ _ run).mono fun s hs => ?_
        rcases hs with ⟨rfl, h⟩ | lt
        · exact .inl ⟨by simp, plain_verbatim verbatim h⟩
        · right
          simp only [List.length_cons] at lt ⊢
          omega

end Step

/-- By induction on the rest of the key; only the place where every character so
far went into one string leads to the key itself. -/
theorem lex_line (rest : List (Symbol α)) (cs : List Char) : LineReads rest cs := by
  induction cs with
  | nil => exact LineReads.nil rest
  | cons c cs ih =>
    intro place tokens run
    rw [chars_cons, List.cons_append] at run
    cases place with
    | outside => exact ih.outside c run
    | inside acc => exact ih.inside c run
    | escaped acc => exact ih.escaped c run

theorem lex_plain_key_line {key : List Char} (h : plain key = true) (rest : List (Symbol α)) :
    lex .outside (.char '\'' :: (chars key ++ (chars opening ++ rest))) =
      (lex .outside rest).map fun ts => .str key :: .colon :: .lbrace :: ts := by
  rw [lex_outside, if_pos rfl, lex_plain key h, lex_opening]
  simp

/-- A key in quotes is read as itself when it is plain, and otherwise its line
holds only strings that are shorter. -/
theorem lex_key_line (key : List Char) (rest : List (Symbol α)) {tokens : List (Token α)}
    (run : lex .outside (.char '\'' :: (chars key ++ (chars opening ++ rest))) = some tokens) :
    Reads tokens rest fun s =>
      s = key ∧ plain key = true ∨ plain key = false ∧ s.length < key.length := by
  cases h : plain key with
  | true =>
    rw [lex_plain_key_line h] at run
    obtain ⟨back, hback, rfl⟩ := Option.map_eq_some_iff.mp run
    refine ⟨[.str key, .colon, .lbrace], back, rfl, hback, fun s hs => .inl ⟨?_, rfl⟩⟩
    simpa using hs
  | false =>
    rw [lex_outside, if_pos rfl] at run
    refine (lex_line rest key _ _ run).mono fun s hs => .inr ⟨rfl, ?_⟩
    simpa [Readable, h] using hs

/-! ## Keys -/

theorem Dict.keys_set {κ β : Type*} [DecidableEq κ] (d : Dict κ β) (k : κ) (v : β) {x : κ}
    (h : x ∈ (Dict.set d k v).map Prod.fst) : x = k ∨ x ∈ d.map Prod.fst := by
  unfold Dict.set at h
  split at h
  · have same : (d.map fun e => if e.1 = k then (k, v) else e).map Prod.fst = d.map Prod.fst := by
      rw [List.map_map]
      apply List.map_congr_left
      intro e _
      by_cases he : e.1 = k
      · simp [he]
      · simp [he]
    rw [same] at h
    exact .inr h
  · simpa [or_comm] using h

theorem Dict.set_new {κ β : Type*} [DecidableEq κ] {d : Dict κ β} {k : κ} (v : β)
    (h : k ∉ d.map Prod.fst) : Dict.set d k v = d ++ [(k, v)] := if_neg h

/-- Every key that is read was a string of the text. -/
theorem entries_keys {done out : Dict (List Char) (Dict (List Char) α)}
    {cur : Option (List Char × Dict (List Char) α)} {tokens : List (Token α)}
    (run : entries done cur tokens = some out) {k : List Char} (hk : k ∈ out.map Prod.fst) :
    k ∈ done.map Prod.fst ∨ (∃ d, cur = some (k, d)) ∨ .str k ∈ tokens := by
  induction done, cur, tokens using entries.induct with
  | case1 done =>
    rw [entries] at run
    cases run
    exact .inl hk
  | case2 done k' rest ih =>
    rw [entries] at run
    rcases ih run with hd | ⟨d, hc⟩ | hs
    · exact .inl hd
    · cases hc
      simp
    · simp [hs]
  | case3 done k' d m v rest ih =>
    rw [entries] at run
    rcases ih run with hd | ⟨d', hc⟩ | hs
    · exact .inl hd
    · cases hc
      exact .inr (.inl ⟨d, rfl⟩)
    · simp [hs]
  | case4 done k' d rest ih =>
    rw [entries] at run
    rcases ih run with hd | ⟨d', hc⟩ | hs
    · rcases Dict.keys_set done k' d hd with rfl | hd
      · exact .inr (.inl ⟨d, rfl⟩)
      · exact .inl hd
    · cases hc
    · simp [hs]
  | case5 => simp [entries] at run

/-! ## What a dictionary's own tokens read as -/

def innerTokens (d : Dict (List Char) α) : List (Token α) :=
  d.flatMap fun (k, v) => [.str k, .colon, .value v, .comma]

theorem entries_inner {done : Dict (List Char) (Dict (List Char) α)} {k : List Char}
    (l d : Dict (List Char) α) (rest : List (Token α)) (distinct : ((d ++ l).map Prod.fst).Nodup) :
    entries done (some (k, d)) (innerTokens l ++ .rbrace :: .comma :: rest) =
      entries (Dict.set done k (d ++ l)) none rest := by
  induction l generalizing d with
  | nil => simp [innerTokens, entries]
  | cons e l ih =>
    have fresh : e.1 ∉ d.map Prod.fst := by
      rw [List.map_append, List.nodup_append] at distinct
      exact fun mem => distinct.2.2 _ mem e.1 List.mem_cons_self rfl
    have step : entries done (some (k, d)) (innerTokens (e :: l) ++ .rbrace :: .comma :: rest) =
        entries done (some (k, Dict.set d e.1 e.2)) (innerTokens l ++ .rbrace :: .comma :: rest) := by
      simp [innerTokens, entries]
    rw [step, Dict.set_new e.2 fresh, ih (d ++ [e]) (by simpa using distinct)]
    simp

def outerTokens (d : Dict (List Char) (Dict (List Char) α)) : List (Token α) :=
  d.flatMap fun (k, v) => .str k :: .colon :: .lbrace :: (innerTokens v ++ [.rbrace, .comma])

/-- A dictionary's tokens, entry by entry, give the dictionary. -/
theorem entries_outer (l done : Dict (List Char) (Dict (List Char) α))
    (distinct : ((done ++ l).map Prod.fst).Nodup) (inner : ∀ e ∈ l, (e.2.map Prod.fst).Nodup) :
    entries done none (outerTokens l ++ [.rbrace]) = some (done ++ l) := by
  induction l generalizing done with
  | nil => simp [outerTokens, entries]
  | cons e l ih =>
    have fresh : e.1 ∉ done.map Prod.fst := by
      rw [List.map_append, List.nodup_append] at distinct
      exact fun mem => distinct.2.2 _ mem e.1 List.mem_cons_self rfl
    have step : entries done none (outerTokens (e :: l) ++ [.rbrace]) =
        entries done (some (e.1, []))
          (innerTokens e.2 ++ .rbrace :: .comma :: (outerTokens l ++ [.rbrace])) := by
      simp [outerTokens, entries]
    rw [step, entries_inner e.2 [] _ (inner e List.mem_cons_self), List.nil_append,
      Dict.set_new e.2 fresh, ih (done ++ [e]) (by simpa using distinct)
        fun e' he => inner e' (List.mem_cons_of_mem e he)]
    simp

end PyLiteral
