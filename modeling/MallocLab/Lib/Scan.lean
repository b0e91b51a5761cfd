import MallocLab.Lib.Text

set_option autoImplicit false

/-! # Reading a stream piece by piece

What `%s`, `%d` and `%u` of C's `scanf` take from the front of a stream. A conversion skips blanks
and stops at the first character that does not fit, wherever lines end; numbers that are too large
become the largest one, as `strtol` and `strtoul` have it, for types of 32 bits. A stream is judged
by its tokens, the pieces between blanks: `%s` takes the next token (`tokens_scanWord`), and so does
a number when the token is made of digits (`scanNumber_token`).
-/

namespace Scan

open Text

/-! ## Conversions -/

/-- The stream behind its first blanks. -/
def skip (s : List Char) : List Char := s.dropWhile isBlank

/-- `%s`: the next word, and the rest of the stream; none at its end. -/
def scanWord (s : List Char) : Option (List Char × List Char) :=
  if skip s = [] then none
  else some ((skip s).takeWhile (fun c => !isBlank c), (skip s).dropWhile (fun c => !isBlank c))

/-- Digits; none when the stream does not start with one. -/
def scanDigits (s : List Char) : Option (Nat × List Char) :=
  if s.takeWhile Char.isDigit = [] then none
  else some (Nat.ofDigitChars 10 (s.takeWhile Char.isDigit) 0, s.dropWhile Char.isDigit)

/-- A number with its sign. -/
def scanNumber (s : List Char) : Option (Int × List Char) :=
  match skip s with
  | '-' :: s => (scanDigits s).map (fun r => (-(r.1 : Int), r.2))
  | '+' :: s => (scanDigits s).map (fun r => ((r.1 : Int), r.2))
  | s => (scanDigits s).map (fun r => ((r.1 : Int), r.2))

/-- The `int` for a number. -/
def clampInt (z : Int) : Int := max (-2 ^ 31) (min z (2 ^ 31 - 1))

/-- The `unsigned` for a number; `-1` is the largest one. -/
def clampUnsigned (z : Int) : Nat :=
  if -2 ^ 32 < z ∧ z < 2 ^ 32 then (z % 2 ^ 32).toNat else 2 ^ 32 - 1

/-- `%d` -/
def scanInt (s : List Char) : Option (Int × List Char) :=
  (scanNumber s).map (fun r => (clampInt r.1, r.2))

/-- `%u` -/
def scanUnsigned (s : List Char) : Option (Nat × List Char) :=
  (scanNumber s).map (fun r => (clampUnsigned r.1, r.2))

/-- A character of the format that stands for itself. -/
def scanChar (c : Char) : List Char → List Char
  | [] => []
  | d :: s => if d = c then s else d :: s

theorem clampInt_natCast {n : Nat} (hn : n < 2 ^ 31) : clampInt n = n := by
  unfold clampInt
  omega

theorem clampUnsigned_natCast {n : Nat} (hn : n < 2 ^ 32) : clampUnsigned n = n := by
  rw [clampUnsigned, if_pos (by omega)]
  omega

/-! ## Tokens -/

/-- The pieces of a stream between blanks. -/
def tokens (s : List Char) : List (List Char) := (s.splitOnP isBlank).filter (· ≠ [])

theorem words_eq (line : String) : words line = (tokens line.toList).map String.ofList := rfl

theorem tokens_append_cons (s t : List Char) {b : Char} (hb : isBlank b = true) :
    tokens (s ++ b :: t) = tokens s ++ tokens t := by
  rw [tokens, List.splitOnP_append_cons s t hb, List.filter_append]
  rfl

theorem tokens_cons_blank {b : Char} (hb : isBlank b = true) (s : List Char) :
    tokens (b :: s) = tokens s := tokens_append_cons [] s hb

theorem tokens_word {w : List Char} (hne : w ≠ []) (hw : ∀ c ∈ w, isBlank c = false) :
    tokens w = [w] := by
  rw [tokens, List.splitOnP_eq_singleton hw, List.filter_cons_of_pos (by simpa using hne),
    List.filter_nil]

theorem tokens_skip (s : List Char) : tokens (skip s) = tokens s := by
  induction s with
  | nil => rfl
  | cons c s ih =>
      rw [skip]
      by_cases hc : isBlank c = true
      · rw [List.dropWhile_cons_of_pos hc, tokens_cons_blank hc]
        exact ih
      · rw [List.dropWhile_cons_of_neg hc]

/-- The stream goes on with a blank or is at its end. -/
def AtBlank (s : List Char) : Prop := ∀ c ∈ s.head?, isBlank c = true

/-- The next token, in front of the rest. -/
structure Next (s w rest : List Char) : Prop where
  skipped : skip s = w ++ rest
  word : w ≠ [] ∧ ∀ c ∈ w, isBlank c = false
  stops : AtBlank rest

theorem Next.tokens {s w rest : List Char} (h : Next s w rest) :
    tokens s = w :: tokens rest := by
  rw [← tokens_skip s, h.skipped]
  rcases rest with _ | ⟨b, rest⟩
  · rw [List.append_nil, tokens_word h.word.1 h.word.2]
    rfl
  · have hb : isBlank b = true := h.stops b rfl
    rw [tokens_append_cons w rest hb, tokens_word h.word.1 h.word.2, tokens_cons_blank hb]
    rfl

theorem Next.length {s w rest : List Char} (h : Next s w rest) : rest.length < s.length := by
  have hskip : (skip s).length ≤ s.length := (List.dropWhile_suffix _).length_le
  have hw := List.length_pos_of_ne_nil h.word.1
  rw [h.skipped, List.length_append] at hskip
  omega

/-- **`%s`** takes the next token. -/
theorem scanWord_spec (s : List Char) :
    (scanWord s = none ∧ tokens s = []) ∨ ∃ w rest, scanWord s = some (w, rest) ∧ Next s w rest := by
  rw [scanWord]
  by_cases hend : skip s = []
  · rw [if_pos hend, ← tokens_skip s, hend]
    exact Or.inl ⟨rfl, rfl⟩
  · rw [if_neg hend]
    refine Or.inr ⟨_, _, rfl, (List.takeWhile_append_dropWhile).symm, ⟨?_, ?_⟩, ?_⟩
    · -- the first character that was not skipped is no blank
      intro hnil
      obtain ⟨c, cs, hcs⟩ := List.exists_cons_of_ne_nil hend
      have hc : isBlank c = false := by
        have hhead := List.head?_dropWhile_not isBlank s
        rw [show s.dropWhile isBlank = c :: cs from hcs] at hhead
        simpa using hhead
      rw [hcs, List.takeWhile_cons_of_pos (by simpa using hc)] at hnil
      cases hnil
    · intro c hc
      simpa using List.mem_takeWhile_imp hc
    · intro c hc
      have hhead := List.head?_dropWhile_not (fun c => !isBlank c) (skip s)
      rw [Option.mem_def.mp hc] at hhead
      simpa using hhead

theorem scanWord_token {s w : List Char} {ws : List (List Char)} (h : tokens s = w :: ws) :
    ∃ rest, scanWord s = some (w, rest) ∧ Next s w rest ∧ tokens rest = ws := by
  rcases scanWord_spec s with ⟨-, hnone⟩ | ⟨w', rest, hscan, hnext⟩
  · rw [h] at hnone
    cases hnone
  · rw [hnext.tokens] at h
    obtain ⟨rfl, rfl⟩ := List.cons.inj h
    exact ⟨rest, hscan, hnext, rfl⟩

theorem scanWord_end {s : List Char} (h : tokens s = []) : scanWord s = none := by
  rcases scanWord_spec s with ⟨hnone, -⟩ | ⟨w, rest, -, hnext⟩
  · exact hnone
  · rw [hnext.tokens] at h
    cases h

/-- The digits of a token end with it. -/
theorem Next.takeWhile_digits {s w rest : List Char} (h : Next s w rest)
    (hw : ∀ c ∈ w, c.isDigit = true) : (w ++ rest).takeWhile Char.isDigit = w := by
  have hstop : rest.takeWhile Char.isDigit = [] := by
    rcases rest with _ | ⟨b, rest⟩
    · rfl
    · have hb : isBlank b = true := h.stops b rfl
      refine List.takeWhile_cons_of_neg fun hdigit => ?_
      rw [not_isBlank_of_isDigit hdigit] at hb
      cases hb
  rw [List.takeWhile_append_of_pos hw, hstop, List.append_nil]

/-- **A number** that is a token of digits. -/
theorem scanNumber_token {s w : List Char} {ws : List (List Char)} (h : tokens s = w :: ws)
    (hw : ∀ c ∈ w, c.isDigit = true) :
    ∃ rest, scanNumber s = some (((Nat.ofDigitChars 10 w 0 : Nat) : Int), rest) ∧ Next s w rest ∧
      tokens rest = ws := by
  obtain ⟨rest, -, hnext, hrest⟩ := scanWord_token h
  refine ⟨rest, ?_, hnext, hrest⟩
  have htake := hnext.takeWhile_digits hw
  have hdrop : (w ++ rest).dropWhile Char.isDigit = rest := by
    have hall := List.takeWhile_append_dropWhile (p := Char.isDigit) (l := w ++ rest)
    rw [htake] at hall
    exact List.append_cancel_left hall
  have hdigits : scanDigits (w ++ rest) = some (Nat.ofDigitChars 10 w 0, rest) := by
    rw [scanDigits, htake, hdrop, if_neg hnext.word.1]
  obtain ⟨c, cs, rfl⟩ := List.exists_cons_of_ne_nil hnext.word.1
  have hc := hw c List.mem_cons_self
  unfold scanNumber
  rw [hnext.skipped]
  rw [List.cons_append] at hdigits ⊢
  -- a digit is no sign, so the last case is the one
  split
  · cases ‹_ :: _ = _›
    cases hc
  · cases ‹_ :: _ = _›
    cases hc
  · rw [hdigits]
    rfl

theorem scanChar_atBlank {s : List Char} (h : AtBlank s) {c : Char} (hc : isBlank c = false) :
    scanChar c s = s := by
  rcases s with _ | ⟨d, s⟩
  · rfl
  · refine if_neg fun hdc => ?_
    rw [← hdc, h d rfl] at hc
    cases hc

end Scan
