import Mathlib.Data.List.TakeWhile
import Mathlib.Tactic

set_option autoImplicit false

/-! # Words and numbers of a line of text

The words of a line are its maximal pieces without blanks, and the number of a word is what its
digits stand for in base 10. Both are given with what a program that writes such a line needs to
read it back: words put together with blanks are found again, and so is a number that was
printed.
-/

namespace Text

def isBlank (c : Char) : Bool :=
  c = ' ' || c = '\t' || c = '\n' || c = '\r' || c = '\x0b' || c = '\x0c'

/-- The words of a line. -/
def words (s : String) : List String :=
  ((s.toList.splitOnP isBlank).filter (· ≠ [])).map String.ofList

/-- A word on its own: not empty, and without a blank. -/
def IsWord (w : String) : Prop := w.toList ≠ [] ∧ ∀ c ∈ w.toList, isBlank c = false

/-- The number that the digits at the start of a string stand for, after blanks; 0 without
digits. -/
def number (s : String) : Nat :=
  Nat.ofDigitChars 10 ((s.toList.dropWhile isBlank).takeWhile Char.isDigit) 0

/-! ## Words -/

/-- No piece holds a separator. -/
theorem splitOnP_pieces {α : Type} {p : α → Bool} {l piece : List α} (h : piece ∈ l.splitOnP p) :
    ∀ c ∈ piece, p c = false := by
  induction l generalizing piece with
  | nil =>
      rw [List.splitOnP_nil, List.mem_singleton] at h
      subst h
      simp
  | cons x l ih =>
      rw [List.splitOnP_cons_eq_if_modifyHead] at h
      -- a separator starts a new piece; any other element joins the first one
      by_cases hx : p x = true
      · rw [if_pos hx] at h
        rcases List.mem_cons.mp h with rfl | h
        · simp
        · exact ih h
      · rw [if_neg hx] at h
        rcases hs : l.splitOnP p with _ | ⟨first, rest⟩
        · exact absurd hs (List.splitOnP_ne_nil p l)
        · rw [hs, List.modifyHead_cons] at h
          rw [hs] at ih
          rcases List.mem_cons.mp h with rfl | h
          · intro c hc
            rcases List.mem_cons.mp hc with rfl | hc
            · exact Bool.eq_false_iff.mpr hx
            · exact ih List.mem_cons_self c hc
          · exact ih (List.mem_cons_of_mem _ h)

theorem isWord_of_mem {s w : String} (hw : w ∈ words s) : IsWord w := by
  obtain ⟨piece, hpiece, rfl⟩ := List.mem_map.mp hw
  obtain ⟨hmem, hne⟩ := List.mem_filter.mp hpiece
  rw [IsWord, String.toList_ofList]
  exact ⟨of_decide_eq_true hne, splitOnP_pieces hmem⟩

/-- A word in front of a blank is the first word. -/
theorem words_cons {w : String} (hw : IsWord w) (s : String) :
    words (w ++ " " ++ s) = w :: words s := by
  have hlist : (w ++ " " ++ s).toList = w.toList ++ ' ' :: s.toList := by
    rw [String.toList_append, String.toList_append, List.append_assoc]
    rfl
  have hsplit : (w ++ " " ++ s).toList.splitOnP isBlank
      = w.toList :: s.toList.splitOnP isBlank := by
    rw [hlist]
    exact List.splitOnP_append_cons_of_forall_mem hw.2 ' ' (by decide) s.toList
  unfold words
  rw [hsplit, List.filter_cons_of_pos (by simpa using hw.1), List.map_cons, String.ofList_toList]

theorem words_word {w : String} (hw : IsWord w) : words w = [w] := by
  unfold words
  rw [List.splitOnP_eq_singleton hw.2, List.filter_cons_of_pos (by simpa using hw.1),
    List.filter_nil, List.map_singleton, String.ofList_toList]

theorem isWord_letter {w : String} {c : Char} (hw : w.toList = [c]) (hc : isBlank c = false) :
    IsWord w := by
  rw [IsWord, hw]
  refine ⟨List.cons_ne_nil c [], fun d hd => ?_⟩
  rw [List.mem_singleton.mp hd]
  exact hc

/-! ## Numbers -/

theorem not_isBlank_of_isDigit {c : Char} (hc : c.isDigit = true) : isBlank c = false := by
  by_contra hblank
  rw [Bool.not_eq_false] at hblank
  simp only [isBlank, Bool.or_eq_true, decide_eq_true_eq] at hblank
  rcases hblank with ((((rfl | rfl) | rfl) | rfl) | rfl) | rfl <;> cases hc

theorem toList_toString (n : Nat) : (toString n).toList = Nat.toDigits 10 n := by
  rw [Nat.toString_eq_ofList_toDigits, String.toList_ofList]

theorem isDigit_toString (n : Nat) : ∀ c ∈ (toString n).toList, c.isDigit = true := by
  rw [toList_toString]
  exact fun c hc => Nat.isDigit_of_mem_toDigits (by norm_num) (le_refl _) hc

theorem isWord_toString (n : Nat) : IsWord (toString n) := by
  refine ⟨?_, fun c hc => not_isBlank_of_isDigit (isDigit_toString n c hc)⟩
  rw [toList_toString]
  exact Nat.toDigits_ne_nil

theorem isWord_toString_int (z : Int) : IsWord (toString z) := by
  cases z with
  | ofNat n => exact isWord_toString n
  | negSucc n =>
      have hsign : toString (Int.negSucc n) = "-" ++ toString (n + 1) := rfl
      rw [IsWord, hsign, String.toList_append]
      refine ⟨by simp, fun c hc => ?_⟩
      rcases List.mem_append.mp hc with hc | hc
      · obtain rfl : c = '-' := by simpa using hc
        rfl
      · exact (isWord_toString (n + 1)).2 c hc

/-- The number of a word of digits. -/
theorem number_digits {w : String} (hw : ∀ c ∈ w.toList, c.isDigit = true) :
    number w = Nat.ofDigitChars 10 w.toList 0 := by
  have hdrop : w.toList.dropWhile isBlank = w.toList := by
    generalize w.toList = digits at hw ⊢
    rcases digits with _ | ⟨c, cs⟩
    · rfl
    · apply List.dropWhile_cons_of_neg
      rw [not_isBlank_of_isDigit (hw c List.mem_cons_self)]
      decide
  rw [number, hdrop, List.takeWhile_eq_self_iff.mpr hw]

/-- **A printed number is read back.** -/
theorem number_toString (n : Nat) : number (toString n) = n := by
  rw [number_digits (isDigit_toString n), toList_toString]
  exact Nat.ofDigitChars_ten_toDigits

/-- Different numbers are printed differently. -/
theorem toString_inj {n m : Nat} : toString n = toString m ↔ n = m := by
  refine ⟨fun h => ?_, congrArg _⟩
  rw [← number_toString n, h, number_toString]

end Text
