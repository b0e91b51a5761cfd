import Mathlib.Tactic

set_option autoImplicit false

/-! # The past of a list

A list is read as a history, the latest entry last. `Since P Q l` says that an entry with `P` has
come that no entry with `Q` has followed; `AtEach B l` says that each entry stands in the
relation `B` to the history before it. Both are known from the last entry (`since_concat`,
`atEach_concat`), so an induction over a history sees one entry at a time. In a history that
opens and closes in turn, each opening has exactly one closing before the next one
(`closed_once`).
-/

namespace Past

variable {α : Type}

/-- An entry with `P` came, and none with `Q` after it. -/
def Since (P Q : α → Prop) (l : List α) : Prop :=
  ∃ pre x post, l = pre ++ x :: post ∧ P x ∧ ∀ y ∈ post, ¬Q y

/-- Every entry is as `B` says, given the history before it. -/
def AtEach (B : List α → α → Prop) (l : List α) : Prop :=
  ∀ pre x post, l = pre ++ x :: post → B pre x

/-- A list that ends with an entry is split at that entry, or before. -/
theorem concat_eq {l pre post : List α} {x y : α} (h : l ++ [x] = pre ++ y :: post) :
    (l = pre ∧ x = y ∧ post = []) ∨ ∃ post', post = post' ++ [x] ∧ l = pre ++ y :: post' := by
  rcases List.eq_nil_or_concat post with rfl | ⟨post', z, rfl⟩
  · left
    obtain ⟨hl, hx⟩ := List.append_inj' h rfl
    exact ⟨hl, List.cons.inj hx |>.1, rfl⟩
  · right
    have h' : l ++ [x] = (pre ++ y :: post') ++ [z] := by simpa using h
    obtain ⟨hl, hx⟩ := List.append_inj' h' rfl
    obtain rfl : x = z := List.cons.inj hx |>.1
    exact ⟨post', List.concat_eq_append, hl⟩

section Rules

variable {P Q : α → Prop} {B : List α → α → Prop} {l : List α} {x : α}

@[simp] theorem not_since_nil : ¬Since P Q ([] : List α) := by
  rintro ⟨pre, x, post, h, -⟩
  simp at h

theorem since_concat : Since P Q (l ++ [x]) ↔ P x ∨ Since P Q l ∧ ¬Q x := by
  constructor
  · rintro ⟨pre, y, post, h, hP, hQ⟩
    rcases concat_eq h with ⟨-, rfl, -⟩ | ⟨post', rfl, hl⟩
    · exact Or.inl hP
    · refine Or.inr ⟨⟨pre, y, post', hl, hP, fun z hz => hQ z ?_⟩, hQ x ?_⟩
      · exact List.mem_append_left _ hz
      · exact List.mem_append_right _ List.mem_cons_self
  · rintro (hP | ⟨⟨pre, y, post, rfl, hP, hQ⟩, hx⟩)
    · exact ⟨l, x, [], rfl, hP, fun y hy => nomatch hy⟩
    · refine ⟨pre, y, post ++ [x], by simp, hP, fun z hz => ?_⟩
      rcases List.mem_append.mp hz with hz | hz
      · exact hQ z hz
      · rw [List.mem_singleton.mp hz]
        exact hx

/-- What has come is an entry of the list. -/
theorem Since.exists_mem (h : Since P Q l) : ∃ x ∈ l, P x := by
  obtain ⟨pre, x, post, rfl, hP, -⟩ := h
  exact ⟨x, by simp, hP⟩

@[simp] theorem atEach_nil : AtEach B [] := by
  intro pre x post h
  simp at h

theorem atEach_concat : AtEach B (l ++ [x]) ↔ AtEach B l ∧ B l x := by
  constructor
  · intro h
    refine ⟨fun pre y post hl => h pre y (post ++ [x]) ?_, h l x [] rfl⟩
    rw [hl]
    simp
  · rintro ⟨h, hx⟩ pre y post hl
    rcases concat_eq hl with ⟨rfl, rfl, -⟩ | ⟨post', -, hl⟩
    · exact hx
    · exact h pre y post' hl

theorem AtEach.mono {B' : List α → α → Prop} (h : AtEach B l) (hB : ∀ pre x, B pre x → B' pre x) :
    AtEach B' l := fun pre x post hl => hB pre x (h pre x post hl)

end Rules

/-! ## Opening and closing -/

/-- **Closed once.** When `P` opens and `Q` closes, an opening is only made when nothing is open
and a closing only when something is, and nothing is open at the end: then between an opening
and the next one there is exactly one closing. -/
theorem closed_once {P Q : α → Prop} [DecidablePred P] [DecidablePred Q] {l : List α}
    (hopen : AtEach (fun pre x => P x → ¬Since P Q pre) l)
    (hclose : AtEach (fun pre x => Q x → Since P Q pre) l) (hend : ¬Since P Q l)
    {pre post : List α} {x : α} (hl : l = pre ++ x :: post) (hx : P x) :
    (post.takeWhile (fun y => ¬P y)).countP (fun y => Q y) = 1 := by
  -- what is still to come, after a history that is open, and after one that is not
  have hcount : ∀ (rest past : List α), l = past ++ rest →
      (Since P Q past → (rest.takeWhile (fun y => ¬P y)).countP (fun y => Q y) = 1) ∧
        (¬Since P Q past → (rest.takeWhile (fun y => ¬P y)).countP (fun y => Q y) = 0) := by
    intro rest
    induction rest with
    | nil =>
        intro past hpast
        rw [List.append_nil] at hpast
        exact ⟨fun h => absurd (hpast ▸ h) hend, fun _ => rfl⟩
    | cons y rest ih =>
        intro past hpast
        have hnext := ih (past ++ [y]) (by rw [hpast]; simp)
        have hyP := hopen past y rest hpast
        have hyQ := hclose past y rest hpast
        by_cases hP : P y
        · refine ⟨fun h => absurd h (hyP hP), fun _ => ?_⟩
          rw [List.takeWhile_cons_of_neg (by simpa using hP)]
          rfl
        · rw [List.takeWhile_cons_of_pos (by simpa using hP)]
          by_cases hQ : Q y
          · have hclosed : ¬Since P Q (past ++ [y]) := by
              rw [since_concat]
              rintro (h | ⟨-, h⟩)
              · exact hP h
              · exact h hQ
            refine ⟨fun _ => ?_, fun h => absurd (hyQ hQ) h⟩
            rw [List.countP_cons_of_pos (by simpa using hQ), hnext.2 hclosed]
          · rw [List.countP_cons_of_neg (by simpa using hQ)]
            have hsame : Since P Q (past ++ [y]) ↔ Since P Q past := by
              rw [since_concat]
              constructor
              · rintro (h | ⟨h, -⟩)
                · exact absurd h hP
                · exact h
              · exact fun h => Or.inr ⟨h, hQ⟩
            exact ⟨fun h => hnext.1 (hsame.mpr h), fun h => hnext.2 (fun h' => h (hsame.mp h'))⟩
  apply (hcount post (pre ++ [x]) (by rw [hl]; simp)).1
  exact since_concat.mpr (Or.inl hx)

/-! ## One opening and one closing -/

section Pair

variable {α : Type} {P Q : α → Prop} {p : α → Bool} {l : List α} {x y : α}

/-- Entries that neither open nor close are of no account. -/
theorem since_filter (hP : ∀ z, P z → p z = true) (hQ : ∀ z, Q z → p z = true) :
    Since P Q (l.filter p) ↔ Since P Q l := by
  induction l using List.reverseRecOn with
  | nil => rfl
  | append_singleton l z ih =>
      rw [List.filter_append, since_concat]
      by_cases hz : p z = true
      · rw [List.filter_cons_of_pos hz, List.filter_nil, since_concat, ih]
      · have hzP : ¬P z := fun h => hz (hP z h)
        have hzQ : ¬Q z := fun h => hz (hQ z h)
        rw [List.filter_cons_of_neg hz, List.filter_nil, List.append_nil, ih]
        simp only [hzP, hzQ, false_or, not_false_eq_true, and_true]

/-- An entry that is put into a list is seen only by those that look for it. -/
theorem filter_insert_of_neg (l : List α) (n : Nat) (hy : ¬p y = true) :
    (l.take n ++ y :: l.drop n).filter p = l.filter p := by
  rw [List.filter_append, List.filter_cons_of_neg hy, ← List.filter_append, List.take_append_drop]

/-- An entry that is put behind the only one of its kind makes a pair with it. -/
theorem filter_insert_behind {n : Nat} (h : l.filter p = [x]) (hx : x ∈ l.take n)
    (hy : p y = true) : (l.take n ++ y :: l.drop n).filter p = [x, y] := by
  have hpx : p x = true := by
    have hmem : x ∈ l.filter p := by
      rw [h]
      exact List.mem_singleton_self x
    exact (List.mem_filter.mp hmem).2
  have hsplit : (l.take n).filter p ++ (l.drop n).filter p = [x] := by
    rw [← List.filter_append, List.take_append_drop, h]
  rw [List.filter_append, List.filter_cons_of_pos hy]
  rcases List.append_eq_singleton_iff.mp hsplit with ⟨hfront, -⟩ | ⟨hfront, hback⟩
  · have hmem : x ∈ (l.take n).filter p := List.mem_filter.mpr ⟨hx, hpx⟩
    rw [hfront] at hmem
    exact absurd hmem List.not_mem_nil
  · rw [hfront, hback]
    rfl

/-- Of an entry of a pair either nothing comes before, or the first of the pair does. -/
theorem pair_split {pre post : List α} {z : α} (h : l.filter p = [x, y])
    (hl : l = pre ++ z :: post) (hz : p z = true) :
    (z = x ∧ pre.filter p = []) ∨ (z = y ∧ pre.filter p = [x]) := by
  rw [hl, List.filter_append, List.filter_cons_of_pos hz] at h
  generalize pre.filter p = before at h ⊢
  rcases before with _ | ⟨w, _ | ⟨w', before⟩⟩
  · exact Or.inl ⟨(List.cons.inj h).1, rfl⟩
  · obtain ⟨hw, hrest⟩ := List.cons.inj h
    exact Or.inr ⟨(List.cons.inj hrest).1, by rw [hw]⟩
  · simp at h

/-- **A pair.** When one entry opens and a later one closes, and no other entry does either, the
opening comes while nothing is open, the closing while something is, and nothing is open at
the end. -/
theorem pair_rules (hP : ∀ z, P z → p z = true) (hQ : ∀ z, Q z → p z = true)
    (h : l.filter p = [x, y]) (hx : P x) (hxQ : ¬Q x) (hy : Q y) (hyP : ¬P y) :
    AtEach (fun pre z => P z → ¬Since P Q pre) l ∧ AtEach (fun pre z => Q z → Since P Q pre) l ∧
      ¬Since P Q l := by
  have hopen : Since P Q [x] := ⟨[], x, [], rfl, hx, fun _ hz => nomatch hz⟩
  refine ⟨fun pre z post hl hz => ?_, fun pre z post hl hz => ?_, ?_⟩
  · rw [← since_filter hP hQ]
    rcases pair_split h hl (hP z hz) with ⟨-, hpre⟩ | ⟨rfl, -⟩
    · rw [hpre]
      exact not_since_nil
    · exact absurd hz hyP
  · rw [← since_filter hP hQ]
    rcases pair_split h hl (hQ z hz) with ⟨rfl, -⟩ | ⟨-, hpre⟩
    · exact absurd hz hxQ
    · rw [hpre]
      exact hopen
  · rw [← since_filter hP hQ, h, show [x, y] = [x] ++ [y] from rfl, since_concat]
    rintro (hyP' | ⟨-, hyQ⟩)
    · exact hyP hyP'
    · exact hyQ hy

/-- The first of a pair comes before the second. -/
theorem pair_order (h : l.filter p = [x, y]) : ∃ L M R, l = L ++ x :: M ++ y :: R := by
  obtain ⟨L, rest, hl, -, -, hrest⟩ := List.filter_eq_cons_iff.mp h
  obtain ⟨M, R, hM, -, -, -⟩ := List.filter_eq_cons_iff.mp hrest
  exact ⟨L, M, R, by rw [hl, hM, List.append_assoc, List.cons_append]⟩

/-- What only one of a pair is, only one entry is. -/
theorem pair_once [DecidablePred P] (hP : ∀ z, P z → p z = true) (h : l.filter p = [x, y])
    (hone : P x ↔ ¬P y) : l.countP (fun z => P z) = 1 := by
  have hkept : l.countP (fun z => P z) = (l.filter p).countP (fun z => P z) := by
    rw [List.countP_filter]
    apply List.countP_congr
    intro z _
    rw [Bool.and_eq_true, decide_eq_true_eq]
    exact ⟨fun hz => ⟨hz, hP z hz⟩, fun hz => hz.1⟩
  rw [hkept, h]
  by_cases hx : P x
  · have hy : ¬P y := hone.mp hx
    simp [hx, hy]
  · have hy : P y := not_not.mp (fun hy => hx (hone.mpr hy))
    simp [hx, hy]

end Pair

end Past
