import Mathlib.Data.List.Basic
import Mathlib.Data.List.Infix

set_option autoImplicit false

/-! # Lists of commands

A step that can fail, run over a list of commands that is written with loops. The rules are for
triples `Triple step P A as B`: from a state in `A` the commands `as` lead to a state in `B`, if
they lead anywhere, and all states on the way are in `P`. There is one rule for each way to write
a list of commands, so a loop needs an invariant for its rounds and nothing else.
-/

namespace Commands

variable {σ α : Type}

/-- The commands one after the other, until one fails. -/
def run (step : σ → α → Option σ) : σ → List α → Option σ
  | s, [] => some s
  | s, a :: as => (step s a).bind (fun s' => run step s' as)

theorem run_append (step : σ → α → Option σ) (s : σ) (as bs : List α) :
    run step s (as ++ bs) = (run step s as).bind (fun s' => run step s' bs) := by
  induction as generalizing s with
  | nil => rfl
  | cons a as ih =>
      rw [List.cons_append, run, run]
      cases step s a with
      | none => rfl
      | some s' => exact ih s'

/-- A step that does not fail is a fold. -/
theorem run_foldl (f : σ → α → σ) (s : σ) (as : List α) :
    run (fun s a => some (f s a)) s as = some (as.foldl f s) := by
  induction as generalizing s with
  | nil => rfl
  | cons a as ih => exact ih (f s a)

/-- A prefix ends in the first list, or in the second. -/
theorem prefix_append_cases {pre as bs : List α} (h : pre <+: as ++ bs) :
    pre <+: as ∨ ∃ pre', pre = as ++ pre' ∧ pre' <+: bs := by
  obtain ⟨suf, heq⟩ := h
  rcases List.append_eq_append_iff.mp heq with ⟨as', rfl, -⟩ | ⟨pre', rfl, hbs⟩
  · exact Or.inl (List.prefix_append _ _)
  · exact Or.inr ⟨pre', rfl, suf, hbs.symm⟩

/-- **Triples**, with what holds on the way. -/
def Triple (step : σ → α → Option σ) (P A : σ → Prop) (as : List α) (B : σ → Prop) : Prop :=
  ∀ s, A s → (∀ pre s', pre <+: as → run step s pre = some s' → P s') ∧
    ∀ s', run step s as = some s' → B s'

section Rules

variable {step : σ → α → Option σ} {P A B C : σ → Prop} {as bs : List α}

theorem Triple.nil (h : ∀ s, A s → P s ∧ B s) : Triple step P A [] B := by
  intro s hs
  refine ⟨fun pre s' hpre hrun => ?_, fun s' hrun => ?_⟩
  · rw [List.prefix_nil.mp hpre] at hrun
    cases hrun
    exact (h s hs).1
  · cases hrun
    exact (h s hs).2

/-- **One command** in front. -/
theorem Triple.cons {a : α} (hP : ∀ s, A s → P s) (h : ∀ s s', A s → step s a = some s' → B s')
    (hrest : Triple step P B as C) : Triple step P A (a :: as) C := by
  intro s hs
  refine ⟨fun pre s' hpre hrun => ?_, fun s' hrun => ?_⟩
  · rcases List.prefix_cons_iff.mp hpre with rfl | ⟨pre, rfl, hpre'⟩
    · cases hrun
      exact hP s hs
    · obtain ⟨s1, hstep, hrun⟩ := Option.bind_eq_some_iff.mp hrun
      exact (hrest s1 (h s s1 hs hstep)).1 pre s' hpre' hrun
  · obtain ⟨s1, hstep, hrun⟩ := Option.bind_eq_some_iff.mp hrun
    exact (hrest s1 (h s s1 hs hstep)).2 s' hrun

/-- **The sequencing rule.** -/
theorem Triple.append (h₁ : Triple step P A as B) (h₂ : Triple step P B bs C) :
    Triple step P A (as ++ bs) C := by
  intro s hs
  refine ⟨fun pre s' hpre hrun => ?_, fun s' hrun => ?_⟩
  · rcases prefix_append_cases hpre with hpre' | ⟨pre, rfl, hpre'⟩
    · exact (h₁ s hs).1 pre s' hpre' hrun
    · rw [run_append] at hrun
      obtain ⟨s1, hrun₁, hrun₂⟩ := Option.bind_eq_some_iff.mp hrun
      exact (h₂ s1 ((h₁ s hs).2 s1 hrun₁)).1 pre s' hpre' hrun₂
  · rw [run_append] at hrun
    obtain ⟨s1, hrun₁, hrun₂⟩ := Option.bind_eq_some_iff.mp hrun
    exact (h₂ s1 ((h₁ s hs).2 s1 hrun₁)).2 s' hrun₂

theorem Triple.weaken {A' B' : σ → Prop} (h : Triple step P A as B) (hA : ∀ s, A' s → A s)
    (hB : ∀ s, B s → B' s) : Triple step P A' as B' :=
  fun s hs => ⟨(h s (hA s hs)).1, fun s' hrun => hB s' ((h s (hA s hs)).2 s' hrun)⟩

/-- **The loop rule**, with an invariant for each round. -/
theorem Triple.loop {I : Nat → σ → Prop} {body : Nat → List α} {n : Nat} (h0 : ∀ s, I 0 s → P s)
    (h : ∀ i < n, Triple step P (I i) (body i) (I (i + 1))) :
    Triple step P (I 0) ((List.range n).flatMap body) (I n) := by
  induction n with
  | zero => exact Triple.nil (fun s hs => ⟨h0 s hs, hs⟩)
  | succ n ih =>
      rw [List.range_succ, List.flatMap_append, List.flatMap_singleton]
      exact (ih fun i hi => h i (Nat.lt_succ_of_lt hi)).append (h n (Nat.lt_succ_self n))

end Rules

end Commands
