import MallocLab.Lib.Logged

set_option autoImplicit false

/-! # Two runs of one program

`Respects R m` compares the runs of `m` from two states that `R` relates: they emit the same
events, and either both return, with the same value and in related states, or neither does. With an
`R` that leaves a part of the state open this says that `m` does not look at that part; with one
that fixes it, that `m` does not change it. There is one rule for each way to build a program.
-/

namespace Logged

variable {σ ε α β : Type} {R : σ → σ → Prop}

def Respects (R : σ → σ → Prop) (m : Logged σ ε α) : Prop :=
  ∀ s s', R s s' → m.log s = m.log s' ∧
    Option.Rel (fun x x' => x.1 = x'.1 ∧ R x.2 x'.2) (m.out s) (m.out s')

theorem Respects.pure (a : α) : Respects R (pure a : Logged σ ε α) :=
  fun _ _ h => ⟨rfl, Option.Rel.some ⟨rfl, h⟩⟩

theorem Respects.never : Respects R (never : Logged σ ε α) :=
  fun _ _ _ => ⟨rfl, Option.Rel.none⟩

theorem Respects.reads {f : σ → α} (hf : ∀ s s', R s s' → f s = f s') :
    Respects R (reads f : Logged σ ε α) :=
  fun s s' h => ⟨rfl, Option.Rel.some ⟨hf s s' h, h⟩⟩

theorem Respects.modifies {f : σ → σ} (hf : ∀ s s', R s s' → R (f s) (f s')) :
    Respects R (modifies f : Logged σ ε Unit) :=
  fun s s' h => ⟨rfl, Option.Rel.some ⟨rfl, hf s s' h⟩⟩

/-- **The sequencing rule.** The second program is given the same value in both runs. -/
theorem Respects.bind {m : Logged σ ε α} {f : α → Logged σ ε β} (hm : Respects R m)
    (hf : ∀ a, Respects R (f a)) : Respects R (m >>= f) := by
  intro s s' h
  obtain ⟨hlog, hout⟩ := hm s s' h
  rw [log_bind, log_bind, out_bind, out_bind, hlog]
  cases hm1 : m.out s with
  | none =>
      rw [hm1] at hout
      cases hm2 : m.out s' with
      | none => exact ⟨rfl, Option.Rel.none⟩
      | some x' =>
          rw [hm2] at hout
          cases hout
  | some x =>
      rw [hm1] at hout
      cases hm2 : m.out s' with
      | none =>
          rw [hm2] at hout
          cases hout
      | some x' =>
          rw [hm2] at hout
          obtain ⟨a, t⟩ := x
          obtain ⟨a', t'⟩ := x'
          obtain ⟨rfl, hR⟩ : a = a' ∧ R t t' := by
            cases hout
            assumption
          obtain ⟨hlog', hout'⟩ := hf a t t' hR
          exact ⟨congrArg (m.log s' ++ ·) hlog', hout'⟩

theorem Respects.ite {c : Prop} [Decidable c] {m n : Logged σ ε α} (hm : Respects R m)
    (hn : Respects R n) : Respects R (if c then m else n) := by
  by_cases h : c
  · rw [if_pos h]
    exact hm
  · rw [if_neg h]
    exact hn

/-- A program over a part of the state that is the same in both. -/
theorem Respects.zoom {τ : Type} {S : τ → τ → Prop} {get : τ → σ} {put : σ → τ → τ}
    {m : Logged σ ε α} (hget : ∀ t t', S t t' → get t = get t')
    (hput : ∀ s t t', S t t' → S (put s t) (put s t')) : Respects S (zoom get put m) := by
  intro t t' h
  show m.log (get t) = m.log (get t') ∧
    Option.Rel _ ((m.out (get t)).map _) ((m.out (get t')).map _)
  rw [← hget t t' h]
  refine ⟨rfl, ?_⟩
  rcases m.out (get t) with _ | ⟨a, s⟩
  · exact Option.Rel.none
  · exact Option.Rel.some ⟨rfl, hput s t t' h⟩

end Logged
