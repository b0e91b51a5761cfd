import MallocLab.Lib.Logged

set_option autoImplicit false

/-! # Postconditions on the log

`Yields T A m s Q` is a judgement like `Rely` with the log in the postcondition: given that every
event of the run satisfies `A`, the events that `m` emits, its value and its final state satisfy
`Q` whenever it returns, and it does return if `T`. So it is total correctness for `T := True`
and partial correctness for `T := False`, by the same rules. It is the judgement for programs
whose logs are compared with the runs of another system.
-/

namespace Logged

variable {σ ε α β : Type}

/-- Given that every event satisfies `A`: if `T`, then `m` returns from `s`; and when it returns,
its log, value and final state satisfy `Q`. -/
def Yields (T : Prop) (A : ε → Prop) (m : Logged σ ε α) (s : σ) (Q : List ε → α → σ → Prop) :
    Prop :=
  (∀ e ∈ m.log s, A e) → (T → (m.out s).isSome) ∧ ∀ a s', m.out s = some (a, s') → Q (m.log s) a s'

section YieldsRules

variable {T : Prop} {A G : ε → Prop} {s : σ} {Q Q' : List ε → α → σ → Prop}

/-- A run that is known. -/
theorem Yields.of_out {m : Logged σ ε α}
    (h : (∀ e ∈ m.log s, A e) → ∃ a s', m.out s = some (a, s') ∧ Q (m.log s) a s') :
    Yields T A m s Q := by
  intro hA
  obtain ⟨a, s', hout, hpost⟩ := h hA
  rw [hout]
  refine ⟨fun _ => rfl, fun b s'' hb => ?_⟩
  cases hb
  exact hpost

/-- Total correctness gives a run. -/
theorem Yields.out {m : Logged σ ε α} (h : Yields True A m s Q) (hA : ∀ e ∈ m.log s, A e) :
    ∃ a s', m.out s = some (a, s') ∧ Q (m.log s) a s' := by
  obtain ⟨hsome, hpost⟩ := h hA
  obtain ⟨⟨a, s'⟩, hout⟩ := Option.isSome_iff_exists.mp (hsome trivial)
  exact ⟨a, s', hout, hpost a s' hout⟩

theorem Yields.mono {m : Logged σ ε α} (h : Yields T A m s Q)
    (hQ : ∀ l a s', Q l a s' → Q' l a s') : Yields T A m s Q' := by
  intro hA
  obtain ⟨hsome, hpost⟩ := h hA
  exact ⟨hsome, fun a s' hout => hQ _ _ _ (hpost a s' hout)⟩

theorem Yields.pure {a : α} (h : Q [] a s) : Yields T A (pure a) s Q :=
  Yields.of_out fun _ => ⟨a, s, rfl, h⟩

/-- A partial judgement of a run that is known to return. -/
theorem Yields.and_rely {m : Logged σ ε α} {R : α → σ → Prop} (h : Yields False A m s Q)
    (hR : Rely A G m s R) : Yields T A m s (fun l a s' => Q l a s' ∧ R a s') := by
  refine Yields.of_out fun hA => ?_
  obtain ⟨-, a, s', hout, hpost⟩ := hR hA
  exact ⟨a, s', hout, (h hA).2 a s' hout, hpost⟩

/-- **The sequencing rule**: the logs are joined. -/
theorem Yields.bind {m : Logged σ ε α} {f : α → Logged σ ε β} {R : List ε → β → σ → Prop}
    (h : Yields T A m s Q)
    (hf : ∀ l a s', Q l a s' → Yields T A (f a) s' (fun l' => R (l ++ l'))) :
    Yields T A (m >>= f) s R := by
  intro hA
  rw [log_bind] at hA
  obtain ⟨hsome, hpost⟩ := h (fun e he => hA e (List.mem_append_left _ he))
  rw [out_bind, log_bind]
  rcases hm : m.out s with _ | ⟨a, s'⟩
  · rw [hm] at hsome
    exact ⟨fun hT => hsome hT, fun b s'' hb => absurd hb (Option.some_ne_none _).symm⟩
  · rw [hm] at hA
    exact hf _ a s' (hpost a s' hm) (fun e he => hA e (List.mem_append_right _ he))

/-- A value that is read is given a name. -/
theorem Yields.reads_bind {f : σ → α} {g : α → Logged σ ε β} {R : List ε → β → σ → Prop}
    (h : ∀ a, a = f s → Yields T A (g a) s R) : Yields T A (reads f >>= g) s R := by
  have hread : Yields T A (reads f) s (fun l a s' => l = [] ∧ a = f s ∧ s' = s) :=
    Yields.of_out fun _ => ⟨f s, s, rfl, rfl, rfl, rfl⟩
  refine hread.bind ?_
  rintro l a s' ⟨rfl, ha, rfl⟩
  exact h a ha

theorem Yields.modifies_bind {f : σ → σ} {g : Unit → Logged σ ε β} {R : List ε → β → σ → Prop}
    (h : Yields T A (g ()) (f s) R) : Yields T A (modifies f >>= g) s R := by
  have hmod : Yields T A (modifies f) s (fun l _ s' => l = [] ∧ s' = f s) :=
    Yields.of_out fun _ => ⟨(), f s, rfl, rfl, rfl⟩
  refine hmod.bind ?_
  rintro l ⟨⟩ s' ⟨rfl, rfl⟩
  exact h

/-- Nothing is said of a program that does not return. -/
theorem Yields.never : Yields False A (never : Logged σ ε α) s Q :=
  fun _ => ⟨False.elim, fun _ _ hout => absurd hout (Option.some_ne_none _).symm⟩

/-- A program over a part of the state emits what it emits on that part. -/
theorem Yields.zoom {τ : Type} {get : τ → σ} {put : σ → τ → τ} {m : Logged σ ε α} {t : τ}
    (h : Yields T A m (get t) Q) :
    Yields T A (zoom get put m) t (fun l a t' => ∃ s', Q l a s' ∧ t' = put s' t) := by
  intro hA
  obtain ⟨hsome, hpost⟩ := h hA
  have hout : (Logged.zoom get put m).out t = (m.out (get t)).map (fun r => (r.1, put r.2 t)) := rfl
  rw [hout, Option.isSome_map]
  refine ⟨hsome, fun a t' ht => ?_⟩
  obtain ⟨⟨b, s'⟩, hb, heq⟩ := Option.map_eq_some_iff.mp ht
  cases heq
  exact ⟨s', hpost b s' hb, rfl⟩

end YieldsRules

end Logged
