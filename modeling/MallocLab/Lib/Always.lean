import MallocLab.Lib.Logged

set_option autoImplicit false

/-! # What a program does in every state

`Always I G m` says that `m`, started in any state with `I`, emits events with `G` only and ends in
a state with `I`. Unlike `Wp` it does not say that `m` returns, so it holds of a program as it is
put together, whatever it computes: there is one rule for each way to build a program, and none
asks for a fact about values.
-/

namespace Logged

variable {σ ε α β : Type}

def Always (I : σ → Prop) (G : ε → Prop) (m : Logged σ ε α) : Prop :=
  ∀ s, I s → (∀ e ∈ m.log s, G e) ∧ ∀ a s', m.out s = some (a, s') → I s'

section AlwaysRules

variable {I : σ → Prop} {G : ε → Prop}

theorem Always.pure (a : α) : Always I G (pure a) := by
  intro s hs
  refine ⟨fun e he => absurd he List.not_mem_nil, fun b s' hout => ?_⟩
  cases hout
  exact hs

theorem Always.never : Always I G (never : Logged σ ε α) :=
  fun _ _ => ⟨fun _ he => absurd he List.not_mem_nil,
    fun _ _ hout => absurd hout (Option.some_ne_none _).symm⟩

theorem Always.reads (f : σ → α) : Always I G (reads f) := by
  intro s hs
  refine ⟨fun e he => absurd he List.not_mem_nil, fun b s' hout => ?_⟩
  cases hout
  exact hs

theorem Always.modifies {f : σ → σ} (hf : ∀ s, I s → I (f s)) : Always I G (modifies f) := by
  intro s hs
  refine ⟨fun e he => absurd he List.not_mem_nil, fun b s' hout => ?_⟩
  cases hout
  exact hf s hs

theorem Always.emits {f : σ → ε} (hf : ∀ s, I s → G (f s)) : Always I G (emits f) := by
  intro s hs
  refine ⟨fun e he => ?_, fun b s' hout => ?_⟩
  · rw [List.mem_singleton.mp he]
    exact hf s hs
  · cases hout
    exact hs

/-- What follows a program need only be right for the values that it has. -/
theorem Always.bind_out {m : Logged σ ε α} {f : α → Logged σ ε β} (hm : Always I G m)
    (hf : ∀ s a s', m.out s = some (a, s') → Always I G (f a)) : Always I G (m >>= f) := by
  intro s hs
  obtain ⟨hlog, hout⟩ := hm s hs
  rw [log_bind, out_bind]
  rcases h : m.out s with _ | ⟨a, s'⟩
  · refine ⟨fun e he => hlog e (by simpa using he), fun b s'' hb => ?_⟩
    cases hb
  · obtain ⟨hlog', hout'⟩ := hf s a s' h s' (hout a s' h)
    refine ⟨fun e he => ?_, hout'⟩
    rcases List.mem_append.mp he with he | he
    · exact hlog e he
    · exact hlog' e he

theorem Always.bind {m : Logged σ ε α} {f : α → Logged σ ε β} (hm : Always I G m)
    (hf : ∀ a, Always I G (f a)) : Always I G (m >>= f) :=
  hm.bind_out fun _ a _ _ => hf a

theorem Always.modifies_bind {f : σ → σ} {g : Unit → Logged σ ε β} (hf : ∀ s, I s → I (f s))
    (hg : Always I G (g ())) : Always I G (Logged.modifies f >>= g) :=
  (Always.modifies hf).bind fun _ => hg

theorem Always.ite {c : Prop} [Decidable c] {m n : Logged σ ε α} (hm : c → Always I G m)
    (hn : ¬c → Always I G n) : Always I G (if c then m else n) := by
  by_cases h : c
  · rw [if_pos h]
    exact hm h
  · rw [if_neg h]
    exact hn h

/-- A program over a part of the state that keeps what is said of that part. -/
theorem Always.zoom {τ : Type} {get : τ → σ} {put : σ → τ → τ} {m : Logged σ ε α}
    {J : τ → Prop} (hm : Always I G m) (hget : ∀ t, J t → I (get t))
    (hput : ∀ s t, J t → I s → J (put s t)) : Always J G (Logged.zoom get put m) := by
  intro t ht
  obtain ⟨hlog, hout⟩ := hm (get t) (hget t ht)
  refine ⟨hlog, fun a t' hzoom => ?_⟩
  obtain ⟨⟨b, s⟩, hb, heq⟩ := Option.map_eq_some_iff.mp hzoom
  cases heq
  exact hput s t ht (hout b s hb)

end AlwaysRules

end Logged
