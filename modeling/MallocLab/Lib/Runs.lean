import MallocLab.Lib.Logged

set_option autoImplicit false

/-! # Runs of a logged system

A system has states in which a run may start, calls that are valid in a state, and a program
for each call. A run collects the log of everything it did. One rule takes a property of single
calls to all runs (`Run.invariant`): an invariant that every valid call preserves, as long as
the assumption on the log holds.
-/

namespace Logged

/-- A system: how it may start, with which log, and what its calls do. -/
structure System (σ ε κ β : Type) where
  start : List ε → σ → Prop
  valid : σ → κ → Prop
  call : κ → Logged σ ε β

variable {σ ε κ β : Type}

/-- `Run S l s`: some run of valid calls has the log `l` and ends in `s`. -/
inductive Run (S : System σ ε κ β) : List ε → σ → Prop where
  | start {l : List ε} {s : σ} : S.start l s → Run S l s
  | call {l : List ε} {s s' : σ} {c : κ} {r : β} : Run S l s → S.valid s c →
      (S.call c).out s = some (r, s') → Run S (l ++ (S.call c).log s) s'

/-- **The invariant rule.** -/
theorem Run.invariant {S : System σ ε κ β} {A G : ε → Prop} {I : σ → Prop} {l : List ε} {s : σ}
    (hrun : Run S l s)
    (hstart : ∀ l s, S.start l s → (∀ e ∈ l, A e) → I s ∧ ∀ e ∈ l, G e)
    (hcall : ∀ s c, I s → S.valid s c → Rely A G (S.call c) s (fun _ s' => I s'))
    (hA : ∀ e ∈ l, A e) : I s ∧ ∀ e ∈ l, G e := by
  induction hrun with
  | start h => exact hstart _ _ h hA
  | @call l s s' c r _ hvalid hout ih =>
      obtain ⟨hI, hG⟩ := ih (fun e he => hA e (List.mem_append_left _ he))
      have hstep := hcall s c hI hvalid (fun e he => hA e (List.mem_append_right _ he))
      refine ⟨hstep.out hout, fun e he => ?_⟩
      rcases List.mem_append.mp he with he | he
      · exact hG e he
      · exact hstep.1 e he

/-- A weaker test of validity allows more runs. -/
theorem Run.mono {S T : System σ ε κ β} {l : List ε} {s : σ} (hrun : Run S l s)
    (hstart : ∀ l s, S.start l s → T.start l s) (hvalid : ∀ s c, S.valid s c → T.valid s c)
    (hcall : T.call = S.call) : Run T l s := by
  induction hrun with
  | start h => exact Run.start (hstart _ _ h)
  | call _ hv hout ih =>
      rw [← hcall] at hout ⊢
      exact Run.call ih (hvalid _ _ hv) hout

end Logged
