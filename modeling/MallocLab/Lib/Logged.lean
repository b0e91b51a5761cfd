import Mathlib.Tactic

set_option autoImplicit false

/-! # Programs that keep a log

A program over states `σ` is run from a state and yields the events it emitted, in order,
and its value and final state, or no value when it does not return (it runs for ever, or
exits). The log is an output only: no program reads it, so it can record what a run did
without changing what the run does.

Two judgements are built on it. `Wp G m s Q` is total correctness with a guarantee: `m` returns
from `s`, every event it emits satisfies `G`, and its result satisfies `Q`. `Rely A G m s Q`
is the same under the assumption that every event of the log satisfies `A`; it is what a
program is given that calls a primitive whose good behaviour is only assumed.
-/

/-- A program over states `σ` with events `ε`: the events emitted, and the value and final
state (`none` when the program does not return). -/
def Logged (σ ε α : Type) : Type := σ → List ε × Option (α × σ)

namespace Logged

variable {σ ε α β : Type}

instance : Monad (Logged σ ε) where
  pure a := fun s => ([], some (a, s))
  bind m f := fun s =>
    match m s with
    | (l, none) => (l, none)
    | (l, some (a, s')) => (l ++ (f a s').1, (f a s').2)

/-- The events of the run from `s`. -/
def log (m : Logged σ ε α) (s : σ) : List ε := (m s).1

/-- The value and final state of the run from `s`. -/
def out (m : Logged σ ε α) (s : σ) : Option (α × σ) := (m s).2

/-- A value computed from the state. -/
def reads (f : σ → α) : Logged σ ε α := fun s => ([], some (f s, s))

/-- A change of the state. -/
def modifies (f : σ → σ) : Logged σ ε Unit := fun s => ([], some ((), f s))

/-- One event, computed from the state. -/
def emits (f : σ → ε) : Logged σ ε Unit := fun s => ([f s], some ((), s))

/-- The program that does not return. -/
def never : Logged σ ε α := fun _ => ([], none)

/-- A program over a part of the state, read by `get` and written back by `put`. -/
def zoom {τ : Type} (get : τ → σ) (put : σ → τ → τ) (m : Logged σ ε α) : Logged τ ε α :=
  fun t => (m.log (get t), (m.out (get t)).map (fun r => (r.1, put r.2 t)))

section Runs

variable (s : σ)

@[simp] theorem out_pure (a : α) : (pure a : Logged σ ε α).out s = some (a, s) := rfl
@[simp] theorem log_pure (a : α) : (pure a : Logged σ ε α).log s = [] := rfl
@[simp] theorem out_reads (f : σ → α) : (reads f : Logged σ ε α).out s = some (f s, s) := rfl
@[simp] theorem log_reads (f : σ → α) : (reads f : Logged σ ε α).log s = [] := rfl
@[simp] theorem out_modifies (f : σ → σ) :
    (modifies f : Logged σ ε Unit).out s = some ((), f s) := rfl
@[simp] theorem log_modifies (f : σ → σ) : (modifies f : Logged σ ε Unit).log s = [] := rfl
@[simp] theorem out_emits (f : σ → ε) : (emits f).out s = some ((), s) := rfl
@[simp] theorem log_emits (f : σ → ε) : (emits f).log s = [f s] := rfl

end Runs

/-! ## Total correctness with a guarantee on the log -/

/-- `m` returns from `s`, all its events satisfy `G`, and its result satisfies `Q`. -/
def Wp (G : ε → Prop) (m : Logged σ ε α) (s : σ) (Q : α → σ → Prop) : Prop :=
  (∀ e ∈ m.log s, G e) ∧ ∃ a s', m.out s = some (a, s') ∧ Q a s'

section Rules

variable {G : ε → Prop} {s : σ} {Q : α → σ → Prop}

@[simp] theorem wp_pure (a : α) : Wp G (pure a) s Q ↔ Q a s := by
  constructor
  · rintro ⟨-, _, _, h, hQ⟩
    cases h
    exact hQ
  · intro h
    exact ⟨fun _ he => absurd he List.not_mem_nil, a, s, rfl, h⟩

@[simp] theorem wp_reads (f : σ → α) : Wp G (reads f) s Q ↔ Q (f s) s := by
  constructor
  · rintro ⟨-, _, _, h, hQ⟩
    cases h
    exact hQ
  · intro h
    exact ⟨fun _ he => absurd he List.not_mem_nil, f s, s, rfl, h⟩

@[simp] theorem wp_modifies (f : σ → σ) (Q : Unit → σ → Prop) :
    Wp G (modifies f) s Q ↔ Q () (f s) := by
  constructor
  · rintro ⟨-, _, _, h, hQ⟩
    cases h
    exact hQ
  · intro h
    exact ⟨fun _ he => absurd he List.not_mem_nil, (), f s, rfl, h⟩

@[simp] theorem wp_emits (f : σ → ε) (Q : Unit → σ → Prop) :
    Wp G (emits f) s Q ↔ G (f s) ∧ Q () s := by
  constructor
  · rintro ⟨hG, _, _, h, hQ⟩
    cases h
    exact ⟨hG (f s) (List.mem_singleton.mpr rfl), hQ⟩
  · rintro ⟨hG, h⟩
    refine ⟨?_, (), s, rfl, h⟩
    intro e' he'
    rw [List.mem_singleton.mp he']
    exact hG

theorem log_bind (m : Logged σ ε α) (f : α → Logged σ ε β) (s : σ) :
    (m >>= f).log s
      = m.log s ++ (match m.out s with
        | none => []
        | some (a, s') => (f a).log s') := by
  show (match m s with
    | (l, none) => (l, none)
    | (l, some (a, s')) => (l ++ (f a s').1, (f a s').2)).1 = _
  rcases h : m s with ⟨l, _ | ⟨a, s'⟩⟩
  · simp [log, out, h]
  · simp [log, out, h]

/-- What the first program emits is in the log. -/
theorem mem_log_bind {m : Logged σ ε α} {s : σ} {e : ε} (he : e ∈ m.log s)
    (f : α → Logged σ ε β) : e ∈ (m >>= f).log s := by
  rw [log_bind]
  exact List.mem_append_left _ he

theorem out_bind (m : Logged σ ε α) (f : α → Logged σ ε β) (s : σ) :
    (m >>= f).out s = (m.out s).bind (fun r => (f r.1).out r.2) := by
  show (match m s with
    | (l, none) => (l, none)
    | (l, some (a, s')) => (l ++ (f a s').1, (f a s').2)).2 = _
  rcases h : m s with ⟨l, _ | ⟨a, s'⟩⟩
  · simp [out, h]
  · simp [out, h]

theorem bind_bind {γ : Type} (m : Logged σ ε α) (f : α → Logged σ ε β) (g : β → Logged σ ε γ) :
    (m >>= f) >>= g = m >>= fun a => f a >>= g := by
  funext s
  refine Prod.ext ?_ ?_
  · show ((m >>= f) >>= g).log s = (m >>= fun a => f a >>= g).log s
    rw [log_bind, log_bind, log_bind, out_bind]
    rcases m.out s with _ | ⟨a, s'⟩
    · simp
    · simp [log_bind]
  · show ((m >>= f) >>= g).out s = (m >>= fun a => f a >>= g).out s
    rw [out_bind, out_bind, out_bind]
    rcases m.out s with _ | ⟨a, s'⟩
    · rfl
    · exact (out_bind (f a) g s').symm

/-- **The sequencing rule.** -/
@[simp] theorem wp_bind (m : Logged σ ε α) (f : α → Logged σ ε β) (Q : β → σ → Prop) :
    Wp G (m >>= f) s Q ↔ Wp G m s (fun a s' => Wp G (f a) s' Q) := by
  constructor
  · rintro ⟨hG, b, s2, hout, hQ⟩
    rw [out_bind] at hout
    rw [log_bind] at hG
    rcases hm : m.out s with _ | ⟨a, s1⟩
    · rw [hm] at hout
      cases hout
    · rw [hm] at hout hG
      refine ⟨fun e he => hG e (List.mem_append_left _ he), a, s1, hm, ?_⟩
      exact ⟨fun e he => hG e (List.mem_append_right _ he), b, s2, hout, hQ⟩
  · rintro ⟨hG1, a, s1, hm, hG2, b, s2, hout, hQ⟩
    refine ⟨?_, b, s2, ?_, hQ⟩
    · rw [log_bind, hm]
      intro e he
      rcases List.mem_append.mp he with he | he
      · exact hG1 e he
      · exact hG2 e he
    · rw [out_bind, hm]
      exact hout

@[simp] theorem wp_ite (c : Prop) [Decidable c] (m n : Logged σ ε α) :
    Wp G (if c then m else n) s Q ↔ (if c then Wp G m s Q else Wp G n s Q) := by
  split <;> rfl

theorem Wp.mono {m : Logged σ ε α} {Q' : α → σ → Prop} (h : Wp G m s Q)
    (hQ : ∀ a s', Q a s' → Q' a s') : Wp G m s Q' := by
  obtain ⟨hG, a, s', hout, h'⟩ := h
  exact ⟨hG, a, s', hout, hQ a s' h'⟩

/-- The result of a run that is known satisfies the postcondition. -/
theorem Wp.out {m : Logged σ ε α} (h : Wp G m s Q) {a : α} {s' : σ}
    (hout : m.out s = some (a, s')) : Q a s' := by
  obtain ⟨-, a1, s1, hout1, hQ⟩ := h
  rw [hout] at hout1
  cases hout1
  exact hQ

end Rules

/-! ## Correctness relying on the log -/

/-- `Wp G m s Q`, given that every event of the run satisfies `A`. -/
def Rely (A G : ε → Prop) (m : Logged σ ε α) (s : σ) (Q : α → σ → Prop) : Prop :=
  (∀ e ∈ m.log s, A e) → Wp G m s Q

section RelyRules

variable {A G : ε → Prop} {s : σ} {Q : α → σ → Prop}

theorem Wp.rely {m : Logged σ ε α} (h : Wp G m s Q) : Rely A G m s Q := fun _ => h

theorem Rely.mono {m : Logged σ ε α} {Q' : α → σ → Prop} (h : Rely A G m s Q)
    (hQ : ∀ a s', Q a s' → Q' a s') : Rely A G m s Q' :=
  fun hA => (h hA).mono hQ

theorem Rely.pure {a : α} (h : Q a s) : Rely A G (pure a) s Q :=
  ((wp_pure a).mpr h).rely

theorem Rely.emits {f : σ → ε} {Q : Unit → σ → Prop} (h : A (f s) → G (f s) ∧ Q () s) :
    Rely A G (emits f) s Q :=
  fun hA => (wp_emits f Q).mpr (h (hA (f s) (List.mem_singleton.mpr rfl)))

/-- **The sequencing rule under an assumption on the log.** The log of the first program is
a prefix of the whole, so its assumption is part of the given one. -/
theorem Rely.bind {m : Logged σ ε α} {f : α → Logged σ ε β} {Q' : β → σ → Prop}
    (h : Rely A G m s Q) (hf : ∀ a s', Q a s' → Rely A G (f a) s' Q') :
    Rely A G (m >>= f) s Q' := by
  intro hA
  rw [log_bind] at hA
  obtain ⟨hG, a, s1, hm, hQ⟩ := h (fun e he => hA e (List.mem_append_left _ he))
  rw [hm] at hA
  rw [wp_bind]
  exact ⟨hG, a, s1, hm, hf a s1 hQ (fun e he => hA e (List.mem_append_right _ he))⟩

/-- A first program that is correct without the assumption. -/
theorem Wp.bind_rely {m : Logged σ ε α} {f : α → Logged σ ε β} {Q' : β → σ → Prop}
    (h : Wp G m s (fun a s' => Rely A G (f a) s' Q')) : Rely A G (m >>= f) s Q' :=
  h.rely.bind (fun _ _ hf => hf)

/-- A value that is read is given a name: an equation, and not a value put into `g`, keeps the
kernel from running `g` to compare two spellings of it. -/
theorem Rely.reads_bind {f : σ → α} {g : α → Logged σ ε β} {Q' : β → σ → Prop}
    (h : ∀ a, a = f s → Rely A G (g a) s Q') : Rely A G (reads f >>= g) s Q' :=
  Wp.bind_rely ((wp_reads f).mpr (h (f s) rfl))

theorem Rely.ite {c : Prop} [Decidable c] {m n : Logged σ ε α}
    (hm : c → Rely A G m s Q) (hn : ¬c → Rely A G n s Q) :
    Rely A G (if c then m else n) s Q := by
  by_cases h : c
  · rw [if_pos h]
    exact hm h
  · rw [if_neg h]
    exact hn h

/-- A program over a part of the state, judged on that part. -/
theorem Rely.zoom {τ : Type} {get : τ → σ} {put : σ → τ → τ} {m : Logged σ ε α} {t : τ}
    (h : Rely A G m (get t) Q) :
    Rely A G (zoom get put m) t (fun a t' => ∃ s', Q a s' ∧ t' = put s' t) := by
  intro hA
  obtain ⟨hG, a, s', hout, hQ⟩ := h hA
  refine ⟨hG, a, put s' t, ?_, s', hQ, rfl⟩
  show (m.out (get t)).map _ = _
  rw [hout]
  rfl

end RelyRules

end Logged
