import MallocLab.Basic.Memlib

set_option autoImplicit false

/-! # Runs of the simulated break

`mem_sbrk` forms the pointer `mem_brk + incr` before it compares it with `mem_max_addr`. When
the sum wraps around, the test passes and the break moves backwards, out of the arena. A
sequence of `mem_sbrk` and `mem_reset_brk` calls after `mem_init` is right exactly when no sum
wraps (`brkRight_iff`); in an arena below `2^31` no `int` makes one wrap (`brkRight_low`).
-/

namespace MallocLab

open Logged

/-! ## Sequences of calls -/

inductive BrkCall where
  | sbrk (incr : Int)
  | reset

/-- The increment is an `int`. -/
def BrkCall.IsInt : BrkCall → Prop
  | .sbrk incr => -2 ^ 31 ≤ incr ∧ incr < 2 ^ 31
  | .reset => True

/-- Memory that `mem_sbrk` has handed out. -/
structure Area where
  lo : Nat
  size : Int

def Area.Covers (a : Area) (y : Nat) : Prop := a.lo ≤ y ∧ y < a.lo + a.size

/-- The memory system, and the areas handed out since the last reset. -/
structure Brk where
  heap : Heap
  areas : List Area

/-- The call has reported `ENOMEM`. -/
def reportsFailure (log : List Event) : Bool :=
  log.any (fun e => match e with | .sbrkFailed => true | _ => false)

/-- The memory system after a call. -/
def Brk.step (b : Brk) : BrkCall → Brk
  | .sbrk incr =>
      match (memSbrk incr).out b.heap with
      | some (p, h) =>
          ⟨h, if reportsFailure ((memSbrk incr).log b.heap) then b.areas else ⟨p, incr⟩ :: b.areas⟩
      | none => b
  | .reset =>
      match memResetBrk.out b.heap with
      | some (_, h) => ⟨h, []⟩
      | none => b

/-! ## What is right -/

/-- The break is inside the arena, and the areas handed out are apart. -/
structure Placed (b : Brk) : Prop where
  lower : b.heap.memStartBrk ≤ b.heap.memBrk
  upper : b.heap.memBrk ≤ b.heap.memMaxAddr
  apart : b.areas.Pairwise (fun a a' => ∀ y, a.Covers y → ¬a'.Covers y)

/-- A call of `mem_sbrk` that fails changes nothing, and there is a reason; one that succeeds
returns the old break and raises it by `incr`. -/
def CallRight (h : Heap) : BrkCall → Prop
  | .sbrk incr => ∃ p h', (memSbrk incr).out h = some (p, h') ∧
      if reportsFailure ((memSbrk incr).log h) then
        p = FAILED ∧ h' = h ∧ (incr < 0 ∨ (h.memMaxAddr : Int) - h.memBrk < incr)
      else p = h.memBrk ∧ (h'.memBrk : Int) = h.memBrk + incr
  | .reset => True

/-- The break is in place at all times, and every call is right. -/
def BrkRight : Brk → List BrkCall → Prop
  | b, [] => Placed b
  | b, c :: cs => Placed b ∧ CallRight b.heap c ∧ BrkRight (b.step c) cs

/-- The sum `mem_brk + incr` of the call does not wrap around. -/
def NoCarry (h : Heap) : BrkCall → Prop
  | .sbrk incr => 0 ≤ incr → h.memBrk + incr < 2 ^ 32
  | .reset => True

/-- It does not in any of the calls. -/
def NeverWraps : Brk → List BrkCall → Prop
  | _, [] => True
  | b, c :: cs => NoCarry b.heap c ∧ NeverWraps (b.step c) cs

/-! ## One call -/

/-- The two outcomes of `mem_sbrk`. -/
theorem memSbrk_cases (h : Heap) (incr : Int) :
    ((incr < 0 ∨ h.memMaxAddr < add32 h.memBrk incr.toNat) ∧
        (memSbrk incr).out h = some (FAILED, h) ∧ reportsFailure ((memSbrk incr).log h) = true) ∨
      (0 ≤ incr ∧ add32 h.memBrk incr.toNat ≤ h.memMaxAddr ∧
        (memSbrk incr).out h
          = some (h.memBrk, { h with memBrk := add32 h.memBrk incr.toNat }) ∧
        reportsFailure ((memSbrk incr).log h) = false) := by
  unfold memSbrk
  simp only [out_bind, log_bind, out_reads, log_reads, out_emits, log_emits, Option.bind_some]
  by_cases hfail : incr < 0 ∨ h.memMaxAddr < add32 h.memBrk incr.toNat
  · left
    rw [if_pos hfail]
    exact ⟨hfail, rfl, rfl⟩
  · right
    have h0 : 0 ≤ incr := not_lt.mp (fun hneg => hfail (Or.inl hneg))
    have hle : add32 h.memBrk incr.toNat ≤ h.memMaxAddr :=
      not_lt.mp (fun hgt => hfail (Or.inr hgt))
    rw [if_neg hfail]
    exact ⟨h0, hle, rfl, rfl⟩

/-- The break in its arena, with every area below it. -/
structure BrkInv (b : Brk) : Prop extends Placed b where
  fits : b.heap.memMaxAddr < 2 ^ 32
  below : ∀ a ∈ b.areas, a.lo + a.size ≤ b.heap.memBrk

/-- A sum without a carry is the sum. -/
theorem add32_int {brk : Nat} {incr : Int} (h0 : 0 ≤ incr) (hsum : brk + incr < 2 ^ 32) :
    (add32 brk incr.toNat : Int) = brk + incr := by
  have hto : (incr.toNat : Int) = incr := Int.toNat_of_nonneg h0
  rw [add32_eq (by omega)]
  omega

theorem NoCarry.callRight {h : Heap} {c : BrkCall} (hc : NoCarry h c) : CallRight h c := by
  cases c with
  | reset => trivial
  | sbrk incr =>
      rcases memSbrk_cases h incr with ⟨hfail, hout, hrep⟩ | ⟨h0, hle, hout, hrep⟩
      · refine ⟨_, _, hout, ?_⟩
        rw [if_pos hrep]
        refine ⟨rfl, rfl, ?_⟩
        by_cases h0 : incr < 0
        · exact Or.inl h0
        · right
          have hgt := hfail.resolve_left h0
          have hsum := add32_int (not_lt.mp h0) (hc (not_lt.mp h0))
          omega
      · refine ⟨_, _, hout, ?_⟩
        rw [if_neg (by rw [hrep]; decide)]
        exact ⟨rfl, add32_int h0 (hc h0)⟩

/-- The new area starts at the old break, which no other area reaches over. -/
theorem BrkInv.step {b : Brk} {c : BrkCall} (hb : BrkInv b) (hc : NoCarry b.heap c) :
    BrkInv (b.step c) := by
  cases c with
  | reset =>
      exact ⟨⟨le_refl _, hb.lower.trans hb.upper, List.Pairwise.nil⟩, hb.fits, fun _ ha => nomatch ha⟩
  | sbrk incr =>
      -- a failing call changes nothing; a successful one adds an area at the old break
      rcases memSbrk_cases b.heap incr with ⟨-, hout, hrep⟩ | ⟨h0, hle, hout, hrep⟩
      · have hstep : b.step (.sbrk incr) = b := by simp only [Brk.step, hout, hrep, if_true]
        rw [hstep]
        exact hb
      · have hsum := add32_int h0 (hc h0)
        have hstep : b.step (.sbrk incr)
            = ⟨{ b.heap with memBrk := add32 b.heap.memBrk incr.toNat },
                ⟨b.heap.memBrk, incr⟩ :: b.areas⟩ := by
          simp only [Brk.step, hout, hrep, Bool.false_eq_true, if_false]
        rw [hstep]
        have hlo := hb.lower
        constructor
        · refine ⟨?_, hle, List.pairwise_cons.mpr ⟨fun a ha y hy hya => ?_, hb.apart⟩⟩
          · show b.heap.memStartBrk ≤ add32 b.heap.memBrk incr.toNat
            omega
          · -- the earlier areas end at or below the old break
            have hbelow := hb.below a ha
            unfold Area.Covers at hy hya
            simp only at hy
            omega
        · exact hb.fits
        · intro a ha
          show a.lo + a.size ≤ (add32 b.heap.memBrk incr.toNat : Int)
          rcases List.mem_cons.mp ha with rfl | ha
          · exact le_of_eq hsum.symm
          · have hbelow := hb.below a ha
            omega

/-- A sum that wraps around passes the test, and moves the break backwards. -/
theorem BrkInv.wraps {b : Brk} {c : BrkCall} (hb : BrkInv b) (hint : c.IsInt)
    (hc : ¬NoCarry b.heap c) : ¬CallRight b.heap c := by
  cases c with
  | reset => exact absurd trivial hc
  | sbrk incr =>
      obtain ⟨h0, hcarry⟩ := Classical.not_imp.mp hc
      have hlt : incr < 2 ^ 31 := hint.2
      have hupper := hb.upper
      have hfits := hb.fits
      have hback : (add32 b.heap.memBrk incr.toNat : Int) = b.heap.memBrk + incr - 2 ^ 32 := by
        unfold add32
        omega
      rintro ⟨p, h', hcall, hright⟩
      rcases memSbrk_cases b.heap incr with ⟨hfail, -⟩ | ⟨-, -, hout, hrep⟩
      · omega
      · rw [hout] at hcall
        cases hcall
        rw [if_neg (by rw [hrep]; decide)] at hright
        have hraised : (add32 b.heap.memBrk incr.toNat : Int) = b.heap.memBrk + incr := hright.2
        omega

/-! ## Sequences -/

theorem BrkInv.right_iff {b : Brk} {cs : List BrkCall} (hb : BrkInv b)
    (hcs : ∀ c ∈ cs, c.IsInt) : BrkRight b cs ↔ NeverWraps b cs := by
  induction cs generalizing b with
  | nil => exact ⟨fun _ => trivial, fun _ => hb.toPlaced⟩
  | cons c cs ih =>
      have hc := hcs c List.mem_cons_self
      have hrest : NoCarry b.heap c → (BrkRight (b.step c) cs ↔ NeverWraps (b.step c) cs) :=
        fun hno => ih (hb.step hno) (fun c' hc' => hcs c' (List.mem_cons_of_mem _ hc'))
      constructor
      · rintro ⟨-, hright, hcs'⟩
        have hno : NoCarry b.heap c := by
          by_contra hwrap
          exact hb.wraps hc hwrap hright
        exact ⟨hno, (hrest hno).mp hcs'⟩
      · rintro ⟨hno, hnever⟩
        exact ⟨hb.toPlaced, hno.callRight, (hrest hno).mpr hnever⟩

/-- `mem_init` puts the break at the start of the arena. -/
theorem brkInv_init {arena : Nat} {h h' : Heap} (hfit : arena + MAX_HEAP < 2 ^ 32)
    (hinit : (memInit arena).out h = some ((), h')) :
    BrkInv ⟨h', []⟩ ∧ h'.memMaxAddr = arena + MAX_HEAP := by
  by_cases h0 : arena = NULL
  · rw [memInit, if_pos h0] at hinit
    cases hinit
  · rw [memInit, if_neg h0] at hinit
    cases hinit
    have hmax : add32 arena MAX_HEAP = arena + MAX_HEAP := add32_eq hfit
    refine ⟨⟨⟨le_refl _, ?_, List.Pairwise.nil⟩, ?_, fun _ ha => absurd ha List.not_mem_nil⟩, hmax⟩
    · show arena ≤ add32 arena MAX_HEAP
      omega
    · show add32 arena MAX_HEAP < 2 ^ 32
      omega

/-- **When the break is right.** After `mem_init`, in an arena that ends below `2^32`, a sequence
of calls is right exactly when no sum wraps around. -/
theorem brkRight_iff {arena : Nat} {h h' : Heap} (hfit : arena + MAX_HEAP < 2 ^ 32)
    (hinit : (memInit arena).out h = some ((), h')) {cs : List BrkCall}
    (hcs : ∀ c ∈ cs, c.IsInt) : BrkRight ⟨h', []⟩ cs ↔ NeverWraps ⟨h', []⟩ cs :=
  (brkInv_init hfit hinit).1.right_iff hcs

/-- **Low arenas.** Below `2^31` every sequence of calls is right. -/
theorem brkRight_low {arena : Nat} {h h' : Heap} (hlow : arena + MAX_HEAP ≤ 2 ^ 31)
    (hinit : (memInit arena).out h = some ((), h')) {cs : List BrkCall}
    (hcs : ∀ c ∈ cs, c.IsInt) : BrkRight ⟨h', []⟩ cs := by
  obtain ⟨hb, hmax⟩ := brkInv_init (by omega) hinit
  apply (hb.right_iff hcs).mpr
  -- the arena stays where it is, so the break stays below its end
  have hbelow : (⟨h', []⟩ : Brk).heap.memMaxAddr ≤ 2 ^ 31 := hmax.trans_le hlow
  generalize (⟨h', []⟩ : Brk) = b at hb hbelow
  clear hmax hinit
  induction cs generalizing b with
  | nil => trivial
  | cons c cs ih =>
      have hno : NoCarry b.heap c := by
        cases c with
        | reset => trivial
        | sbrk incr =>
            intro h0
            have hlt : incr < 2 ^ 31 := (hcs _ List.mem_cons_self).2
            have hupper := hb.upper
            omega
      refine ⟨hno, ih (fun c' hc' => hcs c' (List.mem_cons_of_mem _ hc')) (b.step c) (hb.step hno) ?_⟩
      cases c with
      | reset => exact hbelow
      | sbrk incr =>
          rcases memSbrk_cases b.heap incr with ⟨-, hout, -⟩ | ⟨-, -, hout, -⟩ <;>
            simp only [Brk.step, hout] <;> exact hbelow

/-- An empty arena at `0xF0000000`. -/
def highHeap : Heap := ⟨fun _ => 0, 0xF0000000, 0xF0000000, 0xF0000000 + MAX_HEAP, 0⟩

theorem highHeap_init : (memInit 0xF0000000).out highHeap = some ((), highHeap) := rfl

/-- The arena is used up, and one more byte is refused. -/
theorem brkRight_iff_sample :
    BrkRight ⟨highHeap, []⟩ [.sbrk MAX_HEAP, .sbrk 1, .reset, .sbrk 4112]
      ↔ NeverWraps ⟨highHeap, []⟩ [.sbrk MAX_HEAP, .sbrk 1, .reset, .sbrk 4112] := by
  refine brkRight_iff (by decide) highHeap_init (fun c hc => ?_)
  simp only [List.mem_cons, List.not_mem_nil, or_false] at hc
  rcases hc with rfl | rfl | rfl | rfl
  · exact ⟨by decide, by decide⟩
  · exact ⟨by decide, by decide⟩
  · trivial
  · exact ⟨by decide, by decide⟩

/-- The increment of `extend_heap` for a request of `0x7FFFFFE0` bytes. -/
theorem brkRight_fails :
    (memInit 0xF0000000).out highHeap = some ((), highHeap) ∧
      ¬BrkRight ⟨highHeap, []⟩ [.sbrk 0x7FFFFFF0] := by
  refine ⟨highHeap_init, fun hright => ?_⟩
  have hb : BrkInv ⟨highHeap, []⟩ := (brkInv_init (by decide) highHeap_init).1
  refine hb.wraps (c := .sbrk 0x7FFFFFF0) ⟨by decide, by decide⟩ (fun hno => ?_) hright.2.1
  exact absurd (hno (by decide)) (by decide)

end MallocLab
