import MallocLab.Client.System

set_option autoImplicit false

/-! # The range list of the driver (`mdriver.c`)

The driver records the extent of every payload an allocator hands out and refuses a new one
that overlaps a recorded one. `add_range` tests only whether an end point of the new range lies
in a recorded range, so it misses a recorded range strictly inside the new one. The checker is
right in exactly the sequences of calls in which that never happens (`checker_right_iff`).
-/

namespace MallocLab

open Logged Words

def ALIGNMENT : Nat := 8

/-- The extent of a payload, both ends included. -/
structure Range where
  lo : Nat
  hi : Nat
  deriving DecidableEq, Repr

/-- The conversion of an `int` to a 32-bit `size_t`. -/
def toSize (n : Int) : Nat := (n % 2 ^ 32).toNat

/-- Why `add_range` refuses a range. -/
inductive RangeError where
  | misaligned (lo : Nat)
  | outside (lo hi heapLo heapHi : Nat)
  | overlaps (lo hi otherLo otherHi : Nat)
  deriving DecidableEq, Repr

/-- `%p` -/
def ptrText (p : Nat) : String :=
  if p = NULL then "(nil)" else "0x" ++ String.ofList (Nat.toDigits 16 p)

/-- The message that `add_range` composes. -/
def RangeError.text : RangeError → String
  | .misaligned lo =>
      "Payload address (" ++ ptrText lo ++ ") not aligned to " ++ toString ALIGNMENT ++ " bytes"
  | .outside lo hi heapLo heapHi =>
      "Payload (" ++ ptrText lo ++ ":" ++ ptrText hi ++ ") lies outside heap (" ++
        ptrText heapLo ++ ":" ++ ptrText heapHi ++ ")"
  | .overlaps lo hi otherLo otherHi =>
      "Payload (" ++ ptrText lo ++ ":" ++ ptrText hi ++ ") overlaps another payload (" ++
        ptrText otherLo ++ ":" ++ ptrText otherHi ++ ")\n"

/-- The address of the last byte: `lo + size - 1`. -/
def rangeHi (lo : Nat) (size : Int) : Nat := sub32 (add32 lo (toSize size)) 1

/-- The end points of the new range are outside the heap. -/
def outsideHeap (h : Heap) (lo hi : Nat) : Prop :=
  lo < memHeapLo h ∨ memHeapHi h < lo ∨ hi < memHeapLo h ∨ memHeapHi h < hi

instance (h : Heap) (lo hi : Nat) : Decidable (outsideHeap h lo hi) :=
  inferInstanceAs (Decidable (_ ∨ _ ∨ _ ∨ _))

/-- The test of the loop in `add_range`: an end point of the new range lies in `p`. -/
def endpointIn (lo hi : Nat) (p : Range) : Prop :=
  p.lo ≤ lo ∧ lo ≤ p.hi ∨ p.lo ≤ hi ∧ hi ≤ p.hi

instance (lo hi : Nat) (p : Range) : Decidable (endpointIn lo hi p) :=
  inferInstanceAs (Decidable (_ ∧ _ ∨ _ ∧ _))

/-- `add_range`: the new list, or the error for which it returns 0; nothing when its assertion
fails. Storage for the new record is taken for granted (without it the driver exits). -/
def addRange (h : Heap) (ranges : List Range) (lo : Nat) (size : Int) :
    Option (Except RangeError (List Range)) :=
  let hi := rangeHi lo size
  if ¬0 < size then none
  else if lo % ALIGNMENT ≠ 0 then some (.error (.misaligned lo))
  else if outsideHeap h lo hi then
    some (.error (.outside lo hi (memHeapLo h) (memHeapHi h)))
  else
    match ranges.find? (endpointIn lo hi) with
    | some p => some (.error (.overlaps lo hi p.lo p.hi))
    | none => some (.ok (⟨lo, hi⟩ :: ranges))

/-- `remove_range`: the first record that starts at `lo` is taken out. -/
def removeRange : List Range → Nat → List Range
  | [], _ => []
  | p :: ps, lo => if p.lo = lo then ps else p :: removeRange ps lo

/-! ## Sequences of calls -/

/-- What the driver and the allocator do between two looks at the range list: the driver adds
or removes a range, the allocator moves the break. -/
inductive RangeOp where
  | add (lo : Nat) (size : Int)
  | remove (lo : Nat)
  | sbrk (brk : Nat)

structure Checker where
  heap : Heap
  ranges : List Range

/-- A refused range is not recorded. -/
def Checker.step (d : Checker) : RangeOp → Checker
  | .add lo size =>
      match addRange d.heap d.ranges lo size with
      | some (.ok ranges) => { d with ranges := ranges }
      | _ => d
  | .remove lo => { d with ranges := removeRange d.ranges lo }
  | .sbrk brk => { d with heap := { d.heap with memBrk := brk } }

/-- Sizes are positive, the last byte has an address, and the break never moves down. -/
def RangeOp.Valid (d : Checker) : RangeOp → Prop
  | .add lo size => 0 < size ∧ lo + size - 1 < 2 ^ 32
  | .remove _ => True
  | .sbrk brk => memHeapHi d.heap ≤ memHeapHi { d.heap with memBrk := brk }

/-- Every call is valid when its turn comes. -/
def AllValid : Checker → List RangeOp → Prop
  | _, [] => True
  | d, op :: ops => op.Valid d ∧ AllValid (d.step op) ops

/-! ## What the checker should do -/

/-- The two ranges have a byte in common. -/
def Range.Shares (p q : Range) : Prop := ∃ y, (p.lo ≤ y ∧ y ≤ p.hi) ∧ q.lo ≤ y ∧ y ≤ q.hi

/-- The recorded ranges are aligned, inside the heap and pairwise disjoint. -/
structure Recorded (d : Checker) : Prop where
  aligned : ∀ p ∈ d.ranges, p.lo % 8 = 0
  inside : ∀ p ∈ d.ranges, ∀ y, p.lo ≤ y → y ≤ p.hi → memHeapLo d.heap ≤ y ∧ y ≤ memHeapHi d.heap
  disjoint : d.ranges.Pairwise (fun p q => ¬p.Shares q)

/-- The verdict of `add_range` is right: it accepts a range only if it shares no byte with a
recorded one, and refuses one only if it is misaligned, outside the heap or shares a byte. -/
def VerdictRight (d : Checker) : RangeOp → Prop
  | .add lo size =>
      match addRange d.heap d.ranges lo size with
      | some (.ok _) => ∀ p ∈ d.ranges, ¬Range.Shares ⟨lo, rangeHi lo size⟩ p
      | some (.error _) => lo % 8 ≠ 0 ∨ outsideHeap d.heap lo (rangeHi lo size) ∨
          ∃ p ∈ d.ranges, Range.Shares ⟨lo, rangeHi lo size⟩ p
      | none => False
  | _ => True

/-- At all times the recorded ranges are as they should be, and every verdict is right. -/
def AlwaysRight : Checker → List RangeOp → Prop
  | d, [] => Recorded d
  | d, op :: ops => Recorded d ∧ VerdictRight d op ∧ AlwaysRight (d.step op) ops

/-- No recorded range lies strictly inside the new one, unless the new one is refused for its
alignment, for its place or for one of its end points. -/
def NotAround (d : Checker) : RangeOp → Prop
  | .add lo size =>
      (∀ p ∈ d.ranges, ¬(lo < p.lo ∧ p.hi < rangeHi lo size)) ∨ lo % 8 ≠ 0 ∨
        outsideHeap d.heap lo (rangeHi lo size) ∨ ∃ p ∈ d.ranges, endpointIn lo (rangeHi lo size) p
  | _ => True

def NeverAround : Checker → List RangeOp → Prop
  | _, [] => True
  | d, op :: ops => NotAround d op ∧ NeverAround (d.step op) ops

/-! ## One call -/

theorem rangeHi_eq {lo : Nat} {size : Int} (h0 : 0 < size) (hlt : lo + size - 1 < 2 ^ 32) :
    (rangeHi lo size : Int) = lo + size - 1 := by
  unfold rangeHi sub32 add32 toSize
  omega

/-- The three outcomes of `add_range` for a positive size. -/
theorem addRange_cases (h : Heap) (ranges : List Range) (lo : Nat) {size : Int} (h0 : 0 < size) :
    ((lo % 8 ≠ 0 ∨ outsideHeap h lo (rangeHi lo size) ∨
        ∃ p ∈ ranges, endpointIn lo (rangeHi lo size) p) ∧
      ∃ e, addRange h ranges lo size = some (.error e)) ∨
    ((lo % 8 = 0 ∧ ¬outsideHeap h lo (rangeHi lo size) ∧
        ∀ p ∈ ranges, ¬endpointIn lo (rangeHi lo size) p) ∧
      addRange h ranges lo size = some (.ok (⟨lo, rangeHi lo size⟩ :: ranges))) := by
  -- the checks in the order of the source
  rw [addRange, if_neg (not_not.mpr h0)]
  by_cases hal : lo % 8 = 0
  · have hal' : lo % ALIGNMENT = 0 := hal
    rw [if_neg (not_not.mpr hal')]
    by_cases hout : outsideHeap h lo (rangeHi lo size)
    · rw [if_pos hout]
      exact Or.inl ⟨Or.inr (Or.inl hout), _, rfl⟩
    · rw [if_neg hout]
      rcases hfind : ranges.find? (endpointIn lo (rangeHi lo size)) with _ | p <;> simp only [hfind]
      · refine Or.inr ⟨⟨hal, hout, fun p hp => ?_⟩, trivial⟩
        simpa using List.find?_eq_none.mp hfind p hp
      · have hp := List.find?_some hfind
        exact Or.inl ⟨Or.inr (Or.inr ⟨p, List.mem_of_find?_eq_some hfind, by simpa using hp⟩),
          _, rfl⟩
  · have hal' : lo % ALIGNMENT ≠ 0 := hal
    rw [if_pos hal']
    exact Or.inl ⟨Or.inl hal, _, rfl⟩

/-- A range with an end point in `p` shares a byte with `p`. -/
theorem shares_of_endpointIn {lo hi : Nat} {p : Range} (hle : lo ≤ hi) (h : endpointIn lo hi p) :
    Range.Shares ⟨lo, hi⟩ p := by
  rcases h with ⟨h1, h2⟩ | ⟨h1, h2⟩
  · exact ⟨lo, ⟨Nat.le_refl lo, hle⟩, h1, h2⟩
  · exact ⟨hi, ⟨hle, Nat.le_refl hi⟩, h1, h2⟩

/-- Without an end point in `p`, sharing a byte means lying around `p`. -/
theorem around_of_shares {lo hi : Nat} {p : Range} (hend : ¬endpointIn lo hi p)
    (h : Range.Shares ⟨lo, hi⟩ p) : lo < p.lo ∧ p.hi < hi := by
  obtain ⟨y, ⟨h1, h2⟩, h3, h4⟩ := h
  unfold endpointIn at hend
  simp only at h1 h2
  omega

/-- **One call.** The verdict is right exactly when the new range lies around no recorded one. -/
theorem verdictRight_iff {d : Checker} {op : RangeOp} (hne : ∀ p ∈ d.ranges, p.lo ≤ p.hi)
    (hv : op.Valid d) : VerdictRight d op ↔ NotAround d op := by
  cases op with
  | add lo size =>
      obtain ⟨h0, hlt⟩ := hv
      have hhi := rangeHi_eq h0 hlt
      have hle : lo ≤ rangeHi lo size := by omega
      rcases addRange_cases d.heap d.ranges lo h0 with
        ⟨hwhy, e, he⟩ | ⟨⟨hal, hout, hend⟩, hok⟩
      · simp only [VerdictRight, NotAround, he]
        -- a refusal is always right: an end point in a range is a shared byte
        refine ⟨fun _ => Or.inr hwhy, fun _ => ?_⟩
        rcases hwhy with h | h | ⟨p, hp, h⟩
        · exact Or.inl h
        · exact Or.inr (Or.inl h)
        · exact Or.inr (Or.inr ⟨p, hp, shares_of_endpointIn hle h⟩)
      · simp only [VerdictRight, NotAround, hok]
        -- an accepted range shares a byte with a recorded one only by lying around it
        constructor
        · intro hno
          refine Or.inl (fun p hp hin => hno p hp ⟨p.lo, ⟨?_, ?_⟩, Nat.le_refl _, hne p hp⟩)
          · exact Nat.le_of_lt hin.1
          · exact (hne p hp).trans (Nat.le_of_lt hin.2)
        · rintro (hno | h | h | ⟨p, hp, h⟩) q hq hsh
          · exact hno q hq (around_of_shares (hend q hq) hsh)
          · exact h hal
          · exact hout h
          · exact hend p hp h
  | remove lo => exact Iff.rfl
  | sbrk brk => exact Iff.rfl

theorem removeRange_sublist (ranges : List Range) (lo : Nat) :
    (removeRange ranges lo).Sublist ranges := by
  induction ranges with
  | nil => exact List.Sublist.slnil
  | cons p ps ih =>
      rw [removeRange]
      split
      · exact List.sublist_cons_self p ps
      · exact ih.cons_cons p

/-- A right verdict keeps the records as they should be. -/
theorem recorded_step {d : Checker} {op : RangeOp} (hrec : Recorded d)
    (hne : ∀ p ∈ d.ranges, p.lo ≤ p.hi) (hv : op.Valid d) (hright : VerdictRight d op) :
    Recorded (d.step op) ∧ ∀ p ∈ (d.step op).ranges, p.lo ≤ p.hi := by
  cases op with
  | add lo size =>
      obtain ⟨h0, hlt⟩ := hv
      have hhi := rangeHi_eq h0 hlt
      rcases addRange_cases d.heap d.ranges lo h0 with
        ⟨-, e, he⟩ | ⟨⟨hal, hout, -⟩, hok⟩
      · rw [Checker.step, he]
        exact ⟨hrec, hne⟩
      · simp only [VerdictRight, hok] at hright
        rw [Checker.step, hok]
        unfold outsideHeap at hout
        refine ⟨⟨?_, ?_, ?_⟩, ?_⟩
        · exact List.forall_mem_cons.mpr ⟨hal, hrec.aligned⟩
        · refine List.forall_mem_cons.mpr ⟨fun y hy1 hy2 => ?_, hrec.inside⟩
          show memHeapLo d.heap ≤ y ∧ y ≤ memHeapHi d.heap
          simp only at hy1 hy2
          omega
        · exact List.pairwise_cons.mpr ⟨hright, hrec.disjoint⟩
        · exact List.forall_mem_cons.mpr ⟨by simp only; omega, hne⟩
  | remove lo =>
      -- what is left is part of the old records
      have hsub := removeRange_sublist d.ranges lo
      exact ⟨⟨fun p hp => hrec.aligned p (hsub.subset hp), fun p hp => hrec.inside p (hsub.subset hp),
        hrec.disjoint.sublist hsub⟩, fun p hp => hne p (hsub.subset hp)⟩
  | sbrk brk =>
      refine ⟨⟨hrec.aligned, fun p hp y h1 h2 => ?_, hrec.disjoint⟩, hne⟩
      obtain ⟨hlo, hhi⟩ := hrec.inside p hp y h1 h2
      exact ⟨hlo, hhi.trans hv⟩

/-! ## All sequences -/

theorem alwaysRight_iff {d : Checker} {ops : List RangeOp} (hrec : Recorded d)
    (hne : ∀ p ∈ d.ranges, p.lo ≤ p.hi) (hv : AllValid d ops) :
    AlwaysRight d ops ↔ NeverAround d ops := by
  induction ops generalizing d with
  | nil => exact ⟨fun _ => trivial, fun _ => hrec⟩
  | cons op ops ih =>
      obtain ⟨hop, hops⟩ := hv
      have hone := verdictRight_iff hne hop
      have hrest : VerdictRight d op → (AlwaysRight (d.step op) ops ↔ NeverAround (d.step op) ops) := by
        intro hright
        obtain ⟨hrec', hne'⟩ := recorded_step hrec hne hop hright
        exact ih hrec' hne' hops
      constructor
      · rintro ⟨-, hright, halways⟩
        exact ⟨hone.mp hright, (hrest hright).mp halways⟩
      · rintro ⟨hnot, hnever⟩
        have hright := hone.mpr hnot
        exact ⟨hrec, hright, (hrest hright).mpr hnever⟩

theorem recorded_nil (h : Heap) : Recorded ⟨h, []⟩ :=
  ⟨fun _ hp => (nomatch hp), fun _ hp => (nomatch hp), List.Pairwise.nil⟩

/-- **When the checker is right.** From an empty list, all records and verdicts of a sequence of
calls are right exactly when no new range is ever put around a recorded one. -/
theorem checker_right_iff {h : Heap} {ops : List RangeOp} (hv : AllValid ⟨h, []⟩ ops) :
    AlwaysRight ⟨h, []⟩ ops ↔ NeverAround ⟨h, []⟩ ops :=
  alwaysRight_iff (recorded_nil h) (fun _ hp => nomatch hp) hv

/-- The heap `[0x1000, 0x1100)`. -/
def rangedHeap : Heap := { sampleHeap with memBrk := 0x1100 }

/-- The second range may be recorded once the first is removed. -/
theorem checker_right_iff_sample :
    AlwaysRight ⟨rangedHeap, []⟩ [.add 0x1010 8, .remove 0x1010, .add 0x1008 24]
      ↔ NeverAround ⟨rangedHeap, []⟩ [.add 0x1010 8, .remove 0x1010, .add 0x1008 24] :=
  checker_right_iff ⟨⟨by decide, by decide⟩, trivial, ⟨by decide, by decide⟩, trivial⟩

/-- The 24 bytes at `0x1008` are accepted around the 8 bytes recorded at `0x1010`. -/
theorem checker_misses :
    AllValid ⟨rangedHeap, []⟩ [.add 0x1010 8, .add 0x1008 24] ∧
      ¬AlwaysRight ⟨rangedHeap, []⟩ [.add 0x1010 8, .add 0x1008 24] := by
  refine ⟨⟨⟨by decide, by decide⟩, ⟨by decide, by decide⟩, trivial⟩, ?_⟩
  rintro ⟨-, -, -, hright, -⟩
  have hnot : ¬Range.Shares ⟨0x1008, 0x101f⟩ ⟨0x1010, 0x1017⟩ :=
    hright ⟨0x1010, 0x1017⟩ (List.mem_singleton.mpr rfl)
  exact hnot ⟨0x1010, ⟨by decide, by decide⟩, by decide, by decide⟩

end MallocLab
