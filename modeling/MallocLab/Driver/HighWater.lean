import MallocLab.Lib.Commands
import MallocLab.Driver.Agree
import MallocLab.Traces.Generators

set_option autoImplicit false

/-! # What the generated traces hold

The largest number of live blocks of a trace, and its high-water mark. Both are about the list of
live sizes while the requests go by, so each loop of a script has one invariant for them.
-/

namespace MallocLab

open Commands

/-- From the live sizes in `A`, the requests lead to live sizes in `B`, and all on the way are in
`P`. -/
def Carries (P A : List (Nat × Int) → Prop) (ops : List TraceOp) (B : List (Nat × Int) → Prop) :
    Prop :=
  Triple (fun sizes op => some (TraceOp.resize sizes op)) P A ops B

/-- At most `M` bytes are held. -/
def AtMost (M : Int) (sizes : List (Nat × Int)) : Prop :=
  (∀ x ∈ sizes, 0 ≤ x.2) ∧ (sizes.map Prod.snd).sum ≤ M

section Rules

variable {P A B C : List (Nat × Int) → Prop} {ops : List TraceOp} {op : TraceOp}

theorem Carries.cons (hP : ∀ sizes, A sizes → P sizes) (h : ∀ sizes, A sizes → B (op.resize sizes))
    (hrest : Carries P B ops C) : Carries P A (op :: ops) C := by
  refine Triple.cons hP (fun sizes sizes' hA hstep => ?_) hrest
  cases hstep
  exact h sizes hA

theorem Carries.one (hP : ∀ sizes, A sizes → P sizes)
    (h : ∀ sizes, A sizes → P (op.resize sizes) ∧ B (op.resize sizes)) : Carries P A [op] B :=
  Carries.cons (B := fun sizes => P sizes ∧ B sizes) hP h (Triple.nil fun _ hs => hs)

/-- What is held during a trace. -/
theorem Carries.liveSizes (h : Carries P (fun sizes => sizes = []) ops B) :
    (∀ pre, pre <+: ops → P (liveSizes pre)) ∧ B (liveSizes ops) := by
  obtain ⟨hpre, hend⟩ := h [] rfl
  exact ⟨fun pre hp => hpre pre _ hp (run_foldl _ _ _), hend _ (run_foldl _ _ _)⟩

/-- Frees do not let a trace hold more. -/
theorem Carries.frees {M : Int} (hfrees : ∀ op ∈ ops, op.type = .free) :
    Carries (AtMost M) (AtMost M) ops (AtMost M) := by
  induction ops with
  | nil => exact Triple.nil (fun sizes hs => ⟨hs, hs⟩)
  | cons op ops ih =>
      obtain ⟨hop, hrest⟩ := List.forall_mem_cons.mp hfrees
      refine Carries.cons (fun _ hs => hs) (fun sizes hs => ?_) (ih hrest)
      have hresize : op.resize sizes = sizes.filter (·.1 ≠ op.index) := by
        rw [TraceOp.resize, hop]
      have hsub : (sizes.filter (·.1 ≠ op.index)).Sublist sizes := List.filter_sublist
      rw [hresize]
      refine ⟨fun x hx => hs.1 x (hsub.subset hx), le_trans ?_ hs.2⟩
      refine (hsub.map Prod.snd).sum_le_sum (fun n hn => ?_)
      obtain ⟨x, hx, rfl⟩ := List.mem_map.mp hn
      exact hs.1 x hx

end Rules

/-- The high-water mark, when it is reached and not exceeded. -/
theorem highWater_of {ops : List TraceOp} {m : Int} (hmem : ∃ pre, pre <+: ops ∧ liveTotal pre = m)
    (hle : ∀ pre, pre <+: ops → liveTotal pre ≤ m) : highWater ops = m := by
  refine (highWater_eq ⟨hmem, ?_⟩).symm
  rintro _ ⟨pre, hpre, rfl⟩
  exact hle pre hpre

theorem le_highWater {ops pre : List TraceOp} (hpre : pre <+: ops) :
    liveTotal pre ≤ highWater ops := by
  refine (isGreatest_foldr_max _).2 (Or.inr ?_)
  exact List.mem_map_of_mem ((List.mem_inits _ _).mpr hpre)

/-! ## `gen_coalescing.pl` -/

section Coalescing

variable {blkSize numIters : Nat}

/-- Never more than two blocks, and never more than the large one. -/
theorem coalescing_carries :
    Carries (fun sizes => sizes.length ≤ 2 ∧ (sizes.map Prod.snd).sum ≤ ((2 * blkSize : Nat) : Int))
      (fun sizes => sizes = []) (coalescingOps blkSize numIters) (fun sizes => sizes = []) := by
  refine Triple.loop (I := fun _ sizes => sizes = []) ?_ (fun i _ => ?_)
  · rintro _ rfl
    simp
  · refine Carries.cons (B := fun sizes => sizes = [(3 * i, (blkSize : Int))]) ?_ ?_ ?_
    · rintro _ rfl
      simp
    · rintro _ rfl
      rfl
    refine Carries.cons
      (B := fun sizes => sizes = [(3 * i + 1, (blkSize : Int)), (3 * i, (blkSize : Int))]) ?_ ?_ ?_
    · rintro _ rfl
      simp
      omega
    · rintro _ rfl
      simp [TraceOp.resize, TraceOp.a]
    refine Carries.cons (B := fun sizes => sizes = [(3 * i + 1, (blkSize : Int))]) ?_ ?_ ?_
    · rintro _ rfl
      simp
      omega
    · rintro _ rfl
      simp [TraceOp.resize, TraceOp.f]
    refine Carries.cons (B := fun sizes => sizes = []) ?_ ?_ ?_
    · rintro _ rfl
      simp
      omega
    · rintro _ rfl
      simp [TraceOp.resize, TraceOp.f]
    refine Carries.cons (B := fun sizes => sizes = [(3 * i + 2, ((2 * blkSize : Nat) : Int))]) ?_ ?_ ?_
    · rintro _ rfl
      simp
    · rintro _ rfl
      rfl
    refine Carries.one ?_ ?_
    · rintro _ rfl
      simp
    · rintro _ rfl
      simp [TraceOp.resize, TraceOp.f]

theorem highWater_coalescing (hn : 1 ≤ numIters) :
    highWater (coalescingOps blkSize numIters) = ((2 * blkSize : Nat) : Int) := by
  refine highWater_of ?_ (fun pre hpre => (coalescing_carries.liveSizes.1 pre hpre).2)
  refine ⟨[.a (3 * 0) blkSize, .a (3 * 0 + 1) blkSize], ?_, ?_⟩
  · obtain ⟨n, rfl⟩ := Nat.exists_eq_add_of_le' hn
    rw [coalescingOps, List.range_succ_eq_map, List.flatMap_cons]
    exact (List.prefix_append [_, _] [_, _, _, _]).trans (List.prefix_append _ _)
  · show (blkSize : Int) + ((blkSize : Int) + 0) = _
    push_cast
    ring

end Coalescing

/-! ## `gen_binary.pl` -/

/-- The live sizes while ids are taken from 0 on: their total, and some that they are known to
contain. -/
structure Census (sizes : List (Nat × Int)) (next : Nat) (known : Set (Nat × Int)) (total : Int) :
    Prop where
  nodup : (sizes.map Prod.fst).Nodup
  below : ∀ x ∈ sizes, x.1 < next
  nonneg : ∀ x ∈ sizes, 0 ≤ x.2
  known : ∀ x ∈ known, x ∈ sizes
  total : (sizes.map Prod.snd).sum = total

theorem Census.alloc {sizes : List (Nat × Int)} {next n : Nat} {known known' : Set (Nat × Int)}
    {total : Int} (h : Census sizes next known total)
    (hknown : ∀ x ∈ known', x = (next, (n : Int)) ∨ x ∈ known) :
    Census ((TraceOp.a next n).resize sizes) (next + 1) known' (total + n) := by
  have hall : sizes.filter (·.1 ≠ next) = sizes := by
    refine List.filter_eq_self.mpr (fun x hx => decide_eq_true fun he => ?_)
    exact absurd (h.below x hx) (by omega)
  have hresize : (TraceOp.a next n).resize sizes = (next, (n : Int)) :: sizes := by
    show (next, (n : Int)) :: sizes.filter (·.1 ≠ next) = _
    rw [hall]
  rw [hresize]
  refine ⟨?_, ?_, ?_, ?_, ?_⟩
  · rw [List.map_cons, List.nodup_cons]
    refine ⟨fun hmem => ?_, h.nodup⟩
    obtain ⟨x, hx, he⟩ := List.mem_map.mp hmem
    exact absurd (h.below x hx) (by omega)
  · intro x hx
    rcases List.mem_cons.mp hx with rfl | hx
    · exact Nat.lt_succ_self next
    · exact Nat.lt_succ_of_lt (h.below x hx)
  · intro x hx
    rcases List.mem_cons.mp hx with rfl | hx
    · exact Int.natCast_nonneg n
    · exact h.nonneg x hx
  · intro x hx
    rcases hknown x hx with rfl | hx
    · exact List.mem_cons_self
    · exact List.mem_cons_of_mem _ (h.known x hx)
  · rw [List.map_cons, List.sum_cons, h.total, Int.add_comm]

theorem Census.free {sizes : List (Nat × Int)} {next id n : Nat} {known known' : Set (Nat × Int)}
    {total : Int} (h : Census sizes next known total) (hmem : (id, (n : Int)) ∈ known)
    (hknown : ∀ x ∈ known', x ∈ known ∧ x.1 ≠ id) :
    Census ((TraceOp.f id).resize sizes) next known' (total - n) := by
  have hsub : (sizes.filter (·.1 ≠ id)).Sublist sizes := List.filter_sublist
  refine ⟨h.nodup.sublist (hsub.map _), fun x hx => h.below x (hsub.subset hx),
    fun x hx => h.nonneg x (hsub.subset hx), fun x hx => ?_, ?_⟩
  · obtain ⟨hx, hne⟩ := hknown x hx
    exact List.mem_filter.mpr ⟨h.known x hx, decide_eq_true hne⟩
  · show ((sizes.filter (·.1 ≠ id)).map Prod.snd).sum = _
    rw [sum_filter_ne h.nodup (h.known _ hmem), h.total]

theorem Census.atMost {sizes : List (Nat × Int)} {next t M : Nat} {known : Set (Nat × Int)}
    (h : Census sizes next known (t : Int)) (hle : t ≤ M) : AtMost M sizes := by
  refine ⟨h.nonneg, ?_⟩
  rw [h.total]
  exact Int.ofNat_le.mpr hle

section Binary

variable {blkSize1 blkSize2 numIters M : Nat}

/-- The first loop holds all the pairs. -/
theorem pairs_census (hM : numIters * (blkSize1 + blkSize2) ≤ M) :
    Carries (AtMost M) (fun sizes => sizes = [])
      ((List.range numIters).flatMap (fun i => [.a (2 * i) blkSize1, .a (2 * i + 1) blkSize2]))
      (fun sizes => Census sizes (2 * numIters)
        { x | ∃ j < numIters, x = (2 * j + 1, (blkSize2 : Int)) }
        ((numIters * (blkSize1 + blkSize2) : Nat) : Int)) := by
  refine Triple.weaken (Triple.loop (I := fun i sizes => Census sizes (2 * i)
    { x | ∃ j < i, x = (2 * j + 1, (blkSize2 : Int)) } ((i * (blkSize1 + blkSize2) : Nat) : Int))
    (fun sizes h => h.atMost (by omega)) fun i hi => ?_) ?_ (fun _ h => h)
  swap
  · rintro _ rfl
    exact ⟨List.nodup_nil, by simp, by simp, by simp, by simp⟩
  have hround : i * (blkSize1 + blkSize2) + (blkSize1 + blkSize2) ≤ M := by
    calc i * (blkSize1 + blkSize2) + (blkSize1 + blkSize2)
        = (i + 1) * (blkSize1 + blkSize2) := by ring
      _ ≤ numIters * (blkSize1 + blkSize2) := Nat.mul_le_mul_right _ hi
      _ ≤ M := hM
  refine Carries.cons (B := fun sizes => Census sizes (2 * i + 1)
    { x | ∃ j < i, x = (2 * j + 1, (blkSize2 : Int)) }
    ((i * (blkSize1 + blkSize2) + blkSize1 : Nat) : Int)) ?_ ?_ (Carries.one ?_ fun sizes h => ?_)
  · exact fun sizes h => h.atMost (by omega)
  · exact fun sizes h => h.alloc (fun x hx => Or.inr hx)
  · exact fun sizes h => h.atMost (by omega)
  · have hsize : ((i * (blkSize1 + blkSize2) + blkSize1 : Nat) : Int) + blkSize2
        = (((i + 1) * (blkSize1 + blkSize2) : Nat) : Int) := by
      push_cast
      ring
    have hafter : Census ((TraceOp.a (2 * i + 1) blkSize2).resize sizes) (2 * (i + 1))
        { x | ∃ j < i + 1, x = (2 * j + 1, (blkSize2 : Int)) }
        (((i + 1) * (blkSize1 + blkSize2) : Nat) : Int) := by
      rw [← hsize]
      refine h.alloc ?_
      rintro x ⟨j, hj, rfl⟩
      by_cases he : j = i
      · exact Or.inl (by rw [he])
      · exact Or.inr ⟨j, by omega, rfl⟩
    refine ⟨hafter.atMost ?_, hafter⟩
    rw [Nat.add_mul, Nat.one_mul]
    exact hround

/-- The second loop frees the second block of each pair. -/
theorem seconds_census (hM : numIters * (blkSize1 + blkSize2) ≤ M) :
    Carries (AtMost M)
      (fun sizes => Census sizes (2 * numIters)
        { x | ∃ j < numIters, x = (2 * j + 1, (blkSize2 : Int)) }
        ((numIters * (blkSize1 + blkSize2) : Nat) : Int))
      ((List.range numIters).flatMap (fun i => [.f (2 * i + 1)]))
      (fun sizes => Census sizes (2 * numIters) ∅ ((numIters * blkSize1 : Nat) : Int)) := by
  rw [Nat.mul_add] at hM
  have hle : ∀ i, (numIters - i) * blkSize2 ≤ numIters * blkSize2 :=
    fun i => Nat.mul_le_mul_right _ (Nat.sub_le _ _)
  have hbound : ∀ i, numIters * blkSize1 + (numIters - i) * blkSize2 ≤ M := by
    intro i
    calc numIters * blkSize1 + (numIters - i) * blkSize2
        ≤ numIters * blkSize1 + numIters * blkSize2 := Nat.add_le_add_left (hle i) _
      _ ≤ M := hM
  refine Triple.weaken (Triple.loop (I := fun i sizes => Census sizes (2 * numIters)
    { x | ∃ j, i ≤ j ∧ j < numIters ∧ x = (2 * j + 1, (blkSize2 : Int)) }
    ((numIters * blkSize1 + (numIters - i) * blkSize2 : Nat) : Int))
    (fun sizes h => h.atMost (hbound 0)) fun i hi => ?_) (fun sizes h => ?_) (fun sizes h => ?_)
  rotate_left
  · refine ⟨h.nodup, h.below, h.nonneg, ?_, ?_⟩
    · rintro x ⟨j, -, hj, rfl⟩
      exact h.known _ ⟨j, hj, rfl⟩
    · rw [h.total, Nat.sub_zero, Nat.mul_add]
  · refine ⟨h.nodup, h.below, h.nonneg, fun x hx => absurd hx (Set.notMem_empty x), ?_⟩
    rw [h.total, Nat.sub_self, Nat.zero_mul, Nat.add_zero]
  refine Carries.one (fun sizes h => h.atMost (hbound i)) (fun sizes h => ?_)
  have hsize : ((numIters * blkSize1 + (numIters - i) * blkSize2 : Nat) : Int) - blkSize2
      = ((numIters * blkSize1 + (numIters - (i + 1)) * blkSize2 : Nat) : Int) := by
    obtain ⟨k, rfl⟩ := Nat.exists_eq_add_of_lt hi
    rw [show i + k + 1 - i = k + 1 by omega, show i + k + 1 - (i + 1) = k by omega]
    push_cast
    ring
  have hafter : Census ((TraceOp.f (2 * i + 1)).resize sizes) (2 * numIters)
      { x | ∃ j, i + 1 ≤ j ∧ j < numIters ∧ x = (2 * j + 1, (blkSize2 : Int)) }
      ((numIters * blkSize1 + (numIters - (i + 1)) * blkSize2 : Nat) : Int) := by
    rw [← hsize]
    refine h.free ⟨i, le_refl i, hi, rfl⟩ ?_
    rintro x ⟨j, hij, hj, rfl⟩
    exact ⟨⟨j, by omega, hj, rfl⟩, by simp; omega⟩
  exact ⟨hafter.atMost (hbound (i + 1)), hafter⟩

/-- The third loop adds a block of the size of both for each pair. -/
theorem large_census (hM : numIters * blkSize1 + numIters * (blkSize1 + blkSize2) ≤ M) :
    Carries (AtMost M)
      (fun sizes => Census sizes (2 * numIters) ∅ ((numIters * blkSize1 : Nat) : Int))
      ((List.range numIters).flatMap (fun i => [.a (2 * numIters + i) (blkSize1 + blkSize2)]))
      (fun sizes => Census sizes (2 * numIters + numIters) ∅
        ((numIters * blkSize1 + numIters * (blkSize1 + blkSize2) : Nat) : Int)) := by
  have hbound : ∀ i, i ≤ numIters → numIters * blkSize1 + i * (blkSize1 + blkSize2) ≤ M := by
    intro i hi
    calc numIters * blkSize1 + i * (blkSize1 + blkSize2)
        ≤ numIters * blkSize1 + numIters * (blkSize1 + blkSize2) :=
          Nat.add_le_add_left (Nat.mul_le_mul_right _ hi) _
      _ ≤ M := hM
  refine Triple.weaken (Triple.loop (I := fun i sizes => Census sizes (2 * numIters + i) ∅
    ((numIters * blkSize1 + i * (blkSize1 + blkSize2) : Nat) : Int))
    (fun sizes h => h.atMost (hbound 0 (Nat.zero_le _))) fun i hi => ?_) (fun sizes h => ?_)
    (fun _ h => h)
  swap
  · rw [Nat.zero_mul, Nat.add_zero]
    exact h
  refine Carries.one (fun sizes h => h.atMost (hbound i hi.le)) (fun sizes h => ?_)
  have hsize : ((numIters * blkSize1 + i * (blkSize1 + blkSize2) : Nat) : Int)
      + (blkSize1 + blkSize2 : Nat)
      = ((numIters * blkSize1 + (i + 1) * (blkSize1 + blkSize2) : Nat) : Int) := by
    push_cast
    ring
  have hafter : Census ((TraceOp.a (2 * numIters + i) (blkSize1 + blkSize2)).resize sizes)
      (2 * numIters + (i + 1)) ∅
      ((numIters * blkSize1 + (i + 1) * (blkSize1 + blkSize2) : Nat) : Int) := by
    rw [← hsize]
    exact h.alloc (fun x hx => absurd hx (Set.notMem_empty x))
  exact ⟨hafter.atMost (hbound (i + 1) hi), hafter⟩

theorem binary_carries (hM : numIters * (2 * blkSize1 + blkSize2) ≤ M) :
    Carries (AtMost M) (fun sizes => sizes = []) (binaryOps blkSize1 blkSize2 numIters)
      (fun sizes => Census sizes (2 * numIters + numIters) ∅
        ((numIters * (2 * blkSize1 + blkSize2) : Nat) : Int)) := by
  have hsum : numIters * (2 * blkSize1 + blkSize2)
      = numIters * blkSize1 + numIters * (blkSize1 + blkSize2) := by ring
  rw [hsum] at hM ⊢
  have hpairs : numIters * (blkSize1 + blkSize2) ≤ M := (Nat.le_add_left _ _).trans hM
  exact ((pairs_census hpairs).append (seconds_census hpairs)).append (large_census hM)

/-- `gen_binary.pl` holds the most at its end, whatever is freed then. -/
theorem highWater_binary {frees : List TraceOp} (hfrees : ∀ op ∈ frees, op.type = .free) :
    highWater (binaryOps blkSize1 blkSize2 numIters ++ frees)
      = ((numIters * (2 * blkSize1 + blkSize2) : Nat) : Int) := by
  have hops : Carries _ _ (binaryOps blkSize1 blkSize2 numIters) _ := binary_carries (le_refl _)
  have hall : Carries _ _ (binaryOps blkSize1 blkSize2 numIters ++ frees) _ :=
    Triple.append hops ((Carries.frees hfrees).weaken (fun _ h => h.atMost (le_refl _)) fun _ h => h)
  refine highWater_of ⟨_, List.prefix_append _ _, ?_⟩ (fun pre hpre => (hall.liveSizes.1 pre hpre).2)
  exact hops.liveSizes.2.total

end Binary

/-! ## `gen_realloc.pl` -/

section Realloc

variable {reallocSize sizeIncrement mallocSize numIters : Nat}

/-- The loop holds the block that grows and a small one, and in between two small ones. -/
theorem reallocLoop_carries {left blk size M : Nat} (hblk : 1 ≤ blk)
    (hM : size + left * sizeIncrement + 2 * mallocSize ≤ M) :
    Carries (fun sizes => sizes.length ≤ 3 ∧ (sizes.map Prod.snd).sum ≤ (M : Int))
      (fun sizes => sizes = [(blk, (mallocSize : Int)), (0, (size : Int))])
      (reallocLoop sizeIncrement mallocSize left blk size) (fun sizes => sizes = []) := by
  induction left generalizing blk size with
  | zero =>
      refine Carries.cons (B := fun sizes => sizes = [(0, (size : Int))]) ?_ ?_ (Carries.one ?_ ?_)
      · rintro _ rfl
        simp
        omega
      · rintro _ rfl
        have hne : (0 : Nat) ≠ blk := by omega
        simp [TraceOp.resize, TraceOp.f, hne]
      · rintro _ rfl
        simp
        omega
      · rintro _ rfl
        simp [TraceOp.resize, TraceOp.f]
  | succ left ih =>
      rw [Nat.add_mul, Nat.one_mul] at hM
      have hne : blk ≠ 0 := by omega
      refine Carries.cons (B := fun sizes =>
        sizes = [(0, ((size + sizeIncrement : Nat) : Int)), (blk, (mallocSize : Int))]) ?_ ?_ ?_
      · rintro _ rfl
        simp
        omega
      · rintro _ rfl
        simp [TraceOp.resize, TraceOp.r, hne]
      refine Carries.cons (B := fun sizes => sizes = [(blk + 1, (mallocSize : Int)),
        (0, ((size + sizeIncrement : Nat) : Int)), (blk, (mallocSize : Int))]) ?_ ?_ ?_
      · rintro _ rfl
        simp
        omega
      · rintro _ rfl
        simp [TraceOp.resize, TraceOp.a]
      have hnext := @ih (blk + 1) (size + sizeIncrement) (by omega) (by omega)
      refine Carries.cons ?_ ?_ hnext
      · rintro _ rfl
        simp
        omega
      · rintro _ rfl
        simp [TraceOp.resize, TraceOp.f, hne.symm]

/-- Never more than three blocks, of which two are small. -/
theorem realloc_carries {M : Nat}
    (hM : reallocSize + (numIters - 1) * sizeIncrement + 2 * mallocSize ≤ M) :
    Carries (fun sizes => sizes.length ≤ 3 ∧ (sizes.map Prod.snd).sum ≤ (M : Int))
      (fun sizes => sizes = []) (reallocOps reallocSize sizeIncrement mallocSize numIters)
      (fun sizes => sizes = []) := by
  refine Carries.cons (B := fun sizes => sizes = [(0, (reallocSize : Int))]) ?_ ?_ (Carries.cons ?_ ?_
    (reallocLoop_carries (le_refl 1) hM))
  · rintro _ rfl
    simp
  · rintro _ rfl
    rfl
  · rintro _ rfl
    simp
    omega
  · rintro _ rfl
    rfl

/-- Before its last two frees the loop holds the grown block and a small one. -/
theorem reallocLoop_grown (sizeIncrement mallocSize left size : Nat) {blk : Nat} (hblk : 1 ≤ blk) :
    ∃ pre, pre <+: reallocLoop sizeIncrement mallocSize left blk size ∧
      pre.foldl TraceOp.resize [(blk, (mallocSize : Int)), (0, (size : Int))]
        = [(blk + left, (mallocSize : Int)), (0, ((size + left * sizeIncrement : Nat) : Int))] := by
  induction left generalizing blk size with
  | zero => exact ⟨[], List.nil_prefix, by simp⟩
  | succ left ih =>
      obtain ⟨pre, hpre, hsizes⟩ := @ih (size + sizeIncrement) (blk + 1) (by omega)
      have hne : blk ≠ 0 := by omega
      refine ⟨[.r 0 (size + sizeIncrement), .a (blk + 1) mallocSize, .f blk] ++ pre, ?_, ?_⟩
      · rw [reallocLoop]
        exact (List.prefix_append_right_inj _).mpr hpre
      · have hround : [TraceOp.r 0 (size + sizeIncrement), .a (blk + 1) mallocSize, .f blk].foldl
            TraceOp.resize [(blk, (mallocSize : Int)), (0, (size : Int))]
            = [(blk + 1, (mallocSize : Int)), (0, ((size + sizeIncrement : Nat) : Int))] := by
          simp [TraceOp.resize, TraceOp.r, TraceOp.a, TraceOp.f, hne, hne.symm]
        rw [List.foldl_append, hround, hsizes, Nat.add_right_comm blk 1 left, Nat.add_assoc blk,
          Nat.add_mul, Nat.one_mul, Nat.add_comm (left * sizeIncrement), Nat.add_assoc size]

theorem le_highWater_realloc :
    ((reallocSize + (numIters - 1) * sizeIncrement + mallocSize : Nat) : Int)
      ≤ highWater (reallocOps reallocSize sizeIncrement mallocSize numIters) := by
  obtain ⟨pre, hpre, hsizes⟩ := reallocLoop_grown sizeIncrement mallocSize (numIters - 1)
    reallocSize (le_refl 1)
  have hle := le_highWater ((List.prefix_append_right_inj
    [TraceOp.a 0 reallocSize, .a 1 mallocSize]).mpr hpre)
  refine le_trans (le_of_eq ?_) hle
  rw [liveTotal, liveSizes, List.foldl_append]
  show _ = ((pre.foldl TraceOp.resize [(1, (mallocSize : Int)), (0, (reallocSize : Int))]).map
    Prod.snd).sum
  rw [hsizes]
  simp
  ring

end Realloc

end MallocLab
