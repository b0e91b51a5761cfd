import MallocLab.Basic.Sbrk
import MallocLab.Driver.Main
import MallocLab.Lib.Always

set_option autoImplicit false

/-! # When the break cannot wrap around

`mem_sbrk` compares `mem_brk + incr` with the end of the arena after the sum is cut to 32 bits, so
a large request in a high arena moves the break backwards. What the allocator asks `mem_sbrk` for
is bounded by the request alone, whatever is in memory. So when the arena ends that far below
`2^32`, or in the lower half of the address space, no sum wraps around in any state, and the break
stays in the arena in the whole run of `main` (`main_noWrap`).
-/

namespace MallocLab

open Logged Words

/-- The break is in an arena from `lo` to `top`. -/
structure Within (lo top : Nat) (h : Heap) : Prop where
  start : lo ≤ h.memStartBrk ∧ h.memStartBrk ≤ top
  brk : lo ≤ h.memBrk ∧ h.memBrk ≤ top
  max : h.memMaxAddr = top

/-- The event shows the break from `lo` to `top`. -/
def Event.BrkIn (lo top : Nat) : Event → Prop
  | .get _ _ brk | .put _ _ brk | .sbrk _ brk => lo ≤ brk ∧ brk ≤ top
  | _ => True

def Event.Stays (lo top : Nat) (e : Event) : Prop := e.BrkIn lo top ∧ e.NoWrap

theorem noWrap_of_stays {lo top : Nat} {log : List Event} (h : ∀ e ∈ log, e.Stays lo top) :
    NoWrap log := fun e he => (h e he).2

/-- An `int` up to `n` can be added to the break. -/
def Room (top n : Nat) : Prop := top + n < 2 ^ 32 ∨ top ≤ 2 ^ 31

theorem Room.mono {top m n : Nat} (h : Room top n) (hmn : m ≤ n) : Room top m :=
  h.imp_left (fun hlt => by omega)

/-- What `mem_sbrk` may be asked for by a request of `n` bytes. -/
def growthBound (n : Nat) : Nat := max (n + 15) CHUNKSIZE + DSIZE

/-! ## The functions of `mm.c` -/

section Allocator

variable {lo top : Nat}

theorem memSbrk_always {incr : Int} (hincr : 0 ≤ incr → top + incr < 2 ^ 32) :
    Always (Within lo top) (Event.Stays lo top) (memSbrk incr) := by
  have htest : ∀ h, Within lo top h → (Event.sbrk incr h.memBrk).Stays lo top := by
    intro h hh
    refine ⟨hh.brk, fun h0 => ?_⟩
    have hsum := hincr h0
    have hbrk := hh.brk.2
    omega
  intro h hh
  constructor
  · -- the one event that says something is the sum itself
    intro e he
    unfold memSbrk at he
    simp only [log_bind, log_reads, out_reads, log_emits, out_emits, List.nil_append] at he
    rcases List.mem_append.mp he with he | he
    · rw [List.mem_singleton.mp he]
      exact htest h hh
    · split at he
      · rw [log_bind] at he
        rcases List.mem_append.mp he with he | he
        · rw [List.mem_singleton.mp he]
          exact ⟨trivial, trivial⟩
        · cases he
      · rw [log_bind] at he
        rcases List.mem_append.mp he with he | he
        · cases he
        · cases he
  · intro p h' hout
    -- the break only moves after a test that was passed, to a sum that is no larger than `top`
    rcases memSbrk_cases h incr with ⟨-, hrun, -⟩ | ⟨h0, hle, hrun, -⟩
    · rw [hrun] at hout
      cases hout
      exact hh
    · rw [hrun] at hout
      cases hout
      have hsum := hincr h0
      have hlo := hh.brk.1
      have hhi := hh.brk.2
      have hnext : add32 h.memBrk incr.toNat = h.memBrk + incr.toNat := add32_eq (by omega)
      refine ⟨hh.start, ⟨?_, hle.trans hh.max.le⟩, hh.max⟩
      show lo ≤ add32 h.memBrk incr.toNat
      omega

theorem get_always (p : Nat) : Always (Within lo top) (Event.Stays lo top) (get p) :=
  (Always.emits fun _ hh => ⟨hh.brk, trivial⟩).bind fun _ => Always.reads _

theorem put_always (p val : Nat) : Always (Within lo top) (Event.Stays lo top) (put p val) := by
  rw [put]
  refine (Always.emits fun _ hh => ⟨hh.brk, trivial⟩).bind fun _ => Always.modifies fun h hh => ?_
  exact ⟨hh.start, hh.brk, hh.max⟩

theorem getSize_always (p : Nat) : Always (Within lo top) (Event.Stays lo top) (getSize p) :=
  (get_always p).bind fun _ => Always.pure _

theorem getAlloc_always (p : Nat) : Always (Within lo top) (Event.Stays lo top) (getAlloc p) :=
  (get_always p).bind fun _ => Always.pure _

theorem ftrp_always (bp : Nat) : Always (Within lo top) (Event.Stays lo top) (ftrp bp) :=
  (getSize_always _).bind fun _ => Always.pure _

theorem nextBlkp_always (bp : Nat) : Always (Within lo top) (Event.Stays lo top) (nextBlkp bp) :=
  (getSize_always _).bind fun _ => Always.pure _

theorem prevBlkp_always (bp : Nat) : Always (Within lo top) (Event.Stays lo top) (prevBlkp bp) :=
  (getSize_always _).bind fun _ => Always.pure _

theorem coalesceCases_always (bp prevAlloc nextAlloc size : Nat) :
    Always (Within lo top) (Event.Stays lo top) (coalesceCases bp prevAlloc nextAlloc size) := by
  rw [coalesceCases]
  refine Always.ite (fun _ => Always.pure _) (fun _ => Always.ite (fun _ => ?_)
    (fun _ => Always.ite (fun _ => ?_) (fun _ => ?_)))
  · refine (nextBlkp_always _).bind fun next => (getSize_always _).bind fun n => ?_
    refine (put_always _ _).bind fun _ => (ftrp_always _).bind fun foot => ?_
    exact (put_always _ _).bind fun _ => Always.pure _
  · refine (prevBlkp_always _).bind fun prev => (getSize_always _).bind fun n => ?_
    refine (ftrp_always _).bind fun foot => (put_always _ _).bind fun _ => ?_
    refine (prevBlkp_always _).bind fun prev => (put_always _ _).bind fun _ => ?_
    exact prevBlkp_always _
  · refine (prevBlkp_always _).bind fun prev => (getSize_always _).bind fun n => ?_
    refine (nextBlkp_always _).bind fun next => (ftrp_always _).bind fun foot => ?_
    refine (getSize_always _).bind fun m => (nextBlkp_always _).bind fun next => ?_
    refine (ftrp_always _).bind fun foot => (put_always _ _).bind fun _ => ?_
    refine (prevBlkp_always _).bind fun prev => (put_always _ _).bind fun _ => ?_
    exact prevBlkp_always _

theorem coalesce_always (bp : Nat) : Always (Within lo top) (Event.Stays lo top) (coalesce bp) := by
  rw [coalesce]
  refine (prevBlkp_always _).bind fun prev => (ftrp_always _).bind fun foot => ?_
  refine (getAlloc_always _).bind fun a => (nextBlkp_always _).bind fun next => ?_
  refine (getAlloc_always _).bind fun b => (getSize_always _).bind fun size => ?_
  exact coalesceCases_always _ _ _ _

theorem place_always (bp asize : Nat) :
    Always (Within lo top) (Event.Stays lo top) (place bp asize) := by
  rw [place]
  refine (getSize_always _).bind fun csize => ?_
  refine (Always.emits fun _ _ => ⟨trivial, trivial⟩).bind fun _ => ?_
  refine Always.ite (fun _ => ?_) (fun _ => ?_)
  · refine (put_always _ _).bind fun _ => (ftrp_always _).bind fun foot => ?_
    refine (put_always _ _).bind fun _ => (nextBlkp_always _).bind fun next => ?_
    refine (put_always _ _).bind fun _ => (ftrp_always _).bind fun foot => ?_
    exact put_always _ _
  · refine (put_always _ _).bind fun _ => (ftrp_always _).bind fun foot => ?_
    exact put_always _ _

theorem fits_always (asize bp : Nat) :
    Always (Within lo top) (Event.Stays lo top) (fits asize bp) := by
  rw [fits]
  refine (getAlloc_always _).bind fun a => Always.ite (fun _ => Always.pure _) fun _ => ?_
  exact (getSize_always _).bind fun size => Always.pure _

theorem findFitLoop_always (asize fuel bp : Nat) :
    Always (Within lo top) (Event.Stays lo top) (findFitLoop asize fuel bp) := by
  induction fuel generalizing bp with
  | zero => exact Always.never
  | succ fuel ih =>
      rw [findFitLoop]
      refine (getSize_always _).bind fun size => Always.ite (fun _ => ?_) (fun _ => Always.pure _)
      refine (fits_always _ _).bind fun fit => Always.ite (fun _ => Always.pure _) (fun _ => ?_)
      exact (nextBlkp_always _).bind fun next => ih next

theorem findFit_always (asize : Nat) :
    Always (Within lo top) (Event.Stays lo top) (findFit asize) :=
  (Always.reads _).bind fun _ => findFitLoop_always _ _ _

/-- The increment of `extend_heap`, as an `int`. -/
theorem extendHeap_incr (words : Nat) (hroom : Room top (DSIZE * (words + 1))) :
    0 ≤ toInt (if words % 2 ≠ 0 then mul32 (add32 words 1) DSIZE else mul32 words DSIZE) →
    top + toInt (if words % 2 ≠ 0 then mul32 (add32 words 1) DSIZE else mul32 words DSIZE)
      < 2 ^ 32 := by
  have hsize : (if words % 2 ≠ 0 then mul32 (add32 words 1) DSIZE else mul32 words DSIZE)
      ≤ DSIZE * (words + 1) ∧
      (if words % 2 ≠ 0 then mul32 (add32 words 1) DSIZE else mul32 words DSIZE) < 2 ^ 32 := by
    unfold mul32 add32 DSIZE
    split <;> omega
  -- what is cut to 32 bits is at most the product; as an `int` it is that or negative
  generalize (if words % 2 ≠ 0 then mul32 (add32 words 1) DSIZE else mul32 words DSIZE) = n at hsize
  intro h0
  unfold toInt at h0 ⊢
  split at h0
  · next hlt =>
      rw [if_pos hlt]
      rcases hroom with hsum | hlow
      · omega
      · omega
  · omega

theorem extendHeap_always {words : Nat} (hroom : Room top (DSIZE * (words + 1))) :
    Always (Within lo top) (Event.Stays lo top) (extendHeap words) := by
  rw [extendHeap]
  refine (memSbrk_always (extendHeap_incr words hroom)).bind fun bp => ?_
  refine Always.ite (fun _ => Always.pure _) (fun _ => ?_)
  refine (put_always _ _).bind fun _ => (ftrp_always _).bind fun foot => ?_
  refine (put_always _ _).bind fun _ => (nextBlkp_always _).bind fun next => ?_
  exact (put_always _ _).bind fun _ => coalesce_always _

theorem mmInit_always (hroom : Room top (growthBound 0)) :
    Always (Within lo top) (Event.Stays lo top) mmInit := by
  have hinit : (0 : Int) ≤ (4 * WSIZE : Nat) → top + ((4 * WSIZE : Nat) : Int) < 2 ^ 32 := by
    intro _
    unfold Room growthBound CHUNKSIZE DSIZE at hroom
    unfold WSIZE
    omega
  have hlistp : ∀ q, Always (Within lo top) (Event.Stays lo top)
      (modifies (fun h : Heap => { h with heapListp := q }) : M Unit) := fun q =>
    Always.modifies fun h hh => ⟨hh.start, hh.brk, hh.max⟩
  rw [mmInit]
  refine (memSbrk_always hinit).bind fun p => (hlistp p).bind fun _ => ?_
  refine Always.ite (fun _ => Always.pure _) (fun _ => ?_)
  refine (put_always _ _).bind fun _ => (put_always _ _).bind fun _ => ?_
  refine (put_always _ _).bind fun _ => (put_always _ _).bind fun _ => ?_
  refine (hlistp _).bind fun _ => ?_
  have hextend : Room top (DSIZE * (CHUNKSIZE / DSIZE + 1)) := hroom
  refine (extendHeap_always hextend).bind fun bp => ?_
  exact Always.ite (fun _ => Always.pure _) (fun _ => Always.pure _)

/-- The bytes of `extend_heap` for a request. -/
theorem extendsize_le (n : Nat) :
    DSIZE * (max (adjust n) CHUNKSIZE / DSIZE + 1) ≤ growthBound n := by
  have hadjust : adjust n ≤ max (n + 15) CHUNKSIZE := by
    unfold adjust mul32 add32 CHUNKSIZE DSIZE
    split <;> omega
  unfold growthBound
  have hmax : max (adjust n) CHUNKSIZE ≤ max (n + 15) CHUNKSIZE :=
    max_le hadjust (le_max_right _ _)
  have hdiv := Nat.div_mul_le_self (max (adjust n) CHUNKSIZE) DSIZE
  rw [Nat.mul_add, Nat.mul_comm]
  omega

/-- **`mm_malloc`**, in every state. -/
theorem mmMalloc_always {n : Nat} (hroom : Room top (growthBound n)) :
    Always (Within lo top) (Event.Stays lo top) (mmMalloc n) := by
  rw [mmMalloc]
  refine Always.ite (fun _ => Always.pure _) (fun _ => (findFit_always _).bind fun bp => ?_)
  refine Always.ite (fun _ => (place_always _ _).bind fun _ => Always.pure _) (fun _ => ?_)
  refine (extendHeap_always (hroom.mono (extendsize_le n))).bind fun bp => ?_
  refine Always.ite (fun _ => Always.pure _) (fun _ => ?_)
  exact (place_always _ _).bind fun _ => Always.pure _

/-- **`mm_free`**, of any address. -/
theorem mmFree_always (bp : Nat) : Always (Within lo top) (Event.Stays lo top) (mmFree bp) := by
  rw [mmFree]
  refine (getSize_always _).bind fun size => (put_always _ _).bind fun _ => ?_
  refine (ftrp_always _).bind fun foot => (put_always _ _).bind fun _ => ?_
  exact (coalesce_always _).bind fun _ => Always.pure _

theorem memcpy_always (dst src n : Nat) :
    Always (Within lo top) (Event.Stays lo top) (memcpy dst src n) := by
  rw [memcpy]
  refine (Always.emits fun _ _ => ⟨trivial, trivial⟩).bind fun _ => Always.modifies fun h hh => ?_
  exact ⟨hh.start, hh.brk, hh.max⟩

/-- **`mm_realloc`**, of any address. -/
theorem mmRealloc_always (bp : Nat) {n : Nat} (hroom : Room top (growthBound n)) :
    Always (Within lo top) (Event.Stays lo top) (mmRealloc bp n) := by
  rw [mmRealloc]
  refine Always.ite (fun _ => (mmFree_always _).bind fun _ => Always.pure _) (fun _ => ?_)
  refine Always.ite (fun _ => mmMalloc_always hroom) (fun _ => ?_)
  refine (mmMalloc_always hroom).bind fun newptr => Always.ite (fun _ => Always.pure _) fun _ => ?_
  refine (getSize_always _).bind fun copySize => (memcpy_always _ _ _).bind fun _ => ?_
  exact (mmFree_always _).bind fun _ => Always.pure _

theorem memResetBrk_always : Always (Within lo top) (Event.Stays lo top) memResetBrk :=
  Always.modifies fun _ hh => ⟨hh.start, hh.start, hh.max⟩

end Allocator

/-! ## The evaluators -/

/-- There is room for the request. -/
def TraceOp.Roomy (top : Nat) (op : TraceOp) : Prop :=
  op.type ≠ .free → Room top (growthBound (toSize op.size))

section Evaluators

variable {lo top : Nat}

/-- A program on a part of the driver's state that holds the heap. -/
theorem onDriver_always {α : Type} {m : M α} (hm : Always (Within lo top) (Event.Stays lo top) m) :
    Always (fun d : Driver => Within lo top d.heap) (Event.Stays lo top) (onDriver m) :=
  hm.zoom (fun _ h => h) (fun _ _ _ h => h)

theorem addRangeTo_always (p : Nat) (size : Int) :
    Always (fun d : Driver => Within lo top d.heap) (Event.Stays lo top) (addRangeTo p size) := by
  rw [addRangeTo]
  refine (Always.reads _).bind fun r => ?_
  rcases r with _ | e | ranges
  · exact Always.never
  · exact Always.pure _
  · exact Always.modifies_bind (fun _ h => h) (Always.pure _)

theorem evalAlloc_always (i index : Nat) {size : Int}
    (hroom : Room top (growthBound (toSize size))) :
    Always (fun d : Driver => Within lo top d.heap) (Event.Stays lo top)
      (evalAlloc i index size) := by
  rw [evalAlloc]
  refine (onDriver_always (mmMalloc_always hroom)).bind fun p => ?_
  refine Always.ite (fun _ => Always.pure _) (fun _ => (addRangeTo_always _ _).bind fun e => ?_)
  cases e with
  | none =>
      exact Always.modifies_bind (fun d h => ⟨h.start, h.brk, h.max⟩) (Always.pure _)
  | some e => exact Always.pure _

theorem evalRealloc_always (i index : Nat) {size : Int}
    (hroom : Room top (growthBound (toSize size))) :
    Always (fun d : Driver => Within lo top d.heap) (Event.Stays lo top)
      (evalRealloc i index size) := by
  rw [evalRealloc]
  refine (Always.reads _).bind fun oldp => ?_
  refine (onDriver_always (mmRealloc_always _ hroom)).bind fun newp => ?_
  refine Always.ite (fun _ => Always.pure _) (fun _ => Always.modifies_bind (fun _ h => h) ?_)
  refine (addRangeTo_always _ _).bind fun e => ?_
  cases e with
  | none =>
      refine (Always.reads _).bind fun b => Always.ite (fun _ => ?_) (fun _ => Always.pure _)
      exact Always.modifies_bind (fun d h => ⟨h.start, h.brk, h.max⟩) (Always.pure _)
  | some e => exact Always.pure _

theorem evalFree_always (index : Nat) :
    Always (fun d : Driver => Within lo top d.heap) (Event.Stays lo top) (evalFree index) := by
  rw [evalFree]
  refine (Always.reads _).bind fun p => Always.modifies_bind (fun _ h => h) ?_
  exact (onDriver_always (mmFree_always _)).bind fun _ => Always.pure _

theorem evalOps_always (i : Nat) {ops : List TraceOp} (hops : ∀ op ∈ ops, op.Roomy top) :
    Always (fun d : Driver => Within lo top d.heap) (Event.Stays lo top) (evalOps i ops) := by
  induction ops generalizing i with
  | nil => exact Always.pure _
  | cons op ops ih =>
      obtain ⟨hop, hrest⟩ := List.forall_mem_cons.mp hops
      have hrun : Always (fun d : Driver => Within lo top d.heap) (Event.Stays lo top)
        (evalOp i op) := by
        cases htype : op.type with
        | alloc =>
            rw [evalOp, htype]
            exact evalAlloc_always _ _ (hop (by rw [htype]; decide))
        | realloc =>
            rw [evalOp, htype]
            exact evalRealloc_always _ _ (hop (by rw [htype]; decide))
        | free =>
            rw [evalOp, htype]
            exact evalFree_always _
      rw [evalOps]
      refine hrun.bind fun r => ?_
      cases r with
      | error f => exact Always.pure _
      | ok _ => exact ih (i + 1) hrest

/-- **`eval_mm_valid`**, on every trace and from any state. -/
theorem evalMmValid_always {trace : Trace} (hinit : Room top (growthBound 0))
    (hops : ∀ op ∈ trace.ops, op.Roomy top) :
    Always (fun d : Driver => Within lo top d.heap) (Event.Stays lo top) (evalMmValid trace) := by
  rw [evalMmValid]
  refine (onDriver_always memResetBrk_always).bind fun _ => ?_
  refine Always.modifies_bind (fun _ h => h) ?_
  refine (onDriver_always (mmInit_always hinit)).bind fun r => ?_
  exact Always.ite (fun _ => Always.pure _) (fun _ => evalOps_always 0 hops)

theorem onUtil_always {α : Type} {m : M α} (hm : Always (Within lo top) (Event.Stays lo top) m) :
    Always (fun u : Util => Within lo top u.heap) (Event.Stays lo top) (onUtil m) :=
  hm.zoom (fun _ h => h) (fun _ _ _ h => h)

theorem intValue_always (n : Int) :
    Always (fun u : Util => Within lo top u.heap) (Event.Stays lo top) (intValue n) :=
  Always.ite (fun _ => Always.pure _) (fun _ => Always.never)

theorem addTotal_always (delta : Int) :
    Always (fun u : Util => Within lo top u.heap) (Event.Stays lo top) (addTotal delta) := by
  rw [addTotal]
  refine (Always.reads _).bind fun sum => (intValue_always _).bind fun total => ?_
  exact Always.modifies fun _ h => h

theorem utilOp_always {op : TraceOp} (hop : op.Roomy top) :
    Always (fun u : Util => Within lo top u.heap) (Event.Stays lo top) (utilOp op) := by
  cases htype : op.type with
  | alloc =>
      rw [utilOp, htype]
      show Always _ _ (utilAlloc _ _)
      rw [utilAlloc]
      refine (onUtil_always (mmMalloc_always (hop (by rw [htype]; decide)))).bind fun p => ?_
      refine Always.ite (fun _ => Always.pure _) (fun _ => ?_)
      refine Always.modifies_bind (fun _ h => h) ((addTotal_always _).bind fun _ => ?_)
      exact Always.modifies_bind (fun _ h => h) (Always.pure _)
  | realloc =>
      rw [utilOp, htype]
      show Always _ _ (utilRealloc _ _)
      rw [utilRealloc]
      refine (Always.reads _).bind fun oldsize => (Always.reads _).bind fun oldp => ?_
      refine (onUtil_always (mmRealloc_always _ (hop (by rw [htype]; decide)))).bind fun newp => ?_
      refine Always.ite (fun _ => Always.pure _) (fun _ => ?_)
      refine Always.modifies_bind (fun _ h => h) ((intValue_always _).bind fun delta => ?_)
      refine (addTotal_always _).bind fun _ => Always.modifies_bind (fun _ h => h) ?_
      exact Always.pure _
  | free =>
      rw [utilOp, htype]
      show Always _ _ (utilFree _)
      rw [utilFree]
      refine (Always.reads _).bind fun size => (Always.reads _).bind fun p => ?_
      refine (onUtil_always (mmFree_always _)).bind fun _ => (addTotal_always _).bind fun _ => ?_
      exact Always.pure _

theorem utilOps_always {ops : List TraceOp} (hops : ∀ op ∈ ops, op.Roomy top) :
    Always (fun u : Util => Within lo top u.heap) (Event.Stays lo top) (utilOps ops) := by
  induction ops with
  | nil => exact Always.pure _
  | cons op ops ih =>
      obtain ⟨hop, hrest⟩ := List.forall_mem_cons.mp hops
      rw [utilOps]
      refine (utilOp_always hop).bind fun r => ?_
      cases r with
      | error e => exact Always.pure _
      | ok _ => exact ih hrest

/-- **`eval_mm_util`**, on every trace and from any state. -/
theorem evalMmUtil_always {trace : Trace} (hinit : Room top (growthBound 0))
    (hops : ∀ op ∈ trace.ops, op.Roomy top) :
    Always (fun u : Util => Within lo top u.heap) (Event.Stays lo top) (evalMmUtil trace) := by
  have hutil : Always (fun u : Util => Within lo top u.heap) (Event.Stays lo top) utilInit := by
    rw [utilInit]
    refine Always.modifies_bind (fun _ h => h) ?_
    refine (onUtil_always memResetBrk_always).bind fun _ => ?_
    refine (onUtil_always (mmInit_always hinit)).bind fun r => ?_
    exact Always.ite (fun _ => Always.pure _) (fun _ => Always.pure _)
  have hrun : Always (fun u : Util => Within lo top u.heap) (Event.Stays lo top)
    (utilRun trace.ops) := by
    rw [utilRun]
    refine hutil.bind fun r => ?_
    cases r with
    | error e => exact Always.pure _
    | ok _ => exact utilOps_always hops
  rw [evalMmUtil]
  refine hrun.bind fun r => ?_
  cases r with
  | error e => exact Always.pure _
  | ok _ => exact (Always.reads _).bind fun _ => Always.pure _

theorem onSpeed_always {α : Type} {m : M α} (hm : Always (Within lo top) (Event.Stays lo top) m) :
    Always (fun v : Speed => Within lo top v.heap) (Event.Stays lo top) (onSpeed m) :=
  hm.zoom (fun _ h => h) (fun _ _ _ h => h)

theorem speedOp_always {op : TraceOp} (hop : op.Roomy top) :
    Always (fun v : Speed => Within lo top v.heap) (Event.Stays lo top) (speedOp op) := by
  cases htype : op.type with
  | alloc =>
      rw [speedOp, htype]
      show Always _ _ (speedAlloc _ _)
      rw [speedAlloc]
      refine (onSpeed_always (mmMalloc_always (hop (by rw [htype]; decide)))).bind fun p => ?_
      refine Always.ite (fun _ => Always.pure _) (fun _ => ?_)
      exact Always.modifies_bind (fun _ h => h) (Always.pure _)
  | realloc =>
      rw [speedOp, htype]
      show Always _ _ (speedRealloc _ _)
      rw [speedRealloc]
      refine (Always.reads _).bind fun oldp => ?_
      refine (onSpeed_always (mmRealloc_always _ (hop (by rw [htype]; decide)))).bind fun newp => ?_
      refine Always.ite (fun _ => Always.pure _) (fun _ => ?_)
      exact Always.modifies_bind (fun _ h => h) (Always.pure _)
  | free =>
      rw [speedOp, htype]
      show Always _ _ (speedFree _)
      rw [speedFree]
      refine (Always.reads _).bind fun p => ?_
      exact (onSpeed_always (mmFree_always _)).bind fun _ => Always.pure _

theorem speedOps_always {ops : List TraceOp} (hops : ∀ op ∈ ops, op.Roomy top) :
    Always (fun v : Speed => Within lo top v.heap) (Event.Stays lo top) (speedOps ops) := by
  induction ops with
  | nil => exact Always.pure _
  | cons op ops ih =>
      obtain ⟨hop, hrest⟩ := List.forall_mem_cons.mp hops
      rw [speedOps]
      refine (speedOp_always hop).bind fun r => ?_
      cases r with
      | error e => exact Always.pure _
      | ok _ => exact ih hrest

/-- **`eval_mm_speed`**, on every trace and from any state. -/
theorem evalMmSpeed_always {trace : Trace} (hinit : Room top (growthBound 0))
    (hops : ∀ op ∈ trace.ops, op.Roomy top) :
    Always (fun v : Speed => Within lo top v.heap) (Event.Stays lo top) (evalMmSpeed trace) := by
  rw [evalMmSpeed]
  refine (onSpeed_always memResetBrk_always).bind fun _ => ?_
  refine (onSpeed_always (mmInit_always hinit)).bind fun r => ?_
  exact Always.ite (fun _ => Always.pure _) (fun _ => speedOps_always hops)

end Evaluators

/-! ## `main` -/

section Session

variable {lo top : Nat}

theorem gettimeofday_always (clock : Nat → Timeval) :
    Always (fun s : Session => Within lo top s.heap) (Event.Stays lo top) (gettimeofday clock) := by
  rw [gettimeofday]
  exact (Always.reads _).bind fun tv => Always.modifies_bind (fun _ h => h) (Always.pure _)

theorem runs_always {f : Logged Session Event (Except SpeedError Unit)} (n : Nat)
    (hf : Always (fun s : Session => Within lo top s.heap) (Event.Stays lo top) f) :
    Always (fun s : Session => Within lo top s.heap) (Event.Stays lo top) (runs f n) := by
  induction n with
  | zero => exact Always.pure _
  | succ n ih =>
      rw [runs]
      refine hf.bind fun r => ?_
      cases r with
      | error e => exact Always.pure _
      | ok _ => exact ih

theorem fsecs_always (clock : Nat → Timeval) {f : Logged Session Event (Except SpeedError Unit)}
    (hf : Always (fun s : Session => Within lo top s.heap) (Event.Stays lo top) f) :
    Always (fun s : Session => Within lo top s.heap) (Event.Stays lo top) (fsecs clock f) := by
  rw [fsecs, ftimerGettod]
  refine (gettimeofday_always clock).bind fun stv => (runs_always 10 hf).bind fun r => ?_
  cases r with
  | error e => exact Always.pure _
  | ok _ => exact (gettimeofday_always clock).bind fun etv => Always.pure _

theorem checkValid_always (i : Nat) {trace : Trace} (hinit : Room top (growthBound 0))
    (hops : ∀ op ∈ trace.ops, op.Roomy top) :
    Always (fun s : Session => Within lo top s.heap) (Event.Stays lo top) (checkValid i trace) := by
  have hvalid : Always (fun s : Session => Within lo top s.heap) (Event.Stays lo top)
      (zoom Session.driver Session.setDriver (evalMmValid trace)) :=
    (evalMmValid_always hinit hops).zoom (fun _ h => h) (fun _ _ _ h => h)
  rw [checkValid]
  refine hvalid.bind fun r => ?_
  cases r with
  | ok _ => exact Always.pure _
  | error f => exact Always.modifies_bind (fun _ h => h) (Always.pure _)

theorem measure_always (clock : Nat → Timeval) {trace : Trace} (hinit : Room top (growthBound 0))
    (hops : ∀ op ∈ trace.ops, op.Roomy top) :
    Always (fun s : Session => Within lo top s.heap) (Event.Stays lo top)
      (measure clock trace) := by
  have hutil : Always (fun s : Session => Within lo top s.heap) (Event.Stays lo top)
      (zoom Session.util Session.setUtil (evalMmUtil trace)) :=
    (evalMmUtil_always hinit hops).zoom (fun _ h => h) (fun _ _ _ h => h)
  have hspeed : Always (fun s : Session => Within lo top s.heap) (Event.Stays lo top)
      (zoom Session.speed Session.setSpeed (evalMmSpeed trace)) :=
    (evalMmSpeed_always hinit hops).zoom (fun _ h => h) (fun _ _ _ h => h)
  rw [measure]
  refine hutil.bind fun r => ?_
  cases r with
  | error e => exact Always.pure _
  | ok util =>
      refine (fsecs_always clock hspeed).bind fun r => ?_
      cases r with
      | error e => exact Always.pure _
      | ok secs => exact Always.pure _

/-- The requests of the trace in the file, if there is one. -/
def TraceFile.Roomy (top : Nat) (file : TraceFile) : Prop :=
  ∀ trace r, (loadTrace file.lines).out ⟨file.ops, 0, 0⟩ = some (.ok trace, r) →
    ∀ op ∈ trace.ops, op.Roomy top

theorem readFile_always (file : TraceFile) :
    Always (fun s : Session => Within lo top s.heap) (Event.Stays lo top) (readFile file) := by
  rw [readFile]
  rcases (loadTrace file.lines).out ⟨file.ops, 0, 0⟩ with _ | ⟨e | trace, r⟩
  · exact Always.never
  · exact Always.pure _
  · exact Always.modifies_bind (fun _ h => h) (Always.pure _)

theorem readFile_out {file : TraceFile} {s s' : Session} {trace : Trace}
    (hout : (readFile file).out s = some (.ok trace, s')) :
    ∃ r, (loadTrace file.lines).out ⟨file.ops, 0, 0⟩ = some (.ok trace, r) := by
  rw [readFile] at hout
  rcases hload : (loadTrace file.lines).out ⟨file.ops, 0, 0⟩ with _ | ⟨e | trace', r⟩
  · rw [hload] at hout
    cases hout
  · rw [hload] at hout
    cases hout
  · rw [hload] at hout
    cases hout
    exact ⟨r, rfl⟩

theorem evalFile_always (clock : Nat → Timeval) (i : Nat) {file : TraceFile}
    (hinit : Room top (growthBound 0)) (hfile : file.Roomy top) :
    Always (fun s : Session => Within lo top s.heap) (Event.Stays lo top)
      (evalFile clock i file) := by
  rw [evalFile]
  refine (readFile_always file).bind_out fun s r s' hout => ?_
  cases r with
  | error e => exact Always.pure _
  | ok trace =>
      obtain ⟨r, hload⟩ := readFile_out hout
      have hops := hfile trace r hload
      refine (checkValid_always i hinit hops).bind fun b => ?_
      exact Always.ite (fun _ => measure_always clock hinit hops) (fun _ => Always.pure _)

/-- **The loop of `main`**, on any files. -/
theorem evalFiles_always (clock : Nat → Timeval) (i : Nat) {files : List TraceFile}
    (hinit : Room top (growthBound 0)) (hfiles : ∀ file ∈ files, file.Roomy top) :
    Always (fun s : Session => Within lo top s.heap) (Event.Stays lo top)
      (evalFiles clock i files) := by
  induction files generalizing i with
  | nil => exact Always.pure _
  | cons file files ih =>
      obtain ⟨hfile, hrest⟩ := List.forall_mem_cons.mp hfiles
      rw [evalFiles]
      refine (evalFile_always clock i hinit hfile).bind fun r => ?_
      cases r with
      | error e => exact Always.modifies_bind (fun _ h => h) (Always.pure _)
      | ok stats =>
          refine (ih (i + 1) hrest).bind fun r => ?_
          cases r with
          | error e => exact Always.pure _
          | ok rest => exact Always.pure _

end Session

/-- After `mem_init` the break is in its arena. -/
theorem memInit_within {arena : Nat} {h h' : Heap} (hfit : arena + MAX_HEAP < 2 ^ 32)
    (hout : (memInit arena).out h = some ((), h')) : Within arena (arena + MAX_HEAP) h' := by
  have hend : add32 arena MAX_HEAP = arena + MAX_HEAP := add32_eq hfit
  by_cases h0 : arena = NULL
  · rw [memInit, if_pos h0] at hout
    cases hout
  · rw [memInit, if_neg h0] at hout
    cases hout
    have hin : arena ≤ arena ∧ arena ≤ arena + MAX_HEAP := ⟨le_refl _, Nat.le_add_right _ _⟩
    exact ⟨hin, hin, hend⟩

/-- **The break stays in the arena** of `mem_init`, in the whole run. -/
theorem main_stays (clock : Nat → Timeval) {arena : Nat} {files : List TraceFile}
    (hfit : arena + MAX_HEAP < 2 ^ 32) (hinit : Room (arena + MAX_HEAP) (growthBound 0))
    (hfiles : ∀ file ∈ files, file.Roomy (arena + MAX_HEAP)) (s : Session) :
    (∀ e ∈ (main clock arena files).log s, e.Stays arena (arena + MAX_HEAP)) ∧
      ∀ r s', (main clock arena files).out s = some (r, s') →
        Within arena (arena + MAX_HEAP) s'.heap := by
  have hempty : (zoom Session.heap Session.setHeap (memInit arena)).log s = [] := by
    show (memInit arena).log s.heap = []
    unfold memInit
    split <;> rfl
  have hloop : ∀ k : Except MainExit (List Stats) → Logged Session Event (Except MainExit Report),
      (∀ r, Always (fun s : Session => Within arena (arena + MAX_HEAP) s.heap)
        (Event.Stays arena (arena + MAX_HEAP)) (k r)) →
      Always (fun s : Session => Within arena (arena + MAX_HEAP) s.heap)
        (Event.Stays arena (arena + MAX_HEAP)) (evalFiles clock 0 files >>= k) :=
    fun _ hk => (evalFiles_always clock 0 hinit hfiles).bind hk
  rw [main, log_bind, out_bind, hempty, List.nil_append]
  rcases hout : (zoom Session.heap Session.setHeap (memInit arena)).out s with _ | ⟨⟨⟩, s1⟩
  · exact ⟨fun e he => absurd he List.not_mem_nil,
      fun r s' hr => absurd hr (Option.some_ne_none _).symm⟩
  · -- from here on the break is in the arena that `mem_init` has got
    obtain ⟨⟨⟨⟩, h'⟩, hinit', heq⟩ := Option.map_eq_some_iff.mp hout
    cases heq
    refine hloop _ (fun r => ?_) (Session.setHeap h' s) (memInit_within hfit hinit')
    cases r with
    | error e => exact Always.pure _
    | ok stats => exact (Always.reads _).bind fun n => Always.pure _

theorem room_of_le {top n limit : Nat}
    (hroom : top ≤ 2 ^ 31 ∨ top + max (limit + 15) CHUNKSIZE + DSIZE < 2 ^ 32) (hn : n ≤ limit) :
    Room top (growthBound n) := by
  have hmax : max (n + 15) CHUNKSIZE ≤ max (limit + 15) CHUNKSIZE :=
    max_le_max (Nat.add_le_add_right hn 15) (le_refl _)
  rcases hroom with hlow | hsum
  · exact Or.inr hlow
  · left
    unfold growthBound
    omega

end MallocLab
