import MallocLab.Driver.Valid

set_option autoImplicit false

/-! # The utilization of the heap (`eval_mm_util`)

The driver adds up the sizes it asks for in a signed `int`, remembers the largest sum and
divides it by the size of the heap at the end. An overflow of an `int` is undefined behaviour:
the model gives such a run no result. `liveTotal` is the sum that the driver should have.
-/

namespace MallocLab

open Logged

/-! ## The driver -/

/-- The heap under test, the tables `blocks` and `block_sizes` of the trace, and the variables
`total_size` and `max_total_size`. -/
structure Util where
  heap : Heap
  blocks : Nat → Nat
  blockSizes : Nat → Nat
  totalSize : Int
  maxTotalSize : Int

/-- Why `eval_mm_util` calls `app_error`, which exits. -/
inductive UtilError where
  | initFailed
  | mallocFailed
  | reallocFailed
  deriving DecidableEq, Repr

def UtilError.text : UtilError → String
  | .initFailed => "mm_init failed in eval_mm_util"
  | .mallocFailed => "mm_malloc failed in eval_mm_util"
  | .reallocFailed => "mm_realloc failed in eval_mm_util"

namespace Util

def setHeap (h : Heap) (u : Util) : Util := { u with heap := h }

/-- "Remember region and size" -/
def remember (u : Util) (index p size : Nat) : Util :=
  { u with
    blocks := Function.update u.blocks index p
    blockSizes := Function.update u.blockSizes index size }

def setTotal (u : Util) (total : Int) : Util := { u with totalSize := total }

/-- "Update statistics" -/
def raiseMax (u : Util) : Util :=
  { u with maxTotalSize := if u.maxTotalSize < u.totalSize then u.totalSize else u.maxTotalSize }

end Util

def onUtil {α : Type} (m : M α) : Logged Util Event α := zoom Util.heap Util.setHeap m

/-- The value of an `int` expression; it has none when it overflows. -/
def intValue (n : Int) : Logged Util Event Int :=
  if -2 ^ 31 ≤ n ∧ n < 2 ^ 31 then return n else never

/-- `total_size += delta` -/
def addTotal (delta : Int) : Logged Util Event Unit := do
  let sum ← reads (fun u : Util => u.totalSize + delta)
  let total ← intValue sum
  modifies (·.setTotal total)

/-- The case `ALLOC` of `eval_mm_util`. -/
def utilAlloc (index : Nat) (size : Int) : Logged Util Event (Except UtilError Unit) := do
  let p ← onUtil (mmMalloc (toSize size))
  if p = NULL then
    return .error .mallocFailed
  else
    modifies (·.remember index p (toSize size))
    addTotal size
    modifies (·.raiseMax)
    return .ok ()

/-- The case `REALLOC`. -/
def utilRealloc (index : Nat) (newsize : Int) : Logged Util Event (Except UtilError Unit) := do
  let oldsize ← reads (fun u : Util => toInt (u.blockSizes index))
  let oldp ← reads (fun u : Util => u.blocks index)
  let newp ← onUtil (mmRealloc oldp (toSize newsize))
  if newp = NULL then
    return .error .reallocFailed
  else
    modifies (·.remember index newp (toSize newsize))
    let delta ← intValue (newsize - oldsize)
    addTotal delta
    modifies (·.raiseMax)
    return .ok ()

/-- The case `FREE`. -/
def utilFree (index : Nat) : Logged Util Event (Except UtilError Unit) := do
  let size ← reads (fun u : Util => toInt (u.blockSizes index))
  let p ← reads (fun u : Util => u.blocks index)
  onUtil (mmFree p)
  addTotal (-size)
  return .ok ()

/-- One request of `eval_mm_util`. -/
def utilOp (op : TraceOp) : Logged Util Event (Except UtilError Unit) :=
  match op.type with
  | .alloc => utilAlloc op.index op.size
  | .realloc => utilRealloc op.index op.size
  | .free => utilFree op.index

/-- The loop of `eval_mm_util`. -/
def utilOps : List TraceOp → Logged Util Event (Except UtilError Unit)
  | [] => return .ok ()
  | op :: ops => do
      match (← utilOp op) with
      | .error e => return .error e
      | .ok () => utilOps ops

/-- The part of `eval_mm_util` before the loop. -/
def utilInit : Logged Util Event (Except UtilError Unit) := do
  modifies (fun u : Util => { u with totalSize := 0, maxTotalSize := 0 })
  onUtil memResetBrk
  let r ← onUtil mmInit
  if r < 0 then return .error .initFailed else return .ok ()

/-- `eval_mm_util` up to the end of the loop. -/
def utilRun (ops : List TraceOp) : Logged Util Event (Except UtilError Unit) := do
  match (← utilInit) with
  | .error e => return .error e
  | .ok () => utilOps ops

/-- `eval_mm_util` -/
def evalMmUtil (trace : Trace) : Logged Util Event (Except UtilError ℚ) := do
  match (← utilRun trace.ops) with
  | .error e => return .error e
  | .ok () => return .ok (← reads (fun u => (u.maxTotalSize : ℚ) / (memHeapsize u.heap : ℚ)))

/-! ## The sizes of the live blocks -/

/-- The ids that are allocated, with the sizes asked for, after one more request. -/
def TraceOp.resize (sizes : List (Nat × Int)) (op : TraceOp) : List (Nat × Int) :=
  match op.type with
  | .free => sizes.filter (·.1 ≠ op.index)
  | .alloc | .realloc => (op.index, op.size) :: sizes.filter (·.1 ≠ op.index)

def liveSizes (ops : List TraceOp) : List (Nat × Int) := ops.foldl TraceOp.resize []

def liveTotal (ops : List TraceOp) : Int := ((liveSizes ops).map Prod.snd).sum

/-- After the requests `ops` the total is that of the live blocks, an `int`; the maximum is the
largest total of all times, and smaller than the heap. -/
structure Exact (u : Util) (ops : List TraceOp) : Prop where
  total : u.totalSize = liveTotal ops
  range : 0 ≤ u.totalSize ∧ u.totalSize < 2 ^ 31
  greatest : IsGreatest (liveTotal '' { ops' | ops' <+: ops }) u.maxTotalSize
  below : u.maxTotalSize < memHeapsize u.heap

theorem liveSizes_concat (ops : List TraceOp) (op : TraceOp) :
    liveSizes (ops ++ [op]) = op.resize (liveSizes ops) := by
  simp [liveSizes]

/-- What an id takes away with it. -/
theorem sum_filter_ne {sizes : List (Nat × Int)} {id : Nat} {n : Int}
    (hnd : (sizes.map Prod.fst).Nodup) (hn : (id, n) ∈ sizes) :
    ((sizes.filter (·.1 ≠ id)).map Prod.snd).sum = (sizes.map Prod.snd).sum - n := by
  induction sizes with
  | nil => cases hn
  | cons x sizes ih =>
      rw [List.map_cons, List.nodup_cons] at hnd
      rw [List.map_cons, List.sum_cons]
      rcases List.mem_cons.mp hn with rfl | hn
      · have hall : sizes.filter (·.1 ≠ id) = sizes := by
          refine List.filter_eq_self.mpr (fun y hy => decide_eq_true ?_)
          rintro rfl
          exact hnd.1 (List.mem_map.mpr ⟨y, hy, rfl⟩)
        rw [List.filter_cons_of_neg (by simp), hall]
        show _ = n + _ - n
        omega
      · have hne : x.1 ≠ id := by
          rintro rfl
          exact hnd.1 (List.mem_map.mpr ⟨_, hn, rfl⟩)
        rw [List.filter_cons_of_pos (by simpa using hne), List.map_cons, List.sum_cons, ih hnd.2 hn]
        omega

end MallocLab
