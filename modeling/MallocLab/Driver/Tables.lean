import MallocLab.Driver.Speed
import MallocLab.Driver.Util
import MallocLab.Lib.Respects

set_option autoImplicit false

/-! # The tables of the trace, as arrays

`blocks[]` and `block_sizes[]` are arrays of the trace, with room for so many entries. The
evaluators index them with the ids of the requests and check nothing. When all ids are below the
number of entries, no evaluator looks at what is behind the arrays or changes it: from states that
differ there and nowhere else they do the same (`evalMmValid_inside` and the like).
-/

namespace MallocLab

open Logged

/-! ## Two tables -/

/-- The tables agree on their first `n` entries; behind these each has what its tail has. -/
structure TableAlike (n : Nat) (tail tail' table table' : Nat → Nat) : Prop where
  entries : ∀ i, i < n → table i = table' i
  behind : ∀ i, n ≤ i → table i = tail i ∧ table' i = tail' i

theorem TableAlike.update {n i : Nat} {tail tail' table table' : Nat → Nat}
    (h : TableAlike n tail tail' table table') (hi : i < n) (v : Nat) :
    TableAlike n tail tail' (Function.update table i v) (Function.update table' i v) := by
  refine ⟨fun j hj => ?_, fun j hj => ?_⟩
  · by_cases hij : j = i
    · rw [hij, Function.update_self, Function.update_self]
    · rw [Function.update_of_ne hij, Function.update_of_ne hij]
      exact h.entries j hj
  · have hij : j ≠ i := by omega
    rw [Function.update_of_ne hij, Function.update_of_ne hij]
    exact h.behind j hj

/-- What is behind the two arrays. -/
structure Tails where
  blocks : Nat → Nat
  blockSizes : Nat → Nat

/-- Two states of `eval_mm_valid` that differ behind the arrays, of `nb` and `ns` entries. -/
structure DriverAlike (nb ns : Nat) (tails tails' : Tails) (d d' : Driver) : Prop where
  heap : d.heap = d'.heap
  ranges : d.ranges = d'.ranges
  blocks : TableAlike nb tails.blocks tails'.blocks d.blocks d'.blocks
  blockSizes : TableAlike ns tails.blockSizes tails'.blockSizes d.blockSizes d'.blockSizes

structure UtilAlike (nb ns : Nat) (tails tails' : Tails) (u u' : Util) : Prop where
  heap : u.heap = u'.heap
  blocks : TableAlike nb tails.blocks tails'.blocks u.blocks u'.blocks
  blockSizes : TableAlike ns tails.blockSizes tails'.blockSizes u.blockSizes u'.blockSizes
  totalSize : u.totalSize = u'.totalSize
  maxTotalSize : u.maxTotalSize = u'.maxTotalSize

structure SpeedAlike (nb : Nat) (tails tails' : Tails) (v v' : Speed) : Prop where
  heap : v.heap = v'.heap
  blocks : TableAlike nb tails.blocks tails'.blocks v.blocks v'.blocks

section Inside

variable {nb ns index : Nat} {size : Int} {tails tails' : Tails} {op : TraceOp} {ops : List TraceOp}

/-! ## `eval_mm_valid` -/

theorem respects_onDriver {α : Type} (m : M α) :
    Respects (DriverAlike nb ns tails tails') (onDriver m) :=
  Respects.zoom (fun _ _ h => h.heap) fun _ _ _ h => ⟨rfl, h.ranges, h.blocks, h.blockSizes⟩

theorem respects_setRanges (f : List Range → List Range) :
    Respects (DriverAlike nb ns tails tails')
      (modifies (fun d => { d with ranges := f d.ranges }) : Logged Driver Event Unit) :=
  Respects.modifies fun _ _ h => ⟨h.heap, congrArg f h.ranges, h.blocks, h.blockSizes⟩

theorem respects_addRangeTo (lo : Nat) :
    Respects (DriverAlike nb ns tails tails') (addRangeTo lo size) := by
  rw [addRangeTo]
  refine Respects.bind (Respects.reads fun d d' h => ?_) fun r => ?_
  · rw [h.heap, h.ranges]
  · rcases r with _ | e | ranges
    · exact Respects.never
    · exact Respects.pure _
    · exact Respects.bind (respects_setRanges fun _ => ranges) fun _ => Respects.pure _

theorem respects_remember (hb : index < nb) (hs : index < ns) (p n : Nat) :
    Respects (DriverAlike nb ns tails tails')
      (modifies (·.remember index p n) : Logged Driver Event Unit) := by
  refine Respects.modifies fun d d' h =>
    ⟨?_, h.ranges, h.blocks.update hb p, h.blockSizes.update hs n⟩
  show memset d.heap p _ n = memset d'.heap p _ n
  rw [h.heap]

theorem respects_block (hb : index < nb) :
    Respects (DriverAlike nb ns tails tails')
      (reads (fun d => d.blocks index) : Logged Driver Event Nat) :=
  Respects.reads fun _ _ h => h.blocks.entries index hb

theorem evalAlloc_inside (i : Nat) (hb : index < nb) (hs : index < ns) :
    Respects (DriverAlike nb ns tails tails') (evalAlloc i index size) := by
  rw [evalAlloc]
  refine (respects_onDriver _).bind fun p => Respects.ite (Respects.pure _) ?_
  refine (respects_addRangeTo p).bind fun e => ?_
  cases e with
  | none => exact (respects_remember hb hs p _).bind fun _ => Respects.pure _
  | some e => exact Respects.pure _

theorem evalRealloc_inside (i : Nat) (hb : index < nb) (hs : index < ns) :
    Respects (DriverAlike nb ns tails tails') (evalRealloc i index size) := by
  rw [evalRealloc]
  refine (respects_block hb).bind fun oldp => (respects_onDriver _).bind fun newp => ?_
  refine Respects.ite (Respects.pure _) ?_
  refine (respects_setRanges fun ranges => removeRange ranges oldp).bind fun _ => ?_
  refine (respects_addRangeTo newp).bind fun e => ?_
  cases e with
  | some e => exact Respects.pure _
  | none =>
      -- the check of the payload reads the old size from `block_sizes[]`
      refine Respects.bind (Respects.reads fun d d' h => ?_) fun b => ?_
      · rw [Driver.preserved, Driver.preserved, Driver.checkSize, Driver.checkSize, h.heap,
          h.blockSizes.entries index hs]
      · cases b with
        | true => exact (respects_remember hb hs newp _).bind fun _ => Respects.pure _
        | false => exact Respects.pure _

theorem evalFree_inside (hb : index < nb) :
    Respects (DriverAlike nb ns tails tails') (evalFree index) := by
  rw [evalFree]
  refine (respects_block hb).bind fun p => ?_
  refine (respects_setRanges fun ranges => removeRange ranges p).bind fun _ => ?_
  exact (respects_onDriver _).bind fun _ => Respects.pure _

theorem evalOp_inside (i : Nat) (hb : op.index < nb) (hs : op.index < ns) :
    Respects (DriverAlike nb ns tails tails') (evalOp i op) := by
  rw [evalOp]
  cases op.type with
  | alloc => exact evalAlloc_inside i hb hs
  | realloc => exact evalRealloc_inside i hb hs
  | free => exact evalFree_inside hb

theorem evalOps_inside (i : Nat) (hops : ∀ op ∈ ops, op.index < nb ∧ op.index < ns) :
    Respects (DriverAlike nb ns tails tails') (evalOps i ops) := by
  induction ops generalizing i with
  | nil =>
      rw [evalOps]
      exact Respects.pure _
  | cons op ops ih =>
      obtain ⟨hb, hs⟩ := hops op List.mem_cons_self
      rw [evalOps]
      refine (evalOp_inside i hb hs).bind fun r => ?_
      cases r with
      | error f => exact Respects.pure _
      | ok _ => exact ih (i + 1) fun k hk => hops k (List.mem_cons_of_mem _ hk)

theorem evalMmValid_inside {trace : Trace}
    (hops : ∀ op ∈ trace.ops, op.index < nb ∧ op.index < ns) :
    Respects (DriverAlike nb ns tails tails') (evalMmValid trace) := by
  rw [evalMmValid]
  refine (respects_onDriver _).bind fun _ => (respects_setRanges fun _ => []).bind fun _ => ?_
  exact (respects_onDriver _).bind fun r => Respects.ite (Respects.pure _) (evalOps_inside 0 hops)

/-! ## `eval_mm_util` -/

theorem respects_onUtil {α : Type} (m : M α) :
    Respects (UtilAlike nb ns tails tails') (onUtil m) :=
  Respects.zoom (fun _ _ h => h.heap) fun _ _ _ h =>
    ⟨rfl, h.blocks, h.blockSizes, h.totalSize, h.maxTotalSize⟩

theorem respects_intValue (n : Int) : Respects (UtilAlike nb ns tails tails') (intValue n) := by
  rw [intValue]
  exact Respects.ite (Respects.pure n) Respects.never

theorem respects_addTotal (delta : Int) :
    Respects (UtilAlike nb ns tails tails') (addTotal delta) := by
  rw [addTotal]
  refine Respects.bind (Respects.reads fun u u' h => ?_) fun sum =>
    (respects_intValue sum).bind fun total => Respects.modifies fun u u' h => ?_
  · rw [h.totalSize]
  · exact ⟨h.heap, h.blocks, h.blockSizes, rfl, h.maxTotalSize⟩

theorem respects_raiseMax :
    Respects (UtilAlike nb ns tails tails') (modifies (·.raiseMax) : Logged Util Event Unit) := by
  refine Respects.modifies fun u u' h => ⟨h.heap, h.blocks, h.blockSizes, h.totalSize, ?_⟩
  rw [Util.raiseMax, Util.raiseMax, h.totalSize, h.maxTotalSize]

theorem respects_utilRemember (hb : index < nb) (hs : index < ns) (p n : Nat) :
    Respects (UtilAlike nb ns tails tails')
      (modifies (·.remember index p n) : Logged Util Event Unit) :=
  Respects.modifies fun _ _ h =>
    ⟨h.heap, h.blocks.update hb p, h.blockSizes.update hs n, h.totalSize, h.maxTotalSize⟩

theorem utilOp_inside (hb : op.index < nb) (hs : op.index < ns) :
    Respects (UtilAlike nb ns tails tails') (utilOp op) := by
  have hsize : Respects (UtilAlike nb ns tails tails')
      (reads (fun u => toInt (u.blockSizes op.index)) : Logged Util Event Int) :=
    Respects.reads fun u u' h => by rw [h.blockSizes.entries op.index hs]
  have hblock : Respects (UtilAlike nb ns tails tails')
      (reads (fun u => u.blocks op.index) : Logged Util Event Nat) :=
    Respects.reads fun _ _ h => h.blocks.entries op.index hb
  rw [utilOp]
  cases op.type with
  | alloc =>
      refine (respects_onUtil _).bind fun p => Respects.ite (Respects.pure _) ?_
      refine (respects_utilRemember hb hs p _).bind fun _ => (respects_addTotal _).bind fun _ => ?_
      exact respects_raiseMax.bind fun _ => Respects.pure _
  | realloc =>
      refine hsize.bind fun oldsize => hblock.bind fun oldp => (respects_onUtil _).bind fun p => ?_
      refine Respects.ite (Respects.pure _) ((respects_utilRemember hb hs p _).bind fun _ => ?_)
      refine (respects_intValue _).bind fun delta => (respects_addTotal _).bind fun _ => ?_
      exact respects_raiseMax.bind fun _ => Respects.pure _
  | free =>
      refine hsize.bind fun size => hblock.bind fun p => (respects_onUtil _).bind fun _ => ?_
      exact (respects_addTotal _).bind fun _ => Respects.pure _

theorem utilOps_inside (hops : ∀ op ∈ ops, op.index < nb ∧ op.index < ns) :
    Respects (UtilAlike nb ns tails tails') (utilOps ops) := by
  induction ops with
  | nil =>
      rw [utilOps]
      exact Respects.pure _
  | cons op ops ih =>
      obtain ⟨hb, hs⟩ := hops op List.mem_cons_self
      rw [utilOps]
      refine (utilOp_inside hb hs).bind fun r => ?_
      cases r with
      | error e => exact Respects.pure _
      | ok _ => exact ih fun k hk => hops k (List.mem_cons_of_mem _ hk)

theorem evalMmUtil_inside {trace : Trace}
    (hops : ∀ op ∈ trace.ops, op.index < nb ∧ op.index < ns) :
    Respects (UtilAlike nb ns tails tails') (evalMmUtil trace) := by
  have hinit : Respects (UtilAlike nb ns tails tails') utilInit := by
    rw [utilInit]
    refine Respects.bind (Respects.modifies fun _ _ h => ⟨h.heap, h.blocks, h.blockSizes, rfl, rfl⟩)
      fun _ => ?_
    refine (respects_onUtil _).bind fun _ => (respects_onUtil _).bind fun r => ?_
    exact Respects.ite (Respects.pure _) (Respects.pure _)
  have hrun : Respects (UtilAlike nb ns tails tails') (utilRun trace.ops) := by
    rw [utilRun]
    refine hinit.bind fun r => ?_
    cases r with
    | error e => exact Respects.pure _
    | ok _ => exact utilOps_inside hops
  rw [evalMmUtil]
  refine hrun.bind fun r => ?_
  cases r with
  | error e => exact Respects.pure _
  | ok _ =>
      refine Respects.bind (Respects.reads fun u u' h => ?_) fun _ => Respects.pure _
      rw [h.heap, h.maxTotalSize]

/-! ## `eval_mm_speed` -/

theorem respects_onSpeed {α : Type} (m : M α) :
    Respects (SpeedAlike nb tails tails') (onSpeed m) :=
  Respects.zoom (fun _ _ h => h.heap) fun _ _ _ h => ⟨rfl, h.blocks⟩

theorem respects_setBlock (hb : index < nb) (p : Nat) :
    Respects (SpeedAlike nb tails tails')
      (modifies (·.setBlock index p) : Logged Speed Event Unit) :=
  Respects.modifies fun _ _ h => ⟨h.heap, h.blocks.update hb p⟩

theorem speedOp_inside (hb : op.index < nb) :
    Respects (SpeedAlike nb tails tails') (speedOp op) := by
  have hblock : Respects (SpeedAlike nb tails tails')
      (reads (fun v => v.blocks op.index) : Logged Speed Event Nat) :=
    Respects.reads fun _ _ h => h.blocks.entries op.index hb
  rw [speedOp]
  cases op.type with
  | alloc =>
      refine (respects_onSpeed _).bind fun p => Respects.ite (Respects.pure _) ?_
      exact (respects_setBlock hb p).bind fun _ => Respects.pure _
  | realloc =>
      refine hblock.bind fun oldp => (respects_onSpeed _).bind fun p => ?_
      refine Respects.ite (Respects.pure _) ?_
      exact (respects_setBlock hb p).bind fun _ => Respects.pure _
  | free => exact hblock.bind fun p => (respects_onSpeed _).bind fun _ => Respects.pure _

theorem speedOps_inside (hops : ∀ op ∈ ops, op.index < nb) :
    Respects (SpeedAlike nb tails tails') (speedOps ops) := by
  induction ops with
  | nil =>
      rw [speedOps]
      exact Respects.pure _
  | cons op ops ih =>
      rw [speedOps]
      refine (speedOp_inside (hops op List.mem_cons_self)).bind fun r => ?_
      cases r with
      | error e => exact Respects.pure _
      | ok _ => exact ih fun k hk => hops k (List.mem_cons_of_mem _ hk)

theorem evalMmSpeed_inside {trace : Trace} (hops : ∀ op ∈ trace.ops, op.index < nb) :
    Respects (SpeedAlike nb tails tails') (evalMmSpeed trace) := by
  rw [evalMmSpeed]
  refine (respects_onSpeed _).bind fun _ => (respects_onSpeed _).bind fun r => ?_
  exact Respects.ite (Respects.pure _) (speedOps_inside hops)

end Inside

end MallocLab
