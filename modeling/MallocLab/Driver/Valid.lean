import MallocLab.Driver.Ranges

set_option autoImplicit false

/-! # The correctness check of the driver (`eval_mm_valid`)

The driver replays a trace against the allocator: it records the range of every payload, fills
each payload with the low byte of its id and looks for that byte after a `mm_realloc`. It gives
up at the first request that goes wrong.
-/

namespace MallocLab

open Logged Words

/-! ## Traces -/

inductive OpType where
  | alloc
  | free
  | realloc
  deriving DecidableEq, Repr

/-- One request of a trace (`traceop_t`); the size of a `free` is not used. -/
structure TraceOp where
  type : OpType
  index : Nat
  size : Int
  deriving DecidableEq, Repr

structure Trace where
  numIds : Nat
  ops : List TraceOp
  deriving DecidableEq

/-- A request is legal, given the ids that are allocated: its id is below `num_ids` and its size
a positive `int`; an allocated id is not allocated again, and only allocated ids are
reallocated or freed. -/
def TraceOp.Legal (numIds : Nat) (ids : List Nat) (op : TraceOp) : Prop :=
  op.index < numIds ∧
    match op.type with
    | .alloc => (1 ≤ op.size ∧ op.size < 2 ^ 31) ∧ op.index ∉ ids
    | .realloc => (1 ≤ op.size ∧ op.size < 2 ^ 31) ∧ op.index ∈ ids
    | .free => op.index ∈ ids

/-- The ids that are allocated after a request. -/
def TraceOp.after (ids : List Nat) (op : TraceOp) : List Nat :=
  match op.type with
  | .alloc => op.index :: ids
  | .realloc => ids
  | .free => ids.filter (· ≠ op.index)

/-- Every request is legal when its turn comes. -/
def LegalFrom (numIds : Nat) : List Nat → List TraceOp → Prop
  | _, [] => True
  | ids, op :: ops => op.Legal numIds ids ∧ LegalFrom numIds (op.after ids) ops

def Trace.Legal (trace : Trace) : Prop := LegalFrom trace.numIds [] trace.ops

/-! ## The driver -/

/-- The heap under test, the range list, and the tables `blocks` and `block_sizes` of the
trace. -/
structure Driver where
  heap : Heap
  ranges : List Range
  blocks : Nat → Nat
  blockSizes : Nat → Nat

/-- Why `eval_mm_valid` returns 0. -/
inductive ValidError where
  | initFailed
  | mallocFailed
  | reallocFailed
  | notPreserved
  | range (e : RangeError)
  deriving DecidableEq, Repr

def ValidError.text : ValidError → String
  | .initFailed => "mm_init failed."
  | .mallocFailed => "mm_malloc failed."
  | .reallocFailed => "mm_realloc failed."
  | .notPreserved => "mm_realloc did not preserve the data from old block"
  | .range e => e.text

/-- The request at which `eval_mm_valid` gives up, and why. -/
structure Failure where
  opnum : Nat
  error : ValidError
  deriving DecidableEq, Repr

/-- What `malloc_error` prints. -/
def Failure.text (tracenum : Nat) (f : Failure) : String :=
  "ERROR [trace " ++ toString tracenum ++ ", line " ++ toString (f.opnum + 5) ++ "]: " ++
    f.error.text ++ "\n"

/-- The value of a byte read through a `char *`, where plain `char` is signed. -/
def charValue (b : UInt8) : Int := if b.toNat < 128 then b.toNat else (b.toNat : Int) - 256

def memset (h : Heap) (p : Nat) (c : UInt8) (n : Nat) : Heap :=
  { h with mem := patch h.mem p n (fun _ => c) }

namespace Driver

def setHeap (h : Heap) (d : Driver) : Driver := { d with heap := h }

/-- `index & 0xFF` -/
def lowByte (index : Nat) : Nat := index &&& 0xFF

/-- The new block is filled with the low byte of its index and remembered. -/
def remember (d : Driver) (index p size : Nat) : Driver :=
  { d with
    heap := memset d.heap p (UInt8.ofNat (lowByte index)) size
    blocks := Function.update d.blocks index p
    blockSizes := Function.update d.blockSizes index size }

/-- The number of bytes that are looked at after a `mm_realloc`. -/
def checkSize (d : Driver) (index : Nat) (size : Int) : Int :=
  let oldsize := toInt (d.blockSizes index)
  if size < oldsize then size else oldsize

/-- Every byte of the new block that is looked at is the low byte of the index. -/
def preserved (d : Driver) (index newp : Nat) (size : Int) : Bool :=
  decide (∀ j, j < (d.checkSize index size).toNat →
    charValue (d.heap.mem (newp + j)) = (lowByte index : Int))

end Driver

def onDriver {α : Type} (m : M α) : Logged Driver Event α := zoom Driver.heap Driver.setHeap m

/-- `add_range` on the list of the driver: the error, if it returned 0. -/
def addRangeTo (lo : Nat) (size : Int) : Logged Driver Event (Option RangeError) := do
  match (← reads (fun d => addRange d.heap d.ranges lo size)) with
  | none => never
  | some (.error e) => return some e
  | some (.ok ranges) =>
      modifies (fun d => { d with ranges := ranges })
      return none

/-- The case `ALLOC` of `eval_mm_valid`, for request `i`. -/
def evalAlloc (i index : Nat) (size : Int) : Logged Driver Event (Except Failure Unit) := do
  let p ← onDriver (mmMalloc (toSize size))
  if p = NULL then
    return .error ⟨i, .mallocFailed⟩
  else
    match (← addRangeTo p size) with
    | some e => return .error ⟨i, .range e⟩
    | none =>
        modifies (·.remember index p (toSize size))
        return .ok ()

/-- The case `REALLOC`. -/
def evalRealloc (i index : Nat) (size : Int) : Logged Driver Event (Except Failure Unit) := do
  let oldp ← reads (fun d : Driver => d.blocks index)
  let newp ← onDriver (mmRealloc oldp (toSize size))
  if newp = NULL then
    return .error ⟨i, .reallocFailed⟩
  else
    modifies (fun d => { d with ranges := removeRange d.ranges oldp })
    match (← addRangeTo newp size) with
    | some e => return .error ⟨i, .range e⟩
    | none =>
        if (← reads (fun d => d.preserved index newp size)) then
          modifies (·.remember index newp (toSize size))
          return .ok ()
        else
          return .error ⟨i, .notPreserved⟩

/-- The case `FREE`. -/
def evalFree (index : Nat) : Logged Driver Event (Except Failure Unit) := do
  let p ← reads (fun d : Driver => d.blocks index)
  modifies (fun d => { d with ranges := removeRange d.ranges p })
  onDriver (mmFree p)
  return .ok ()

/-- One request of `eval_mm_valid`. -/
def evalOp (i : Nat) (op : TraceOp) : Logged Driver Event (Except Failure Unit) :=
  match op.type with
  | .alloc => evalAlloc i op.index op.size
  | .realloc => evalRealloc i op.index op.size
  | .free => evalFree op.index

/-- The loop of `eval_mm_valid`, from request `i` on. -/
def evalOps : Nat → List TraceOp → Logged Driver Event (Except Failure Unit)
  | _, [] => return .ok ()
  | i, op :: ops => do
      match (← evalOp i op) with
      | .error f => return .error f
      | .ok () => evalOps (i + 1) ops

/-- `eval_mm_valid`: `ok` where it returns 1, and the error it reports where it returns 0. -/
def evalMmValid (trace : Trace) : Logged Driver Event (Except Failure Unit) := do
  onDriver memResetBrk
  modifies (fun d => { d with ranges := [] })
  let r ← onDriver mmInit
  if r < 0 then
    return .error ⟨0, .initFailed⟩
  else
    evalOps 0 trace.ops

end MallocLab
