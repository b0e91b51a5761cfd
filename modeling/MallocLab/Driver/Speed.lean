import MallocLab.Driver.Served

set_option autoImplicit false

/-! # The speed run of the driver (`eval_mm_speed`)

The function that is timed replays a trace with the table `blocks` alone. It gets through a
legal trace exactly when the store says that every request is served (`evalMmSpeed_follow`).
-/

namespace MallocLab

open Logged

/-! ## The driver -/

/-- The heap under test, and the table `blocks` of the trace. -/
structure Speed where
  heap : Heap
  blocks : Nat → Nat

/-- Why `eval_mm_speed` calls `app_error`, which exits. -/
inductive SpeedError where
  | initFailed
  | mallocFailed
  | reallocFailed
  deriving DecidableEq, Repr

def SpeedError.text : SpeedError → String
  | .initFailed => "mm_init failed in eval_mm_speed"
  | .mallocFailed => "mm_malloc error in eval_mm_speed"
  | .reallocFailed => "mm_realloc error in eval_mm_speed"

namespace Speed

def setHeap (h : Heap) (v : Speed) : Speed := { v with heap := h }

def setBlock (v : Speed) (index p : Nat) : Speed :=
  { v with blocks := Function.update v.blocks index p }

end Speed

def onSpeed {α : Type} (m : M α) : Logged Speed Event α := zoom Speed.heap Speed.setHeap m

/-- The case `ALLOC` of `eval_mm_speed`. -/
def speedAlloc (index : Nat) (size : Int) : Logged Speed Event (Except SpeedError Unit) := do
  let p ← onSpeed (mmMalloc (toSize size))
  if p = NULL then
    return .error .mallocFailed
  else
    modifies (·.setBlock index p)
    return .ok ()

/-- The case `REALLOC`. -/
def speedRealloc (index : Nat) (newsize : Int) : Logged Speed Event (Except SpeedError Unit) := do
  let oldp ← reads (fun v : Speed => v.blocks index)
  let newp ← onSpeed (mmRealloc oldp (toSize newsize))
  if newp = NULL then
    return .error .reallocFailed
  else
    modifies (·.setBlock index newp)
    return .ok ()

/-- The case `FREE`. -/
def speedFree (index : Nat) : Logged Speed Event (Except SpeedError Unit) := do
  let block ← reads (fun v : Speed => v.blocks index)
  onSpeed (mmFree block)
  return .ok ()

/-- One request of `eval_mm_speed`. -/
def speedOp (op : TraceOp) : Logged Speed Event (Except SpeedError Unit) :=
  match op.type with
  | .alloc => speedAlloc op.index op.size
  | .realloc => speedRealloc op.index op.size
  | .free => speedFree op.index

/-- The loop of `eval_mm_speed`. -/
def speedOps : List TraceOp → Logged Speed Event (Except SpeedError Unit)
  | [] => return .ok ()
  | op :: ops => do
      match (← speedOp op) with
      | .error e => return .error e
      | .ok () => speedOps ops

/-- `eval_mm_speed` -/
def evalMmSpeed (trace : Trace) : Logged Speed Event (Except SpeedError Unit) := do
  onSpeed memResetBrk
  let r ← onSpeed mmInit
  if r < 0 then
    return .error .initFailed
  else
    speedOps trace.ops

/-! ## One request -/

/-- What an evaluator has come to: it has got through the requests, and follows the store that
was `served` with the ids `ids'`, or a request came back with `NULL`, as the store says. -/
def Comes (served : Option Store) (ids' : List Nat) (l : List Event) (ok failed : Prop) (h : Heap)
    (blocks sizes : Nat → Nat) : Prop :=
  (failed ∧ served = none ∧ Arena h) ∨
    (ok ∧ ∃ t' live, served = some t' ∧ Follow l ⟨h, live⟩ blocks sizes ids' t')

/-- What a legal request says, by its type. -/
theorem legal_cases {numIds : Nat} {ids : List Nat} {op : TraceOp} (hop : op.Legal numIds ids) :
    (op.type = .alloc ∧ (1 ≤ op.size ∧ op.size < 2 ^ 31) ∧ op.index ∉ ids ∧
        op.after ids = op.index :: ids) ∨
      (op.type = .realloc ∧ (1 ≤ op.size ∧ op.size < 2 ^ 31) ∧ op.index ∈ ids ∧
        op.after ids = ids) ∨
      (op.type = .free ∧ op.index ∈ ids ∧ op.after ids = ids.filter (· ≠ op.index)) := by
  obtain ⟨type, index, size⟩ := op
  cases type with
  | alloc => exact Or.inl ⟨rfl, hop.2.1, hop.2.2, rfl⟩
  | realloc => exact Or.inr (Or.inl ⟨rfl, hop.2.1, hop.2.2, rfl⟩)
  | free => exact Or.inr (Or.inr ⟨rfl, hop.2, rfl⟩)

theorem toSize_bounds {size : Int} (h : 1 ≤ size ∧ size < 2 ^ 31) :
    1 ≤ toSize size ∧ toSize size < 2 ^ 31 := by
  unfold toSize
  omega

theorem yields_onSpeed {α : Type} {m : M α} {v : Speed} {Q : List Event → α → Heap → Prop}
    (hm : Yields True Event.NoWrap m v.heap Q) :
    Yields True Event.NoWrap (onSpeed m) v (fun l a v' => ∃ h', Q l a h' ∧ v' = v.setHeap h') :=
  Yields.zoom hm

section Follows

variable {l : List Event} {v : Speed} {live : List Live} {sizes : Nat → Nat} {ids : List Nat}
  {t : Store} {numIds : Nat} {op : TraceOp}

theorem speedAlloc_follow (hF : Follow l ⟨v.heap, live⟩ v.blocks sizes ids t)
    (htype : op.type = .alloc) (hsize : 1 ≤ op.size ∧ op.size < 2 ^ 31) (hid : op.index ∉ ids) :
    Yields True Event.NoWrap (speedAlloc op.index op.size) v (fun l' r v' => ∃ sizes',
      Comes (t.serve op) (op.index :: ids) (l ++ l') (r = .ok ()) (∃ e, r = .error e) v'.heap
        v'.blocks sizes') := by
  have hlt := (toSize_bounds hsize).2
  rw [speedAlloc]
  refine (yields_onSpeed (hF.malloc htype hid hlt)).bind ?_
  rintro l' p v1 ⟨h', ⟨rfl, hnone, hA⟩ | ⟨hp, t', live', hsome, hF'⟩, rfl⟩
  · rw [if_pos rfl]
    exact Yields.pure ⟨sizes, Or.inl ⟨⟨_, rfl⟩, hnone, hA⟩⟩
  · rw [if_neg hp]
    refine Yields.modifies_bind (Yields.pure
      ⟨Function.update sizes op.index (toSize op.size), ?_⟩)
    rw [List.append_nil]
    exact Or.inr ⟨rfl, t', live', hsome, hF'⟩

theorem speedRealloc_follow (hF : Follow l ⟨v.heap, live⟩ v.blocks sizes ids t)
    (htype : op.type = .realloc) (hsize : 1 ≤ op.size ∧ op.size < 2 ^ 31) (hid : op.index ∈ ids) :
    Yields True Event.NoWrap (speedRealloc op.index op.size) v (fun l' r v' => ∃ sizes',
      Comes (t.serve op) ids (l ++ l') (r = .ok ()) (∃ e, r = .error e) v'.heap v'.blocks
        sizes') := by
  obtain ⟨h1, hlt⟩ := toSize_bounds hsize
  rw [speedRealloc]
  refine Yields.reads_bind (fun oldp hp => ?_)
  obtain rfl : oldp = v.blocks op.index := hp
  refine (yields_onSpeed (hF.realloc htype hid h1 hlt)).bind ?_
  rintro l' q v1 ⟨h', ⟨rfl, hnone, hA⟩ | ⟨hq, t', live', hsome, hF'⟩, rfl⟩
  · rw [if_pos rfl]
    exact Yields.pure ⟨sizes, Or.inl ⟨⟨_, rfl⟩, hnone, hA⟩⟩
  · rw [if_neg hq]
    refine Yields.modifies_bind (Yields.pure
      ⟨Function.update sizes op.index (toSize op.size), ?_⟩)
    rw [List.append_nil]
    exact Or.inr ⟨rfl, t', live', hsome, hF'⟩

theorem speedFree_follow (hF : Follow l ⟨v.heap, live⟩ v.blocks sizes ids t)
    (htype : op.type = .free) (hid : op.index ∈ ids) :
    Yields True Event.NoWrap (speedFree op.index) v (fun l' r v' => ∃ sizes',
      Comes (t.serve op) (ids.filter (· ≠ op.index)) (l ++ l') (r = .ok ()) (∃ e, r = .error e)
        v'.heap v'.blocks sizes') := by
  rw [speedFree]
  refine Yields.reads_bind (fun block hp => ?_)
  obtain rfl : block = v.blocks op.index := hp
  refine (yields_onSpeed (hF.free htype hid)).bind ?_
  rintro l' ⟨⟩ v1 ⟨h', ⟨t', live', hsome, hF'⟩, rfl⟩
  refine Yields.pure ⟨sizes, ?_⟩
  rw [List.append_nil]
  exact Or.inr ⟨rfl, t', live', hsome, hF'⟩

theorem speedOp_follow (hF : Follow l ⟨v.heap, live⟩ v.blocks sizes ids t)
    (hop : op.Legal numIds ids) :
    Yields True Event.NoWrap (speedOp op) v (fun l' r v' => ∃ sizes',
      Comes (t.serve op) (op.after ids) (l ++ l') (r = .ok ()) (∃ e, r = .error e) v'.heap
        v'.blocks sizes') := by
  rcases legal_cases hop with ⟨htype, hsize, hid, hafter⟩ | ⟨htype, hsize, hid, hafter⟩ |
    ⟨htype, hid, hafter⟩
  · rw [speedOp, htype, hafter]
    exact speedAlloc_follow hF htype hsize hid
  · rw [speedOp, htype, hafter]
    exact speedRealloc_follow hF htype hsize hid
  · rw [speedOp, htype, hafter]
    exact speedFree_follow hF htype hid

/-! ## Whole traces -/

/-- The ids that are allocated after the requests. -/
def idsAfter (ids : List Nat) (ops : List TraceOp) : List Nat := ops.foldl TraceOp.after ids

omit op in
theorem speedOps_follow {ops : List TraceOp}
    (hF : Follow l ⟨v.heap, live⟩ v.blocks sizes ids t) (hops : LegalFrom numIds ids ops) :
    Yields True Event.NoWrap (speedOps ops) v (fun l' r v' => ∃ sizes',
      Comes (t.serveAll ops) (idsAfter ids ops) (l ++ l') (r = .ok ()) (∃ e, r = .error e)
        v'.heap v'.blocks sizes') := by
  induction ops generalizing l v live sizes ids t with
  | nil =>
      rw [speedOps]
      refine Yields.pure ⟨sizes, Or.inr ⟨rfl, t, live, rfl, ?_⟩⟩
      rw [List.append_nil]
      exact hF
  | cons op ops ih =>
      rw [speedOps, Store.serveAll]
      refine (speedOp_follow hF hops.1).bind ?_
      rintro l' r v' ⟨sizes', ⟨⟨e, rfl⟩, hnone, hA⟩ | ⟨rfl, t', live', hsome, hF'⟩⟩
      · rw [hnone]
        exact Yields.pure ⟨sizes', Or.inl ⟨⟨e, rfl⟩, rfl, hA⟩⟩
      · rw [hsome]
        refine (ih hF' hops.2).mono (fun l'' r v'' hpost => ?_)
        rw [← List.append_assoc]
        exact hpost

end Follows

/-- **The speed run** of a legal trace. -/
theorem evalMmSpeed_follow {v : Speed} {trace : Trace} (hA : Arena v.heap)
    (hlegal : trace.Legal) :
    Yields True Event.NoWrap (evalMmSpeed trace) v (fun l r v' => ∃ sizes,
      Comes (served trace.ops) (idsAfter [] trace.ops) l (r = .ok ()) (∃ e, r = .error e)
        v'.heap v'.blocks sizes) := by
  rw [evalMmSpeed]
  refine (yields_onSpeed (reset_fresh hA)).bind ?_
  rintro _ ⟨⟩ v1 ⟨h1, ⟨rfl, hfresh⟩, rfl⟩
  have hinit := follow_init (T := True) hfresh v.blocks (fun _ => 0)
  refine (yields_onSpeed (v := v.setHeap h1) hinit).bind ?_
  rintro l r v2 ⟨h2, ⟨rfl, hF⟩, rfl⟩
  rw [if_neg (by decide)]
  exact speedOps_follow hF hlegal

end MallocLab
