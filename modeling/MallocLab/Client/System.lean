import MallocLab.Heap.Walk
import MallocLab.Lib.Runs

set_option autoImplicit false

/-! # Clients

The system a client sees: the heap, and the blocks it holds. For each live block the list keeps
what no code stores: the size that was asked for, and for each byte of the payload the last
value the client wrote there, if any. A run starts with `mem_init` or `mem_reset_brk` and a
successful `mm_init`; then calls of `mm_malloc`, `mm_free` and `mm_realloc` and writes of the
client into its payloads follow in any order.
-/

namespace MallocLab

open Logged Words Tiling BlockList

/-- A live block: its pointer, the size asked for, and the last values written. -/
structure Live where
  ptr : Nat
  size : Nat
  data : Nat → Option UInt8

/-- The values written to the block at `p` are noted. -/
def Live.note (p : Nat) (f : Nat → Option UInt8) (l : Live) : Live :=
  if l.ptr = p then { l with data := fun i => (f i).or (l.data i) } else l

theorem note_ptr (p : Nat) (f : Nat → Option UInt8) (l : Live) : (l.note p f).ptr = l.ptr := by
  unfold Live.note
  split <;> rfl

theorem note_size (p : Nat) (f : Nat → Option UInt8) (l : Live) : (l.note p f).size = l.size := by
  unfold Live.note
  split <;> rfl

/-- The first `n` bytes at `p` are written where `f` has a value. -/
def Heap.fill (h : Heap) (p n : Nat) (f : Nat → Option UInt8) : Heap :=
  { h with mem := patch h.mem p n (fun i => (f i).getD (h.mem (p + i))) }

structure Sys where
  heap : Heap
  live : List Live

/-- The calls of a client. `write p f` writes `b` to byte `i` of the payload at `p`, for every
`i` with `f i = some b`. -/
inductive Call where
  | malloc (size : Nat)
  | free (p : Nat)
  | realloc (p size : Nat)
  | write (p : Nat) (f : Nat → Option UInt8)

/-- The block a call is given. -/
def Call.given : Call → Option Nat
  | .malloc _ => none
  | .free p => some p
  | .realloc p _ => some p
  | .write p _ => some p

namespace Sys

def find (s : Sys) (p : Nat) : Option Live := s.live.find? (fun l => l.ptr = p)

def IsLive (s : Sys) (p : Nat) : Prop := ∃ l ∈ s.live, l.ptr = p

def setHeap (h : Heap) (s : Sys) : Sys := { s with heap := h }

/-- A block becomes live. -/
def add (s : Sys) (l : Live) : Sys := { s with live := l :: s.live }

/-- The block at `p` is live no more. -/
def drop (s : Sys) (p : Nat) : Sys := { s with live := s.live.filter (fun l => l.ptr ≠ p) }

/-- The values known of the first `n` bytes at `p`. -/
def known (s : Sys) (p n : Nat) (i : Nat) : Option UInt8 :=
  match s.find p with
  | some l => if i < min l.size n then l.data i else none
  | none => none

/-- `mm_malloc(size)` has returned `p`. -/
def malloced (s : Sys) (p size : Nat) : Sys :=
  if p = NULL then s else s.add ⟨p, size, fun _ => none⟩

/-- `mm_realloc(p, size)` has returned `q`. The bytes that were copied have the values they
had. -/
def realloced (s : Sys) (p size q : Nat) : Sys :=
  if size = 0 then s.drop p
  else if q = NULL then s
  else (s.drop p).add ⟨q, size, s.known p size⟩

/-- The client writes into the payload of the live block at `p`. -/
def write (s : Sys) (p : Nat) (f : Nat → Option UInt8) : Sys :=
  match s.find p with
  | none => s
  | some l => { heap := s.heap.fill p l.size f, live := s.live.map (Live.note p f) }

end Sys

def onHeap {α : Type} (m : M α) : Logged Sys Event α := zoom Sys.heap Sys.setHeap m

def call : Call → Logged Sys Event Nat
  | .malloc size => do
      let p ← onHeap (mmMalloc size)
      modifies (·.malloced p size)
      return p
  | .free p => do
      onHeap (mmFree p)
      modifies (·.drop p)
      return NULL
  | .realloc p size => do
      let q ← onHeap (mmRealloc p size)
      modifies (·.realloced p size q)
      return q
  | .write p f => do
      modifies (·.write p f)
      return NULL

/-- The states in which `mm_init` is called: `mem_init` has got an 8-aligned arena from libc,
or `mem_reset_brk` was called in such an arena. -/
inductive Fresh : Heap → Prop where
  | init {arena : Nat} {h h' : Heap} : arena % 8 = 0 → arena + MAX_HEAP < 2 ^ 32 →
      (memInit arena).out h = some ((), h') → Fresh h'
  | reset {h h' : Heap} : Arena h → memResetBrk.out h = some ((), h') → Fresh h'

/-- What a client may call, given the sizes it may ask for. A pointer given back is live;
`mm_realloc` takes `NULL` with a size of at least 1. -/
def Valid (sizes : Heap → Nat → Prop) (s : Sys) : Call → Prop
  | .malloc size => size < 2 ^ 32 ∧ sizes s.heap size
  | .free p => s.IsLive p
  | .realloc p size => size < 2 ^ 32 ∧ sizes s.heap size ∧ (s.IsLive p ∨ p = NULL ∧ 1 ≤ size)
  | .write p _ => s.IsLive p

/-- The allocator with its clients, for the sizes they may ask for. -/
def allocator (sizes : Heap → Nat → Prop) : System Sys Event Call Nat where
  start log s := s.live = [] ∧ ∃ h, Fresh h ∧ mmInit.out h = some (0, s.heap) ∧ log = mmInit.log h
  valid := Valid sizes
  call := call

/-- Sizes below `2^31`. -/
def small (_ : Heap) (size : Nat) : Prop := size < 2 ^ 31

/-- No block on the heap walk is free. -/
def HeapFull (h : Heap) : Prop := ∃ r, heapWalk h = some r ∧ ∀ x ∈ r.1, x.2.mark = true

/-- The sizes that `mm_malloc` deals with rightly: no rounding wraps around, or the request is
refused because the heap is full and cannot grow by a `CHUNKSIZE`. -/
def sound (h : Heap) (size : Nat) : Prop :=
  size < 2 ^ 32 - 23 ∨
    2 ^ 32 - 15 ≤ size ∧ HeapFull h ∧ h.memMaxAddr < h.memBrk + CHUNKSIZE

/-- The assumption on a run: no pointer sum of `mem_sbrk` wraps around. -/
def NoWrap (log : List Event) : Prop := ∀ e ∈ log, e.NoWrap

theorem Fresh.arena {h : Heap} (hf : Fresh h) : Arena h ∧ h.memBrk = h.memStartBrk := by
  cases hf with
  | @init arena h _ h8 hfit hout =>
      by_cases h0 : arena = NULL
      · rw [memInit, if_pos h0] at hout
        cases hout
      · exact (memInit_arena (G := fun _ => True) h8 h0 hfit).out hout
  | reset hA hout =>
      cases hout
      exact ⟨⟨hA.aligned, hA.nonnull, hA.maxAddr, hA.fits⟩, rfl⟩

/-! ## Executing a client

A list of calls can be run from a fresh heap; the result is a run when every call was valid. -/

instance (s : Sys) (p : Nat) : Decidable (s.IsLive p) :=
  inferInstanceAs (Decidable (∃ l ∈ s.live, l.ptr = p))

instance (h : Heap) (size : Nat) : Decidable (small h size) :=
  inferInstanceAs (Decidable (size < 2 ^ 31))

instance (e : Event) : Decidable e.NoWrap :=
  match e with
  | .sbrk incr brk => inferInstanceAs (Decidable (0 ≤ incr → brk + incr < 2 ^ 32))
  | .get _ _ _ | .put _ _ _ | .sbrkFailed | .place _ _ | .memcpy _ _ _ _ _ =>
      inferInstanceAs (Decidable True)

instance (log : List Event) : Decidable (NoWrap log) :=
  inferInstanceAs (Decidable (∀ e ∈ log, e.NoWrap))

section Exec

variable (sizes : Heap → Nat → Prop) [∀ h size, Decidable (sizes h size)]

instance (s : Sys) (c : Call) : Decidable (Valid sizes s c) :=
  match c with
  | .malloc size => inferInstanceAs (Decidable (size < 2 ^ 32 ∧ sizes s.heap size))
  | .free p => inferInstanceAs (Decidable (s.IsLive p))
  | .realloc p size => inferInstanceAs
      (Decidable (size < 2 ^ 32 ∧ sizes s.heap size ∧ (s.IsLive p ∨ p = NULL ∧ 1 ≤ size)))
  | .write p _ => inferInstanceAs (Decidable (s.IsLive p))

/-- Run the calls from `s`, as long as they are valid and return. -/
def execFrom : List Call → List Event × Sys → Option (List Event × Sys)
  | [], r => some r
  | c :: cs, (log, s) =>
      if Valid sizes s c then
        match (call c).out s with
        | some (_, s') => execFrom cs (log ++ (call c).log s, s')
        | none => none
      else none

/-- `mm_init` in the heap `h`, and then the calls. -/
def exec (h : Heap) (cs : List Call) : Option (List Event × Sys) :=
  match mmInit.out h with
  | some (0, h') => execFrom sizes cs (mmInit.log h, ⟨h', []⟩)
  | _ => none

variable {sizes}

theorem execFrom_run {cs : List Call} {l log : List Event} {t s : Sys}
    (hrun : Run (allocator sizes) l t) (h : execFrom sizes cs (l, t) = some (log, s)) :
    Run (allocator sizes) log s := by
  induction cs generalizing l t with
  | nil =>
      cases h
      exact hrun
  | cons c cs ih =>
      rw [execFrom] at h
      split at h
      · rename_i hvalid
        rcases hout : (call c).out t with _ | ⟨r, t'⟩
        · rw [hout] at h
          cases h
        · rw [hout] at h
          exact ih (Run.call hrun hvalid hout) h
      · cases h

/-- What `exec` computes is a run. -/
theorem exec_run {h : Heap} {cs : List Call} {r : List Event × Sys} (hf : Fresh h)
    (hexec : exec sizes h cs = some r) : Run (allocator sizes) r.1 r.2 := by
  rw [exec] at hexec
  split at hexec
  · rename_i h' hout
    exact execFrom_run (Run.start ⟨rfl, h, hf, hout, rfl⟩) hexec
  · cases hexec

end Exec

/-- An arena at `0x1000` with old bytes in it, after `mem_reset_brk`. -/
def sampleHeap : Heap := ⟨fun _ => 0xA5, 0x1000, 0x1000, 0x1000 + MAX_HEAP, 0⟩

/-- A client that fills a block, moves it and frees another one. -/
def sampleCalls : List Call :=
  [.malloc 24, .malloc 8, .write 0x1010 (fun _ => some 7), .realloc 0x1010 100, .free 0x1030]

theorem sampleHeap_arena : Arena sampleHeap := ⟨by decide, by decide, rfl, by decide⟩

theorem sampleHeap_fresh : Fresh sampleHeap := Fresh.reset sampleHeap_arena rfl

theorem sample_isSome : (exec small sampleHeap sampleCalls).isSome := by decide +kernel

def sample : List Event × Sys := (exec small sampleHeap sampleCalls).get sample_isSome

theorem sample_run : Run (allocator small) sample.1 sample.2 :=
  exec_run sampleHeap_fresh (Option.some_get sample_isSome).symm

theorem sample_noWrap : NoWrap sample.1 := by decide +kernel

theorem small_sound {h : Heap} {size : Nat} (hs : small h size) : sound h size := by
  unfold small at hs
  exact Or.inl (by omega)

end MallocLab
