import MallocLab.Lib.Logged
import MallocLab.Lib.Words

set_option autoImplicit false

/-! # The simulated memory system (`memlib.c`)

The state of the process that `memlib.c` and `mm.c` keep: the bytes of memory, the three
break pointers of `memlib.c` and the static `heap_listp` of `mm.c`. The program is built with
`-m32`, so addresses, `size_t` and `unsigned int` are natural numbers below `2^32` with
arithmetic modulo `2^32`, and an `int` argument is an integer.

Every access of the modelled code is an event of the log: the words `GET` and `PUT` touch
with the extent of the heap at that moment, the increments `mem_sbrk` is asked for, the two
sizes `place` compares and the ranges of `memcpy`. Events change no behaviour; they are what
statements about accesses are about.
-/

namespace MallocLab

open Logged Words

/-! ## Machine arithmetic -/

def add32 (a b : Nat) : Nat := (a + b) % 2 ^ 32

def sub32 (a b : Nat) : Nat := (a + 2 ^ 32 - b) % 2 ^ 32

def mul32 (a b : Nat) : Nat := a * b % 2 ^ 32

/-- The conversion of a 32-bit `size_t` to `int`. -/
def toInt (n : Nat) : Int := if n < 2 ^ 31 then n else (n : Int) - 2 ^ 32

theorem add32_eq {a b : Nat} (h : a + b < 2 ^ 32) : add32 a b = a + b := Nat.mod_eq_of_lt h

theorem sub32_eq {a b : Nat} (h : b ≤ a) (ha : a < 2 ^ 32) : sub32 a b = a - b := by
  unfold sub32
  omega

theorem mul32_eq {a b : Nat} (h : a * b < 2 ^ 32) : mul32 a b = a * b := Nat.mod_eq_of_lt h

/-! ## State and events -/

def NULL : Nat := 0

/-- `(void *)-1`, the failure value of `mem_sbrk`. -/
def FAILED : Nat := 2 ^ 32 - 1

def MAX_HEAP : Nat := 20 * 2 ^ 20

/-- The memory of the process, the variables of `memlib.c` and `heap_listp` of `mm.c`. -/
structure Heap where
  mem : Nat → UInt8
  memStartBrk : Nat
  memBrk : Nat
  memMaxAddr : Nat
  heapListp : Nat

/-- What a run does to memory and to the break. `get` and `put` carry the address and the
extent `[mem_start_brk, mem_brk)` of the heap at that moment, `memcpy` the payload
capacities of its two blocks. -/
inductive Event where
  | get (p lo brk : Nat)
  | put (p lo brk : Nat)
  | sbrk (incr : Int) (brk : Nat)
  /-- `errno = ENOMEM` and "ERROR: mem_sbrk failed. Ran out of memory..." on `stderr`. -/
  | sbrkFailed
  | place (csize asize : Nat)
  | memcpy (dst src n dstCap srcCap : Nat)

/-- The accesses that stay inside the heap: words are aligned and inside, `place` is given a
block that is large enough, and `memcpy` stays inside two disjoint payloads. -/
def Event.Ok : Event → Prop
  | .get p lo brk => p % 4 = 0 ∧ lo ≤ p ∧ p + 4 ≤ brk
  | .put p lo brk => p % 4 = 0 ∧ lo ≤ p ∧ p + 4 ≤ brk
  | .place csize asize => asize ≤ csize
  | .memcpy dst src n dstCap srcCap =>
      n ≤ dstCap ∧ n ≤ srcCap ∧ (dst + n ≤ src ∨ src + n ≤ dst)
  | _ => True

/-- The pointer sum `mem_brk + incr` that `mem_sbrk` forms does not wrap around. -/
def Event.NoWrap : Event → Prop
  | .sbrk incr brk => 0 ≤ incr → brk + incr < 2 ^ 32
  | _ => True

abbrev M (α : Type) : Type := Logged Heap Event α

/-- The word at `p`. -/
def Heap.word (h : Heap) (p : Nat) : Nat := loadWord h.mem p

/-- The heap after a word is stored at `p`. -/
def Heap.setWord (h : Heap) (p v : Nat) : Heap := { h with mem := storeWord h.mem p v }

-- `by rfl` and not `rfl`: `simp` then rewrites with these, instead of leaving the kernel to
-- compare two nested heaps by unfolding.
@[simp] theorem setWord_memStartBrk (h : Heap) (p v : Nat) :
    (h.setWord p v).memStartBrk = h.memStartBrk := by rfl
@[simp] theorem setWord_memBrk (h : Heap) (p v : Nat) :
    (h.setWord p v).memBrk = h.memBrk := by rfl
@[simp] theorem setWord_memMaxAddr (h : Heap) (p v : Nat) :
    (h.setWord p v).memMaxAddr = h.memMaxAddr := by rfl
@[simp] theorem setWord_heapListp (h : Heap) (p v : Nat) :
    (h.setWord p v).heapListp = h.heapListp := by rfl

theorem word_lt (h : Heap) (p : Nat) : h.word p < 2 ^ 32 := loadWord_lt h.mem p

theorem word_setWord {h : Heap} {p v : Nat} (hv : v < 2 ^ 32) :
    (h.setWord p v).word p = v :=
  (loadWord_storeWord h.mem p v).trans (Nat.mod_eq_of_lt hv)

theorem word_setWord_ne {h : Heap} {p v w : Nat} (hw : w + 4 ≤ p ∨ p + 4 ≤ w) :
    (h.setWord p v).word w = h.word w := loadWord_storeWord_ne hw

/-! ## The functions of `memlib.c` -/

/-- `mem_init`, when libc's `malloc(MAX_HEAP)` returns `arena`; without storage it exits. -/
def memInit (arena : Nat) : M Unit :=
  if arena = NULL then never
  else modifies (fun h =>
    { h with memStartBrk := arena, memMaxAddr := add32 arena MAX_HEAP, memBrk := arena })

def memResetBrk : M Unit := modifies (fun h => { h with memBrk := h.memStartBrk })

def memSbrk (incr : Int) : M Nat := do
  let oldBrk ← reads (·.memBrk)
  let maxAddr ← reads (·.memMaxAddr)
  emits (fun h => .sbrk incr h.memBrk)
  if incr < 0 ∨ maxAddr < add32 oldBrk incr.toNat then
    emits (fun _ => .sbrkFailed)
    return FAILED
  else
    modifies (fun h => { h with memBrk := add32 oldBrk incr.toNat })
    return oldBrk

def memHeapLo (h : Heap) : Nat := h.memStartBrk

def memHeapHi (h : Heap) : Nat := sub32 h.memBrk 1

def memHeapsize (h : Heap) : Nat := sub32 h.memBrk h.memStartBrk

/-- The arena `mem_init` leaves: 8-aligned storage of `MAX_HEAP` bytes that ends below
`2^32`. Its bytes, the break and `heap_listp` are arbitrary. -/
structure Arena (h : Heap) : Prop where
  aligned : h.memStartBrk % 8 = 0
  nonnull : 0 < h.memStartBrk
  maxAddr : h.memMaxAddr = h.memStartBrk + MAX_HEAP
  fits : h.memMaxAddr < 2 ^ 32

theorem memInit_arena {arena : Nat} {h : Heap} (h8 : arena % 8 = 0) (h0 : arena ≠ NULL)
    (hfit : arena + MAX_HEAP < 2 ^ 32) {G : Event → Prop} :
    Wp G (memInit arena) h (fun _ h' => Arena h' ∧ h'.memBrk = h'.memStartBrk) := by
  rw [memInit, if_neg h0, wp_modifies]
  exact ⟨⟨h8, Nat.pos_of_ne_zero h0, add32_eq hfit, (add32_eq hfit).trans_lt hfit⟩, rfl⟩

end MallocLab
