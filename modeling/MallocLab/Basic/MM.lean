import MallocLab.Basic.Memlib

set_option autoImplicit false

/-! # The allocator (`mm.c`)

The macros and functions of `mm.c`, statement by statement. A block pointer `bp` points to a
payload; the word before it is the header, the last word of the block the footer, and both
hold the block size with the allocated bit in bit 0.
-/

namespace MallocLab

open Logged Words

/-! ## Constants and macros -/

def WSIZE : Nat := 4
def DSIZE : Nat := 8
def CHUNKSIZE : Nat := 2 ^ 12

def pack (size alloc : Nat) : Nat := size ||| alloc

/-- The size field of a tag word: `w & ~0x7`. -/
def sizeField (w : Nat) : Nat := w &&& 0xFFFFFFF8

/-- The allocated bit of a tag word: `w & 0x1`. -/
def allocField (w : Nat) : Nat := w &&& 0x1

def get (p : Nat) : M Nat := do
  emits (fun h => .get p h.memStartBrk h.memBrk)
  reads (·.word p)

def put (p val : Nat) : M Unit := do
  emits (fun h => .put p h.memStartBrk h.memBrk)
  modifies (·.setWord p val)

def getSize (p : Nat) : M Nat := do return sizeField (← get p)

def getAlloc (p : Nat) : M Nat := do return allocField (← get p)

def hdrp (bp : Nat) : Nat := sub32 bp WSIZE

def ftrp (bp : Nat) : M Nat := do return sub32 (add32 bp (← getSize (hdrp bp))) DSIZE

def nextBlkp (bp : Nat) : M Nat := do return add32 bp (← getSize (sub32 bp WSIZE))

def prevBlkp (bp : Nat) : M Nat := do return sub32 bp (← getSize (sub32 bp DSIZE))

/-! ## Coalescing, extending, placing -/

/-- The four cases of `coalesce`, by the allocated bits of the two neighbours. -/
def coalesceCases (bp prevAlloc nextAlloc size : Nat) : M Nat :=
  if prevAlloc ≠ 0 ∧ nextAlloc ≠ 0 then
    return bp
  else if prevAlloc ≠ 0 ∧ nextAlloc = 0 then do
    let size := add32 size (← getSize (hdrp (← nextBlkp bp)))
    put (hdrp bp) (pack size 0)
    put (← ftrp bp) (pack size 0)
    return bp
  else if prevAlloc = 0 ∧ nextAlloc ≠ 0 then do
    let size := add32 size (← getSize (hdrp (← prevBlkp bp)))
    put (← ftrp bp) (pack size 0)
    put (hdrp (← prevBlkp bp)) (pack size 0)
    prevBlkp bp
  else do
    let prevSize ← getSize (hdrp (← prevBlkp bp))
    let nextSize ← getSize (← ftrp (← nextBlkp bp))
    let size := add32 size (add32 prevSize nextSize)
    put (← ftrp (← nextBlkp bp)) (pack size 0)
    put (hdrp (← prevBlkp bp)) (pack size 0)
    prevBlkp bp

def coalesce (bp : Nat) : M Nat := do
  let prevAlloc ← getAlloc (← ftrp (← prevBlkp bp))
  let nextAlloc ← getAlloc (hdrp (← nextBlkp bp))
  let size ← getSize (hdrp bp)
  coalesceCases bp prevAlloc nextAlloc size

def extendHeap (words : Nat) : M Nat := do
  let size := if words % 2 ≠ 0 then mul32 (add32 words 1) DSIZE else mul32 words DSIZE
  let bp ← memSbrk (toInt size)
  if bp = FAILED then
    return NULL
  else
    put (hdrp bp) (pack size 0)
    put (← ftrp bp) (pack size 0)
    put (hdrp (← nextBlkp bp)) (pack 0 1)
    coalesce bp

def place (bp asize : Nat) : M Unit := do
  let csize ← getSize (hdrp bp)
  emits (fun _ => .place csize asize)
  if 2 * DSIZE ≤ sub32 csize asize then
    put (hdrp bp) (pack asize 1)
    put (← ftrp bp) (pack asize 1)
    let bp ← nextBlkp bp
    put (hdrp bp) (pack (sub32 csize asize) 0)
    put (← ftrp bp) (pack (sub32 csize asize) 0)
  else
    put (hdrp bp) (pack csize 1)
    put (← ftrp bp) (pack csize 1)

/-! ## Searching -/

/-- The test of the loop in `find_fit`; the size is read only when the block is free. -/
def fits (asize bp : Nat) : M Bool := do
  if (← getAlloc (hdrp bp)) ≠ 0 then
    return false
  else
    return decide (asize ≤ (← getSize (hdrp bp)))

/-- The loop of `find_fit`. It changes nothing, so a walk of `2^32` steps meets an address
twice and never ends: running out of `fuel` stands for the endless loop. -/
def findFitLoop (asize : Nat) : Nat → Nat → M Nat
  | 0, _ => never
  | fuel + 1, bp => do
      if 0 < (← getSize (hdrp bp)) then
        if (← fits asize bp) then
          return bp
        else
          findFitLoop asize fuel (← nextBlkp bp)
      else
        return NULL

def findFit (asize : Nat) : M Nat := do
  findFitLoop asize (2 ^ 32) (← reads (·.heapListp))

/-! ## The interface -/

def mmInit : M Int := do
  let p ← memSbrk (4 * WSIZE)
  modifies (fun h => { h with heapListp := p })
  if p = FAILED then
    return -1
  else
    put p 0
    put (add32 p (1 * WSIZE)) (pack DSIZE 1)
    put (add32 p (2 * WSIZE)) (pack DSIZE 1)
    put (add32 p (3 * WSIZE)) (pack 0 1)
    modifies (fun h => { h with heapListp := add32 p (2 * WSIZE) })
    if (← extendHeap (CHUNKSIZE / DSIZE)) = NULL then
      return -1
    else
      return 0

/-- The block size `mm_malloc` asks for: header and footer added, rounded up to 8. -/
def adjust (size : Nat) : Nat :=
  if size ≤ DSIZE then 2 * DSIZE
  else mul32 DSIZE (add32 (add32 size DSIZE) (DSIZE - 1) / DSIZE)

def mmMalloc (size : Nat) : M Nat := do
  if size = 0 then
    return NULL
  else
    let asize := adjust size
    let bp ← findFit asize
    if bp ≠ NULL then
      place bp asize
      return bp
    else
      let extendsize := max asize CHUNKSIZE
      let bp ← extendHeap (extendsize / DSIZE)
      if bp = NULL then
        return NULL
      else
        place bp asize
        return bp

def mmFree (bp : Nat) : M Unit := do
  let size ← getSize (hdrp bp)
  put (hdrp bp) (pack size 0)
  put (← ftrp bp) (pack size 0)
  let _ ← coalesce bp

/-- The payload capacity of the block at `bp`, by its header. -/
def capacity (h : Heap) (bp : Nat) : Nat := sizeField (h.word (hdrp bp)) - DSIZE

def memcpy (dst src n : Nat) : M Unit := do
  emits (fun h => .memcpy dst src n (capacity h dst) (capacity h src))
  modifies (fun h => { h with mem := patch h.mem dst n (fun i => h.mem (src + i)) })

def mmRealloc (bp size : Nat) : M Nat := do
  let oldptr := bp
  if size = 0 then
    mmFree bp
    return NULL
  else if bp = NULL then
    mmMalloc size
  else
    let newptr ← mmMalloc size
    if newptr = NULL then
      return NULL
    else
      let copySize := sub32 (← getSize (hdrp oldptr)) DSIZE
      let copySize := if size < copySize then size else copySize
      memcpy newptr oldptr copySize
      mmFree oldptr
      return newptr

/-! ## What the accesses and macros do

One rule for each, so that a proof about a function reads the words it touches and nothing
else. -/

section Rules

variable {G : Event → Prop} {h : Heap}

@[simp] theorem wp_get (p : Nat) (Q : Nat → Heap → Prop) :
    Wp G (get p) h Q ↔ G (.get p h.memStartBrk h.memBrk) ∧ Q (h.word p) h := by
  simp [get]

@[simp] theorem wp_put (p v : Nat) (Q : Unit → Heap → Prop) :
    Wp G (put p v) h Q ↔ G (.put p h.memStartBrk h.memBrk) ∧ Q () (h.setWord p v) := by
  simp [put]

@[simp] theorem wp_getSize (p : Nat) (Q : Nat → Heap → Prop) :
    Wp G (getSize p) h Q
      ↔ G (.get p h.memStartBrk h.memBrk) ∧ Q (sizeField (h.word p)) h := by
  simp [getSize]

@[simp] theorem wp_getAlloc (p : Nat) (Q : Nat → Heap → Prop) :
    Wp G (getAlloc p) h Q
      ↔ G (.get p h.memStartBrk h.memBrk) ∧ Q (allocField (h.word p)) h := by
  simp [getAlloc]

@[simp] theorem wp_ftrp (bp : Nat) (Q : Nat → Heap → Prop) :
    Wp G (ftrp bp) h Q ↔ G (.get (hdrp bp) h.memStartBrk h.memBrk) ∧
      Q (sub32 (add32 bp (sizeField (h.word (hdrp bp)))) DSIZE) h := by
  simp [ftrp]

@[simp] theorem wp_nextBlkp (bp : Nat) (Q : Nat → Heap → Prop) :
    Wp G (nextBlkp bp) h Q ↔ G (.get (hdrp bp) h.memStartBrk h.memBrk) ∧
      Q (add32 bp (sizeField (h.word (hdrp bp)))) h := by
  simp [nextBlkp, hdrp]

@[simp] theorem wp_prevBlkp (bp : Nat) (Q : Nat → Heap → Prop) :
    Wp G (prevBlkp bp) h Q ↔ G (.get (sub32 bp DSIZE) h.memStartBrk h.memBrk) ∧
      Q (sub32 bp (sizeField (h.word (sub32 bp DSIZE)))) h := by
  simp [prevBlkp]

@[simp] theorem wp_memcpy (dst src n : Nat) (Q : Unit → Heap → Prop) :
    Wp G (memcpy dst src n) h Q
      ↔ G (.memcpy dst src n (capacity h dst) (capacity h src)) ∧
        Q () { h with mem := patch h.mem dst n (fun i => h.mem (src + i)) } := by
  simp [memcpy]

end Rules

end MallocLab
