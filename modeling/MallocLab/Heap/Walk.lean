import MallocLab.Heap.Layout

set_option autoImplicit false

/-! # The heap walk

What the macros of `mm.c` read from the raw words of a heap, and the walk from `heap_listp` by
`NEXT_BLKP` to the block of size 0. `WellFormed` says of the words alone what an intact heap is;
a represented heap is intact and its walk is its block list (`Rep.wellFormed`).
-/

namespace MallocLab

open Logged Words Tiling BlockList

/-! ## Reading -/

/-- `GET_SIZE(HDRP(bp))` -/
def sizeAt (h : Heap) (bp : Nat) : Nat := sizeField (h.word (hdrp bp))

/-- `GET_ALLOC(HDRP(bp))` -/
def allocAt (h : Heap) (bp : Nat) : Nat := allocField (h.word (hdrp bp))

/-- `FTRP(bp)` -/
def ftrAt (h : Heap) (bp : Nat) : Nat := sub32 (add32 bp (sizeAt h bp)) DSIZE

/-- `NEXT_BLKP(bp)` -/
def nextAt (h : Heap) (bp : Nat) : Nat := add32 bp (sizeField (h.word (sub32 bp WSIZE)))

/-- `PREV_BLKP(bp)` -/
def prevAt (h : Heap) (bp : Nat) : Nat := sub32 bp (sizeField (h.word (sub32 bp DSIZE)))

/-- They are what the macros compute. -/
theorem macros_out (h : Heap) (bp : Nat) :
    (getSize (hdrp bp)).out h = some (sizeAt h bp, h) ∧
      (getAlloc (hdrp bp)).out h = some (allocAt h bp, h) ∧
      (ftrp bp).out h = some (ftrAt h bp, h) ∧ (nextBlkp bp).out h = some (nextAt h bp, h) ∧
      (prevBlkp bp).out h = some (prevAt h bp, h) := ⟨rfl, rfl, rfl, rfl, rfl⟩

/-- The blocks from `bp` on by `NEXT_BLKP`, and the block of size 0 at which the walk ends. -/
def walkFrom (h : Heap) : Nat → Nat → Option (List (Nat × Blk) × Nat)
  | 0, _ => none
  | fuel + 1, bp =>
      if sizeAt h bp = 0 then some ([], bp)
      else (walkFrom h fuel (nextAt h bp)).map
        (fun r => ((bp, ⟨sizeAt h bp, decide (allocAt h bp ≠ 0)⟩) :: r.1, r.2))

/-- The walk over the whole heap; it does not end if `2^32` steps do not end it. -/
def heapWalk (h : Heap) : Option (List (Nat × Blk) × Nat) := walkFrom h (2 ^ 32) h.heapListp

/-- The words of the heap are intact: the walk visits the prologue and then `blocks`, and ends
at the epilogue. -/
structure WellFormed (h : Heap) (blocks : List (Nat × Blk)) : Prop where
  walk : heapWalk h = some ((h.heapListp, ⟨DSIZE, true⟩) :: blocks, h.memBrk)
  sizes : ∀ x ∈ blocks, x.2.size % 8 = 0 ∧ 16 ≤ x.2.size
  footers : ∀ x ∈ (h.heapListp, ⟨DSIZE, true⟩) :: blocks, h.word (ftrAt h x.1) = h.word (hdrp x.1)
  epilogue : h.word (sub32 h.memBrk 4) = pack 0 1
  inverse : ∀ x ∈ blocks, prevAt h (nextAt h x.1) = x.1 ∧ nextAt h (prevAt h x.1) = x.1
  heapsize : memHeapsize h = 16 + (blocks.map (·.2.size)).sum

/-! ## The walk of a represented heap -/

/-- What is read at the first block of a chain. -/
theorem Chain.reads {h : Heap} {bp : Nat} {b : Blk} {bs : List Blk} (hc : Chain h bp (b :: bs)) :
    hdrp bp = bp - 4 ∧ sizeAt h bp = b.size ∧ nextAt h bp = bp + b.size ∧
      decide (allocAt h bp ≠ 0) = b.mark := by
  obtain ⟨hhead, hb8, hb16, hup⟩ := hc.head
  have hlo := hc.lower
  have hlt := hc.upper
  have hhdr : hdrp bp = bp - 4 := sub32_eq (by unfold WSIZE; omega) (by omega)
  have hsize : sizeField (h.word (hdrp bp)) = b.size := by
    rw [hhdr, hhead]
    exact sizeField_tag hb8 (by omega)
  refine ⟨hhdr, hsize, ?_, ?_⟩
  · show add32 bp (sizeField (h.word (hdrp bp))) = bp + b.size
    rw [hsize, add32_eq (by omega)]
  · rw [allocAt, hhdr, hhead, allocField_tag hb8]
    cases b.mark <;> rfl

theorem walkFrom_chain {h : Heap} :
    ∀ (bs : List Blk) (bp fuel : Nat), bs.length < fuel → Chain h bp bs →
      walkFrom h fuel bp = some (cells bp bs, h.memBrk) := by
  intro bs
  induction bs with
  | nil =>
      intro bp fuel hfuel hc
      obtain ⟨fuel, rfl⟩ : ∃ f, fuel = f + 1 := ⟨fuel - 1, by omega⟩
      have hlo := hc.lower
      have hlt := hc.upper
      have hends : bp = h.memBrk := hc.ends
      have hhdr : hdrp h.memBrk = h.memBrk - 4 := sub32_eq (by unfold WSIZE; omega) hlt
      have hz : sizeAt h h.memBrk = 0 := by
        rw [sizeAt, hhdr, hc.epilogue]
        decide
      -- the epilogue has size 0
      rw [hends, walkFrom, if_pos hz]
      rfl
  | cons b bs ih =>
      intro bp fuel hfuel hc
      obtain ⟨fuel, rfl⟩ : ∃ f, fuel = f + 1 := ⟨fuel - 1, by omega⟩
      obtain ⟨-, hsize, hnext, hmark⟩ := hc.reads
      obtain ⟨-, -, hpos, -⟩ := hc.head
      have htail := ih (bp + b.size) fuel (by rw [List.length_cons] at hfuel; omega) hc.tail
      rw [walkFrom, hsize, if_neg (by omega), hnext, htail, hmark]
      rfl

theorem Rep.heapWalk {h : Heap} {bs : List Blk} (hr : Rep h bs) :
    heapWalk h = some ((h.heapListp, prologue) :: cells (firstBlkp h) bs, h.memBrk) := by
  have hwalk := walkFrom_chain (prologue :: bs) _ _ hr.length_lt hr.chain
  rw [MallocLab.heapWalk, hr.listp]
  exact hwalk

/-- Two heaps with one block list in one arena have one walk. -/
theorem Rep.heapWalk_eq {h h' : Heap} {bs : List Blk} (hr : Rep h bs) (hr' : Rep h' bs)
    (hstart : h'.memStartBrk = h.memStartBrk) : MallocLab.heapWalk h' = MallocLab.heapWalk h := by
  have hbase : firstBlkp h' = firstBlkp h := congrArg (· + 16) hstart
  rw [hr.heapWalk, hr'.heapWalk, hr.listp, hr'.listp, hr.brk, hr'.brk, hbase, hstart]

theorem sum_cells (o : Nat) (bs : List Blk) : ((cells o bs).map (·.2.size)).sum = span bs := by
  induction bs generalizing o with
  | nil => rfl
  | cons b bs ih => simp [ih]

/-- What is read at a block of the heap, the prologue among them. -/
theorem Rep.reads {h : Heap} {bs : List Blk} (hr : Rep h bs) {x : Nat × Blk}
    (hx : x ∈ cells (h.memStartBrk + 8) (prologue :: bs)) :
    hdrp x.1 = x.1 - 4 ∧ sizeAt h x.1 = x.2.size ∧ nextAt h x.1 = x.1 + x.2.size ∧
      decide (allocAt h x.1 ≠ 0) = x.2.mark := by
  have hc := hr.chain
  obtain ⟨L, R, hbs, ho⟩ := cell_split hx
  rw [hbs] at hc
  rw [ho]
  exact hc.drop.reads

/-- Going back from the place after the blocks `L` and forth again. -/
theorem Rep.inverse {h : Heap} {L R : List Blk} (hr : Rep h (L ++ R)) :
    nextAt h (prevAt h (firstBlkp h + span L)) = firstBlkp h + span L := by
  obtain ⟨p, hp8, hlo, hfoot, hhead, -⟩ := hr.before
  have hlt := hr.brk_lt
  have hbrk := hr.brk
  rw [span_append] at hbrk
  unfold firstBlkp at *
  have hps : sizeField (tag p) = p.size := sizeField_tag hp8 (by omega)
  simp (disch := omega) only [prevAt, nextAt, WSIZE, DSIZE, sub32_eq, hfoot, hps, hhead]
  rw [add32_eq (by omega)]
  omega

/-- **A represented heap is intact.** -/
theorem Rep.wellFormed {h : Heap} {bs : List Blk} (hr : Rep h bs) :
    WellFormed h (cells (firstBlkp h) bs) := by
  have hlt := hr.brk_lt
  have hbrk := hr.brk
  refine ⟨hr.heapWalk, ?_, ?_, ?_, ?_, ?_⟩
  · exact fun x hx => hr.sizes x.2 (mem_of_mem_cells hx)
  · intro x hx
    rw [hr.listp] at hx
    have hcell : x ∈ cells (h.memStartBrk + 8) (prologue :: bs) := hx
    -- header and footer hold the same tag, in the prologue as well
    obtain ⟨hhdr, hsize, -⟩ := hr.reads hcell
    obtain ⟨hhead, hfoot⟩ := hr.tags x hcell
    obtain ⟨-, -, h8⟩ := hr.chain.tags x hcell
    have hb := cell_bounds hcell
    have hend := hr.chain.ends
    rw [ftrAt, hsize, add32_eq (by omega), sub32_eq (by unfold DSIZE; omega) (by omega), hhdr, hhead]
    exact hfoot
  · rw [sub32_eq (by omega) hlt]
    exact hr.epilogue
  · intro x hx
    obtain ⟨-, h8, h16, hlo, hup, -, hfoot⟩ := hr.block hx
    obtain ⟨-, -, hnext, -⟩ := hr.reads (List.mem_cons_of_mem _ hx)
    have hps : sizeField (tag x.2) = x.2.size := sizeField_tag h8 (by omega)
    refine ⟨?_, ?_⟩
    · rw [hnext]
      simp (disch := omega) only [prevAt, DSIZE, sub32_eq, hfoot, hps]
      omega
    · obtain ⟨L, R, rfl, ho⟩ := cell_split hx
      rw [ho]
      exact hr.inverse
  · rw [sum_cells, memHeapsize, sub32_eq (by omega) hlt]
    omega

theorem Rep.heapsize {h : Heap} {bs : List Blk} (hr : Rep h bs) : memHeapsize h = 16 + span bs := by
  have hheap := hr.wellFormed.heapsize
  rw [sum_cells] at hheap
  exact hheap

theorem Rep.heapsize_le {h : Heap} {bs : List Blk} (hr : Rep h bs) : memHeapsize h ≤ MAX_HEAP := by
  have hbrk := hr.brk
  have hle := hr.brk_le
  rw [hr.heapsize]
  rw [hr.arena.maxAddr] at hle
  omega

end MallocLab
