import MallocLab.Client.Invariant
import MallocLab.Lib.Canonical

set_option autoImplicit false

/-! # Requests on the heap walk

What `mm_malloc` and `mm_free` do to the blocks of the heap walk, with the addresses a walk
finds. `mm_malloc` is first fit: the lowest block that is large enough is carved, and only
when there is none the heap grows (`malloc_firstFit`). `mm_free` merges the block with the
free blocks before and after it and touches no other (`free_merges`), and so it undoes the
`mm_malloc` before it (`free_undoes_malloc`).
-/

namespace MallocLab

open Logged Words Tiling BlockList

/-- The heap walk visits the prologue and then `blocks`, and ends at the epilogue. -/
def Blocks (h : Heap) (blocks : List (Nat × Blk)) : Prop :=
  heapWalk h = some ((h.heapListp, ⟨DSIZE, true⟩) :: blocks, h.memBrk)

instance (h : Heap) (blocks : List (Nat × Blk)) : Decidable (Blocks h blocks) :=
  inferInstanceAs (Decidable (_ = _))

/-- The blocks of a heap that has the arena of `h`. -/
theorem Rep.blocks {h h' : Heap} {bs : List Blk} (hr : Rep h' bs)
    (hstart : h'.memStartBrk = h.memStartBrk) : Blocks h' (cells (firstBlkp h) bs) := by
  have hbase : firstBlkp h' = firstBlkp h := congrArg (· + 16) hstart
  rw [← hbase]
  exact hr.heapWalk

theorem Rep.brk_eq {h : Heap} {bs : List Blk} (hr : Rep h bs) :
    h.memBrk = firstBlkp h + span bs := hr.brk

/-! ## First fit -/

def roundUp (k n : Nat) : Nat := (n + (k - 1)) / k * k

/-- The size of the block that serves a request: room for header and footer, in units of 8. -/
def blockSize (size : Nat) : Nat := if size ≤ 8 then 16 else roundUp 8 (size + 8)

/-- The bytes the heap grows by when no free block is large enough. -/
def heapGrowth (size : Nat) : Nat := roundUp 16 (max (blockSize size) 4096)

/-- What a free block of size `c` at `p` becomes when `a` bytes of it are allocated: the rest is
a free block, unless it is smaller than a block can be. -/
def placed (p a c : Nat) : List (Nat × Blk) :=
  if 16 ≤ c - a then [(p, ⟨a, true⟩), (p + a, ⟨c - a, false⟩)] else [(p, ⟨c, true⟩)]

/-- First fit from the heap `h` with the blocks `blocks`: `a` bytes are asked for, the heap can
grow by `e`, `p` is returned and the heap is `h'`. -/
structure FirstFit (h : Heap) (blocks : List (Nat × Blk)) (a e p : Nat) (h' : Heap) : Prop where
  /-- The lowest free block that is large enough is used. -/
  found : ∀ L q c R, blocks = L ++ (q, ⟨c, false⟩) :: R → a ≤ c →
    (∀ x ∈ L, x.2.mark = true ∨ x.2.size < a) →
      p = q ∧ h'.memBrk = h.memBrk ∧ Blocks h' (L ++ placed q a c ++ R)
  /-- There is none, and the heap cannot grow. -/
  refused : (∀ x ∈ blocks, x.2.mark = true ∨ x.2.size < a) → h.memMaxAddr < h.memBrk + e →
    p = NULL ∧ h' = h
  /-- There is none, and the last block is free: it grows. -/
  grown : (∀ x ∈ blocks, x.2.mark = true ∨ x.2.size < a) → h.memBrk + e ≤ h.memMaxAddr →
    ∀ L q c, blocks = L ++ [(q, ⟨c, false⟩)] →
      p = q ∧ h'.memBrk = h.memBrk + e ∧ Blocks h' (L ++ placed q a (c + e))
  /-- There is none, and the last block is allocated: a new one is put behind it. -/
  appended : (∀ x ∈ blocks, x.2.mark = true ∨ x.2.size < a) → h.memBrk + e ≤ h.memMaxAddr →
    ∀ L x, blocks = L ++ [x] → x.2.mark = true →
      p = h.memBrk ∧ h'.memBrk = h.memBrk + e ∧ Blocks h' (blocks ++ placed h.memBrk a e)

theorem placed_eq (p a c : Nat) : placed p a c = cells p (carve 16 a c) := by
  unfold placed carve
  split <;> rfl

theorem blockSize_eq {size : Nat} (h1 : 1 ≤ size) : blockSize size = requestSize size := by
  unfold blockSize roundUp requestSize
  split <;> omega

theorem heapGrowth_eq {size : Nat} (h1 : 1 ≤ size) : heapGrowth size = extension size := by
  have h8 := requestSize_mod size
  rw [heapGrowth, blockSize_eq h1]
  unfold roundUp extension growth CHUNKSIZE
  omega

/-- What is served when the block list gives a block. -/
theorem Served.of_some {h h' : Heap} {bs bs' : List Blk} {size p o : Nat}
    (hserved : Served h bs size p h') (ha : allocate size bs = some (o, bs')) :
    p = firstBlkp h + o ∧ h'.memBrk = firstBlkp h + span bs' ∧
      Blocks h' (cells (firstBlkp h) bs') := by
  rcases hserved with ⟨hnone, -, -⟩ | ⟨o', bs'', ha', hp, hr', hK⟩
  · rw [ha] at hnone
    cases hnone
  · rw [ha] at ha'
    cases ha'
    refine ⟨hp, ?_, hr'.blocks hK.start⟩
    rw [hr'.brk, hK.start]
    rfl

theorem Served.of_none {h h' : Heap} {bs : List Blk} {size p : Nat}
    (hserved : Served h bs size p h') (hnone : allocate size bs = none) : p = NULL ∧ h' = h := by
  rcases hserved with ⟨-, hp, hh⟩ | ⟨o, bs', ha, -⟩
  · exact ⟨hp, hh⟩
  · rw [hnone] at ha
    cases ha

/-- Without a block that is large enough the end of the heap grows. The blocks end with `c` free
bytes behind `L`, which may be none. -/
theorem Served.grows {h h' : Heap} {bs L : List Blk} {size p c : Nat} (hr : Rep h bs)
    (h1 : 1 ≤ size) (hserved : Served h bs size p h')
    (hno : ∀ b ∈ bs, b.mark = true ∨ b.size < requestSize size)
    (hmax : h.memBrk + extension size ≤ h.memMaxAddr)
    (hjoin : joinLeft bs (extension size) = (L, c + extension size))
    (hspan : span bs = span L + c) :
    p = firstBlkp h + span L ∧ h'.memBrk = h.memBrk + extension size ∧
      Blocks h' (cells (firstBlkp h) L
        ++ placed (firstBlkp h + span L) (requestSize size) (c + extension size)) := by
  have ha := allocate_none h1 hno
  rw [if_pos ((hr.room_iff _).mpr hmax), hjoin] at ha
  obtain ⟨hp, hbrk, hwalk⟩ := hserved.of_some ha
  have hle : requestSize size ≤ c + extension size :=
    calc requestSize size ≤ extension size := requestSize_le_extension size
      _ ≤ c + extension size := Nat.le_add_left _ c
  refine ⟨hp, ?_, ?_⟩
  · calc h'.memBrk
      _ = firstBlkp h + span (L ++ carve 16 (requestSize size) (c + extension size)) := hbrk
      _ = firstBlkp h + span bs + extension size := by
        rw [span_append, span_carve hle, hspan]
        omega
      _ = h.memBrk + extension size := by rw [hr.brk_eq]
  · rw [placed_eq]
    simpa using hwalk

/-- A request served on the block list is first fit on the heap walk. -/
theorem Served.firstFit {h h' : Heap} {bs : List Blk} {size p : Nat} (hr : Rep h bs)
    (h1 : 1 ≤ size) (hserved : Served h bs size p h') :
    FirstFit h (cells (firstBlkp h) bs) (blockSize size) (heapGrowth size) p h' := by
  rw [blockSize_eq h1, heapGrowth_eq h1]
  refine ⟨?_, ?_, ?_, ?_⟩
  · intro L q c R hblocks hac hL
    obtain ⟨L, R, rfl, rfl, hq, rfl⟩ := cells_eq_mid hblocks
    simp only at hq
    subst hq
    obtain ⟨hp, hbrk, hwalk⟩ := hserved.of_some (allocate_found h1 hac (forall_cells.mp hL))
    refine ⟨hp, ?_, ?_⟩
    · rw [hbrk, hr.brk_eq]
      simp [span_carve hac]
    · rw [placed_eq]
      simpa [span_carve hac, Nat.add_assoc] using hwalk
  · intro hno hmax
    have hnone := allocate_none h1 (forall_cells.mp hno)
    rw [if_neg (fun hroom => Nat.not_le.mpr hmax ((hr.room_iff _).mp hroom))] at hnone
    exact hserved.of_none hnone
  · -- the last block and the new bytes are one block
    intro hno hmax L q c hblocks
    obtain ⟨L, R, rfl, rfl, hq, hR⟩ := cells_eq_mid hblocks
    obtain rfl : R = [] := cells_eq_nil hR.symm
    simp only at hq
    subst hq
    apply hserved.grows hr h1 (forall_cells.mp hno) hmax
    · rw [joinLeft_free, Nat.add_comm]
    · simp
  · intro hno hmax L x hblocks hmark
    obtain ⟨L, R, hbs, rfl, hq, hR⟩ := cells_eq_mid hblocks
    obtain rfl : R = [] := cells_eq_nil hR.symm
    have hjoin : joinLeft bs (extension size) = (bs, 0 + extension size) := by
      rw [hbs, joinLeft_alloc hmark, Nat.zero_add]
    have hgrows := hserved.grows hr h1 (forall_cells.mp hno) hmax hjoin rfl
    rw [← hr.brk_eq, Nat.zero_add] at hgrows
    exact hgrows

/-- **`mm_malloc` is first fit**, in every heap that a run reaches; the loop of `find_fit` ends
there, at the epilogue when no block is large enough. -/
theorem malloc_firstFit {log : List Event} {s : Sys} (hrun : Run (allocator small) log s)
    (hnw : NoWrap log) {size : Nat} (h1 : 1 ≤ size) (hlt : size < 2 ^ 31)
    (hcall : NoWrap ((mmMalloc size).log s.heap)) :
    ∃ blocks p h', blocks ≠ [] ∧ Blocks s.heap blocks ∧
      (∃ q, (findFit (blockSize size)).out s.heap = some (q, s.heap) ∧
        (q = NULL ↔ ∀ x ∈ blocks, x.2.mark = true ∨ x.2.size < blockSize size)) ∧
      (mmMalloc size).out s.heap = some (p, h') ∧
      FirstFit s.heap blocks (blockSize size) (heapGrowth size) p h' := by
  obtain ⟨⟨bs, hI⟩, -⟩ := run_inv (fun _ _ => small_sound) hrun hnw
  obtain ⟨-, p, h', hout, hserved⟩ := mmMalloc_spec hI.rep (by omega) hcall
  obtain ⟨-, q, h1', hfind, rfl, hq⟩ := findFit_spec (blockSize size) hI.rep
  refine ⟨_, p, h', ?_, hI.rep.blocks rfl, ⟨q, hfind, ?_⟩, hout, hserved.firstFit hI.rep h1⟩
  · intro hnil
    exact hI.nonempty (cells_eq_nil hnil)
  · have hnone : (∀ x ∈ cells (firstBlkp s.heap) bs, x.2.mark = true ∨ x.2.size < blockSize size)
        ↔ splitFit (blockSize size) bs = none := forall_cells.trans splitFit_none.symm
    rw [hq, hnone, fitPtr]
    rcases splitFit (blockSize size) bs with _ | ⟨L, c, R⟩
    · exact ⟨fun _ => rfl, fun _ => rfl⟩
    · have hne : firstBlkp s.heap + span L ≠ NULL := firstBlkp_add_ne s.heap (span L)
      exact ⟨fun h0 => absurd h0 hne, fun h0 => absurd h0 (Option.some_ne_none _)⟩

/-- The sample heap serves 100 bytes from its first free block. -/
theorem malloc_firstFit_sample :
    ∃ blocks p h', blocks ≠ [] ∧ Blocks sample.2.heap blocks ∧
      (∃ q, (findFit (blockSize 100)).out sample.2.heap = some (q, sample.2.heap) ∧
        (q = NULL ↔ ∀ x ∈ blocks, x.2.mark = true ∨ x.2.size < blockSize 100)) ∧
      (mmMalloc 100).out sample.2.heap = some (p, h') ∧
      FirstFit sample.2.heap blocks (blockSize 100) (heapGrowth 100) p h' :=
  malloc_firstFit sample_run sample_noWrap (by decide) (by decide) (by decide +kernel)

/-! ## Merging -/

/-- The block before `p` when it is free: its address `q` and its size `a`, and the blocks `L'`
before it. Otherwise `q` is `p`, and nothing is before it. -/
def Before (L L' : List (Nat × Blk)) (p q a : Nat) : Prop :=
  L = L' ++ [(q, ⟨a, false⟩)] ∨ (L = L' ∧ q = p ∧ a = 0 ∧ ∀ x ∈ L.getLast?, x.2.mark = true)

/-- The size `d` of the first block of `R` when it is free, and the blocks `R'` after it. -/
def After (R R' : List (Nat × Blk)) (d : Nat) : Prop :=
  (∃ r, R = (r, ⟨d, false⟩) :: R') ∨ (R = R' ∧ d = 0 ∧ ∀ x ∈ R.head?, x.2.mark = true)

/-- Between `h` and `h'` the block of size `n` at `p` has become free and is one with its free
neighbours: a block of size `m` at `q`. -/
structure MergesTo (h : Heap) (L : List (Nat × Blk)) (p n : Nat) (R : List (Nat × Blk))
    (L' : List (Nat × Blk)) (q m : Nat) (R' : List (Nat × Blk)) (h' : Heap) : Prop where
  shape : ∃ a d, Before L L' p q a ∧ After R R' d ∧ m = a + n + d
  walk : Blocks h' (L' ++ (q, ⟨m, false⟩) :: R')
  tags : h'.word (hdrp q) = pack m 0 ∧ h'.word (ftrAt h' q) = pack m 0
  others : ∀ x ∈ L' ++ R', h'.word (hdrp x.1) = h.word (hdrp x.1) ∧
    h'.word (ftrAt h' x.1) = h.word (ftrAt h x.1)
  brk : h'.memBrk = h.memBrk
  listp : h'.heapListp = h.heapListp

theorem before_joinLeft (o : Nat) (L : List Blk) (n : Nat) :
    ∃ a, Before (cells o L) (cells o (joinLeft L n).1) (o + span L) (o + span (joinLeft L n).1) a ∧
      (joinLeft L n).2 = n + a := by
  rcases joinLeft_eq L n with ⟨L', c, rfl, hj⟩ | ⟨hlast, hj⟩
  · rw [hj]
    exact ⟨c, Or.inl (by simp), rfl⟩
  · rw [hj]
    refine ⟨0, Or.inr ⟨rfl, rfl, rfl, fun x hx => ?_⟩, rfl⟩
    obtain ⟨X, hX⟩ := List.getLast?_eq_some_iff.mp hx
    obtain ⟨L', R', rfl, -, -, hR⟩ := cells_eq_mid hX
    obtain rfl : R' = [] := cells_eq_nil hR.symm
    exact hlast L' x.2 rfl

theorem after_joinRight (o n : Nat) (R : List Blk) :
    ∃ d, After (cells o R) (cells (o + d) (joinRight n R).2) d ∧ (joinRight n R).1 = n + d := by
  rcases joinRight_eq n R with ⟨c, R', rfl, hj⟩ | ⟨hhead, hj⟩
  · rw [hj]
    exact ⟨c, Or.inl ⟨o, rfl⟩, rfl⟩
  · rw [hj]
    refine ⟨0, Or.inr ⟨rfl, rfl, fun x hx => ?_⟩, rfl⟩
    cases R with
    | nil => cases hx
    | cons b R =>
        cases hx
        exact hhead b R rfl

theorem Before.subset {L L' : List (Nat × Blk)} {p q a : Nat} (h : Before L L' p q a) {x : Nat × Blk}
    (hx : x ∈ L') : x ∈ L := by
  rcases h with rfl | ⟨rfl, -⟩
  · exact List.mem_append_left _ hx
  · exact hx

theorem After.subset {R R' : List (Nat × Blk)} {d : Nat} (h : After R R' d) {x : Nat × Blk}
    (hx : x ∈ R') : x ∈ R := by
  rcases h with ⟨r, rfl⟩ | ⟨rfl, -⟩
  · exact List.mem_cons_of_mem _ hx
  · exact hx

/-- Both tag words of a block of the heap. -/
theorem Rep.tagWords {h : Heap} {bs : List Blk} (hr : Rep h bs) {x : Nat × Blk}
    (hx : x ∈ cells (firstBlkp h) bs) :
    h.word (hdrp x.1) = tag x.2 ∧ h.word (ftrAt h x.1) = tag x.2 := by
  have hx' : x ∈ (h.heapListp, prologue) :: cells (firstBlkp h) bs := List.mem_cons_of_mem _ hx
  have hhead : h.word (hdrp x.1) = tag x.2 := by
    rw [(hr.reads (List.mem_cons_of_mem _ hx)).1]
    exact (hr.block hx).header
  exact ⟨hhead, (hr.wellFormed.footers x hx').trans hhead⟩

/-- The blocks that `release` leaves, with their addresses. -/
theorem cells_release (o : Nat) (L : List Blk) (n : Nat) (R : List Blk) :
    ∃ a d, Before (cells o L) (cells o (joinLeft L (joinRight n R).1).1) (o + span L)
        (o + span (joinLeft L (joinRight n R).1).1) a ∧
      After (cells (o + span L + n) R) (cells (o + span L + n + d) (joinRight n R).2) d ∧
      cells o (release L n R) = cells o (joinLeft L (joinRight n R).1).1
        ++ (o + span (joinLeft L (joinRight n R).1).1, ⟨a + n + d, false⟩)
          :: cells (o + span L + n + d) (joinRight n R).2 := by
  obtain ⟨d, hafter, hd⟩ := after_joinRight (o + span L + n) n R
  obtain ⟨a, hbefore, ha⟩ := before_joinLeft o L (joinRight n R).1
  have hspan := span_joinLeft L (joinRight n R).1
  have hsize : (joinLeft L (joinRight n R).1).2 = a + n + d := by omega
  have hend : o + span (joinLeft L (joinRight n R).1).1 + (a + n + d) = o + span L + n + d := by
    omega
  refine ⟨a, d, hbefore, hafter, ?_⟩
  rw [release, cells_append, cells_cons, hsize, hend]

/-- A block list with `release` is the heap walk with the block merged. -/
theorem Rep.mergesTo {h h' : Heap} {L R : List Blk} {n a e : Nat}
    (hr : Rep h (L ++ ⟨n, true⟩ :: R)) (hr' : Rep h' (release L n R)) (hE : Edits a e h h') :
    ∃ L' m R', MergesTo h (cells (firstBlkp h) L) (firstBlkp h + span L) n
      (cells (firstBlkp h + span L + n) R) L' (mergedPtr h L n R) m R' h' := by
  obtain ⟨a, d, hbefore, hafter, hlist⟩ := cells_release (firstBlkp h) L n R
  have hwalk := hr'.blocks hE.start
  have hbase : firstBlkp h' = firstBlkp h := congrArg (· + 16) hE.start
  have hnew : ∀ x ∈ cells (firstBlkp h) (release L n R),
      h'.word (hdrp x.1) = tag x.2 ∧ h'.word (ftrAt h' x.1) = tag x.2 := by
    rw [← hbase]
    exact fun x hx => hr'.tagWords hx
  rw [hlist] at hwalk hnew
  refine ⟨_, a + n + d, _, ⟨a, d, hbefore, hafter, rfl⟩, hwalk, ?_, ?_, hE.brk, hE.listp⟩
  · have htags := hnew (mergedPtr h L n R, ⟨a + n + d, false⟩)
      (List.mem_append_right _ List.mem_cons_self)
    rw [pack_zero]
    simpa using htags
  · intro x hx
    -- the block was there before, and it is there now
    have hold : x ∈ cells (firstBlkp h) (L ++ ⟨n, true⟩ :: R) := by
      rw [cells_append, cells_cons]
      rcases List.mem_append.mp hx with hx | hx
      · exact List.mem_append_left _ (hbefore.subset hx)
      · exact List.mem_append_right _ (List.mem_cons_of_mem _ (hafter.subset hx))
    obtain ⟨h1, h2⟩ := hr.tagWords hold
    obtain ⟨h3, h4⟩ := hnew x (by
      rcases List.mem_append.mp hx with hx | hx
      · exact List.mem_append_left _ hx
      · exact List.mem_append_right _ (List.mem_cons_of_mem _ hx))
    exact ⟨h3.trans h1.symm, h4.trans h2.symm⟩

/-- **`mm_free` merges.** Every live block of every reachable heap becomes free and is merged
with its free neighbours, and `coalesce` returns the address of the merged block. -/
theorem free_merges {log : List Event} {s : Sys} (hrun : Run (allocator small) log s)
    (hnw : NoWrap log) {L R : List (Nat × Blk)} {p : Nat} {b : Blk}
    (hblocks : Blocks s.heap (L ++ (p, b) :: R)) (hp : s.IsLive p) :
    ∃ L' q m R' h', (mmFree p).out s.heap = some ((), h') ∧
      Logged.out (do
        let size ← getSize (hdrp p)
        put (hdrp p) (pack size 0)
        put (← ftrp p) (pack size 0)
        coalesce p) s.heap = some (q, h') ∧
      MergesTo s.heap L p b.size R L' q m R' h' := by
  obtain ⟨⟨bs, hI⟩, -⟩ := run_inv (fun _ _ => small_sound) hrun hnw
  have hcells : cells (firstBlkp s.heap) bs = L ++ (p, b) :: R := by
    have hsame := hI.rep.heapWalk.symm.trans hblocks
    simpa [prologue] using hsame
  obtain ⟨l, n, -, -, -, hn, -⟩ := hI.isLive hp
  have hmem : (p, b) ∈ cells (firstBlkp s.heap) bs := by rw [hcells]; simp
  -- the block at a live address is the allocated one
  have hb : (p, b) = (p, ⟨n, true⟩) := by
    have hpos := hI.rep.sizes.pos
    have hn' := (mem_allocs.mp hn).1
    exact cell_unique hmem hn' (hpos _ (mem_of_mem_cells hmem)) (hpos _ (mem_of_mem_cells hn')) rfl
  cases hb
  obtain ⟨L, R, rfl, rfl, hq, rfl⟩ := cells_eq_mid hcells
  simp only at hq
  have hbody := freeCoalesce_spec hI.rep hq
  obtain ⟨-, q, h', hout, hr, hmerged, hE⟩ := hbody
  have hfree : (mmFree p).out s.heap = some ((), h') := by
    have hQ : Wp Event.Ok (mmFree p) s.heap (fun _ h'' => ∃ q', q' = q ∧ h'' = h') := by
      refine wp_mmFree ⟨(freeCoalesce_spec hI.rep hq).1, q, h', hout, rfl, rfl⟩
    obtain ⟨-, ⟨⟩, h'', hout', -, -, rfl⟩ := hQ
    exact hout'
  obtain ⟨L', m, R', hto⟩ := hI.rep.mergesTo hr hE
  rw [← hq, ← hmerged] at hto
  exact ⟨L', q, m, R', h', hfree, hout, hto⟩

/-- The block of the sample run lies between two free blocks. -/
theorem free_merges_sample :
    ∃ L' q m R' h', (mmFree 0x1040).out sample.2.heap = some ((), h') ∧
      Logged.out (do
        let size ← getSize (hdrp 0x1040)
        put (hdrp 0x1040) (pack size 0)
        put (← ftrp 0x1040) (pack size 0)
        coalesce 0x1040) sample.2.heap = some (q, h') ∧
      MergesTo sample.2.heap [(0x1010, ⟨48, false⟩)] 0x1040 112 [(0x10b0, ⟨3936, false⟩)]
        L' q m R' h' :=
  free_merges (L := [(0x1010, ⟨48, false⟩)]) (b := ⟨112, true⟩) sample_run sample_noWrap
    (by decide +kernel) (by decide +kernel)

/-! ## Undoing a request -/

/-- **`mm_free` undoes `mm_malloc`.** The block that was just allocated is given back: the blocks
are those of before, with what the heap has grown by as free bytes at the end. -/
theorem free_undoes_malloc {log : List Event} {s : Sys} (hrun : Run (allocator small) log s)
    (hnw : NoWrap log) {size : Nat} (h1 : 1 ≤ size) (hlt : size < 2 ^ 31)
    (hcall : NoWrap ((mmMalloc size).log s.heap)) {p : Nat} {h' : Heap}
    (hout : (mmMalloc size).out s.heap = some (p, h')) (hp : p ≠ NULL) :
    ∃ blocks h'', Blocks s.heap blocks ∧ (mmFree p).out h' = some ((), h'') ∧
      h''.memBrk = h'.memBrk ∧ (h'.memBrk = s.heap.memBrk → Blocks h'' blocks) ∧
      ∀ e, 0 < e → h'.memBrk = s.heap.memBrk + e →
        (∀ L q c, blocks = L ++ [(q, ⟨c, false⟩)] → Blocks h'' (L ++ [(q, ⟨c + e, false⟩)])) ∧
        ∀ L x, blocks = L ++ [x] → x.2.mark = true →
          Blocks h'' (blocks ++ [(s.heap.memBrk, ⟨e, false⟩)]) := by
  obtain ⟨⟨bs, hI⟩, -⟩ := run_inv (fun _ _ => small_sound) hrun hnw
  have hserved := (mmMalloc_spec hI.rep (by omega) hcall).out hout
  rcases hserved with ⟨-, rfl, -⟩ | ⟨o, bs', ha, rfl, hr', hK⟩
  · exact absurd rfl hp
  · have hbase : firstBlkp h' = firstBlkp s.heap := congrArg (· + 16) hK.start
    obtain ⟨n, -, hmem, -⟩ := allocate_allocs ha hI.rep.sizes (firstBlkp s.heap)
    have hcell : (firstBlkp s.heap + o, ⟨n, true⟩) ∈ allocs (firstBlkp h') bs' := by
      rw [hbase]
      exact (hmem _).mpr (Or.inl rfl)
    obtain ⟨-, ⟨⟩, h'', hfree, hr'', hK'⟩ := mmFree_allocated hr' hcell
    rw [hbase, Nat.add_sub_cancel_left] at hr''
    have hext := extension_ge size
    -- what `mm_free` gives back is what first fit took
    have hundo : freeAt o bs' = if (splitFit (requestSize size) bs).isSome then bs
        else release bs (extension size) [] := by
      have hle := requestSize_le_extension size
      have hreq := le_requestSize size
      rw [allocate, if_neg (by omega)] at ha
      exact freeAt_firstFit hle (by omega) (by norm_num) ha hI.coalesced hI.rep.sizes.pos
    have hstart : h''.memStartBrk = s.heap.memStartBrk := hK'.start.trans hK.start
    have hbase' : firstBlkp h'' = firstBlkp s.heap := congrArg (· + 16) hstart
    have hbrk' : h'.memBrk = h''.memBrk := by
      rw [hr'.brk_eq, hr''.brk_eq, span_freeAt, hbase, hbase']
    have hwalk := hr''.blocks hstart
    refine ⟨_, h'', hI.rep.blocks rfl, hfree, hbrk'.symm, ?_⟩
    rw [hbrk', hr''.brk_eq, hbase', hI.rep.brk_eq]
    rw [hundo] at hwalk ⊢
    by_cases hfit : (splitFit (requestSize size) bs).isSome
    · rw [if_pos hfit] at hwalk ⊢
      exact ⟨fun _ => hwalk, fun e he hgrow => by omega⟩
    · rw [if_neg hfit] at hwalk ⊢
      rw [span_release, span_nil]
      refine ⟨fun hsame => by omega, fun e he hgrow => ?_⟩
      obtain rfl : e = extension size := by omega
      refine ⟨fun L q c hL => ?_, fun L x hL hmark => ?_⟩
      · obtain ⟨L, R, rfl, rfl, hq, hR⟩ := cells_eq_mid hL
        obtain rfl : R = [] := cells_eq_nil hR.symm
        simp only at hq
        rw [release_nil, joinLeft_free, Nat.add_comm] at hwalk
        rw [hq]
        simpa using hwalk
      · obtain ⟨L, R, rfl, rfl, hq, hR⟩ := cells_eq_mid hL
        obtain rfl : R = [] := cells_eq_nil hR.symm
        rw [release_nil, joinLeft_alloc hmark] at hwalk
        simpa [Nat.add_assoc] using hwalk

/-- 100 bytes, and back. -/
theorem free_undoes_malloc_sample : ∃ p h' blocks h'', (mmMalloc 100).out sample.2.heap = some (p, h') ∧
    Blocks sample.2.heap blocks ∧ (mmFree p).out h' = some ((), h'') ∧ h''.memBrk = h'.memBrk ∧
      (h'.memBrk = sample.2.heap.memBrk → Blocks h'' blocks) := by
  have hsome : ((mmMalloc 100).out sample.2.heap).any (fun r => r.1 ≠ NULL) := by decide +kernel
  obtain ⟨⟨p, h'⟩, hout, hp⟩ := (Option.any_eq_true _ _).mp hsome
  obtain ⟨blocks, h'', hb, hf, hbrk, hsame, -⟩ := free_undoes_malloc sample_run sample_noWrap
    (by decide) (by decide) (by decide +kernel) hout (of_decide_eq_true hp)
  exact ⟨p, h', blocks, h'', hout, hb, hf, hbrk, hsame⟩

end MallocLab
