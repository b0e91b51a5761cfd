import MallocLab.Client.Invariant

set_option autoImplicit false

/-! # Safety of all runs

What the invariant means for a client and for the raw words of the heap, in every state that a
run reaches: live payloads are apart from each other and from every tag, the heap walk is
intact, the bytes the client wrote are kept, free neighbours are merged, and no access
leaves the heap.
-/

namespace MallocLab

open Logged Words Tiling BlockList

/-- The address `y` lies in the payload `[p, p + size)` that was asked for. -/
def Live.Covers (l : Live) (y : Nat) : Prop := l.ptr ≤ y ∧ y < l.ptr + l.size

/-- The addresses of the header and footer words of the blocks, and of the epilogue word. -/
def tagWords (h : Heap) (blocks : List (Nat × Blk)) : List Nat :=
  blocks.flatMap (fun x => [hdrp x.1, ftrAt h x.1]) ++ [hdrp h.memBrk]

/-! ## Live blocks -/

theorem Inv.isLive_iff {s : Sys} {bs : List Blk} (hI : Inv s bs) (p : Nat) :
    s.IsLive p ↔ ∃ b, (p, b) ∈ cells (firstBlkp s.heap) bs ∧ b.mark = true := by
  constructor
  · intro hp
    obtain ⟨-, n, -, -, -, hn, -⟩ := hI.isLive hp
    exact ⟨⟨n, true⟩, mem_allocs.mp hn⟩
  · rintro ⟨b, hb⟩
    exact hI.owns.owned (p, b) (mem_allocs.mpr hb)

/-- The block of a live pointer, with the bounds of its payload. -/
theorem Inv.payload {s : Sys} {bs : List Blk} {l : Live} (hI : Inv s bs) (hl : l ∈ s.live) :
    ∃ n, (l.ptr, ⟨n, true⟩) ∈ cells (firstBlkp s.heap) bs ∧ l.size + 8 ≤ n ∧ l.ptr % 8 = 0 ∧
      s.heap.memStartBrk + 16 ≤ l.ptr ∧ l.ptr + n ≤ s.heap.memBrk := by
  obtain ⟨-, n, hn, hle⟩ := hI.owns.room l hl
  have hcell := (mem_allocs.mp hn).1
  obtain ⟨hal, -, -, hlo, hup, -, -⟩ := hI.rep.block hcell
  exact ⟨n, hcell, hle, hal, hlo, hup⟩

theorem Inv.apart {s : Sys} {bs : List Blk} (hI : Inv s bs) :
    s.live.Pairwise (fun k l => ∀ y, k.Covers y → ¬l.Covers y) := by
  have hne : s.live.Pairwise (fun k l => k.ptr ≠ l.ptr) := List.pairwise_map.mp hI.owns.nodup
  refine hne.imp_of_mem (fun {k l} hk hl hkl y hyk hyl => ?_)
  obtain ⟨m, hm, hkm, -⟩ := hI.payload hk
  obtain ⟨n, hn, hln, -⟩ := hI.payload hl
  unfold Live.Covers at hyk hyl
  rcases cells_apart_of_ne hm hn hkl with hle | hle
  · simp only at hle
    omega
  · simp only at hle
    omega

/-- The live payloads lie in different blocks, so together they are no larger than all blocks. -/
theorem Inv.sum_le {s : Sys} {bs : List Blk} (hI : Inv s bs) :
    (s.live.map Live.size).sum ≤ span bs := by
  -- the cell of a live block
  let cell : Live → Nat × Blk := fun l => (l.ptr, ⟨sizeAt s.heap l.ptr, true⟩)
  have hcell : ∀ l ∈ s.live, cell l ∈ allocs (firstBlkp s.heap) bs ∧ l.size ≤ (cell l).2.size := by
    intro l hl
    obtain ⟨-, n, hn, hle⟩ := hI.owns.room l hl
    have hsize := (hI.rep.reads (List.mem_cons_of_mem _ (mem_allocs.mp hn).1)).2.1
    simp only at hsize
    refine ⟨?_, ?_⟩
    · show (l.ptr, (⟨sizeAt s.heap l.ptr, true⟩ : Blk)) ∈ _
      rw [hsize]
      exact hn
    · show l.size ≤ sizeAt s.heap l.ptr
      omega
  have hnd : (s.live.map cell).Nodup := by
    apply List.Nodup.of_map Prod.fst
    rw [List.map_map]
    exact hI.owns.nodup
  have hsub : s.live.map cell ⊆ allocs (firstBlkp s.heap) bs := by
    intro x hx
    obtain ⟨l, hl, rfl⟩ := List.mem_map.mp hx
    exact (hcell l hl).1
  obtain ⟨xs, hperm, hxs⟩ := List.subperm_of_subset hnd hsub
  have hcells : xs.Sublist (cells (firstBlkp s.heap) bs) := hxs.trans List.filter_sublist
  calc (s.live.map Live.size).sum
      ≤ (s.live.map (fun l => (cell l).2.size)).sum :=
        List.sum_le_sum (fun l hl => (hcell l hl).2)
    _ = (xs.map (·.2.size)).sum := by
        rw [(hperm.map _).sum_eq, List.map_map]
        rfl
    _ ≤ ((cells (firstBlkp s.heap) bs).map (·.2.size)).sum :=
        (hcells.map _).sum_le_sum (fun _ _ => Nat.zero_le _)
    _ = span bs := sum_cells _ _

/-- No tag word of the heap touches a live payload. -/
theorem Inv.off_tags {s : Sys} {bs : List Blk} {l : Live} (hI : Inv s bs) (hl : l ∈ s.live) :
    ∀ w ∈ tagWords s.heap (cells (s.heap.memStartBrk + 8) (prologue :: bs)),
      ∀ y, l.Covers y → y < w ∨ w + 4 ≤ y := by
  obtain ⟨n, hn, hln, -, hlo, hup⟩ := hI.payload hl
  have hlt := hI.rep.brk_lt
  intro w hw y hy
  unfold Live.Covers at hy
  rcases List.mem_append.mp hw with hw | hw
  · obtain ⟨x, hx, hw⟩ := List.mem_flatMap.mp hw
    obtain ⟨hhdr, hsize, -⟩ := hI.rep.reads hx
    obtain ⟨-, -, hx8⟩ := hI.rep.chain.tags x hx
    have hb := cell_bounds hx
    have hend := hI.rep.chain.ends
    have hftr : ftrAt s.heap x.1 = x.1 + x.2.size - 8 := by
      rw [ftrAt, hsize, add32_eq (by omega), sub32_eq (by unfold DSIZE; omega) (by omega), DSIZE]
    rw [hhdr, hftr] at hw
    have hw' : w = x.1 - 4 ∨ w = x.1 + x.2.size - 8 := by simpa using hw
    -- the block of `l` itself, or one before or after it
    rcases cells_apart hx (List.mem_cons_of_mem _ hn) with rfl | hle | hle
    · simp only at hw'
      omega
    · simp only at hle
      omega
    · simp only at hle
      omega
  · have hw' : w = s.heap.memBrk - 4 := by
      rw [List.mem_singleton.mp hw, hdrp, WSIZE, sub32_eq (by omega) hlt]
    omega

/-- The live blocks of a state, seen against the heap walk over the prologue and `blocks`. -/
structure LiveApart (s : Sys) (blocks : List (Nat × Blk)) : Prop where
  walk : heapWalk s.heap = some ((s.heap.heapListp, ⟨DSIZE, true⟩) :: blocks, s.heap.memBrk)
  allocated : ∀ p, s.IsLive p ↔ ∃ b, (p, b) ∈ blocks ∧ b.mark = true
  aligned : ∀ l ∈ s.live, l.ptr % 8 = 0
  inside : ∀ l ∈ s.live, ∀ y, l.Covers y → memHeapLo s.heap ≤ y ∧ y ≤ memHeapHi s.heap
  apart : s.live.Pairwise (fun k l => ∀ y, k.Covers y → ¬l.Covers y)
  offTags : ∀ l ∈ s.live, ∀ w ∈ tagWords s.heap ((s.heap.heapListp, ⟨DSIZE, true⟩) :: blocks),
    ∀ y, l.Covers y → y < w ∨ w + 4 ≤ y

/-- **Live blocks.** After every run the live pointers are the payloads of the blocks marked
allocated; they are aligned, inside the heap, apart from each other and from every tag. And
every further call returns. -/
theorem live_blocks_apart {log : List Event} {s : Sys} (hrun : Run (allocator small) log s)
    (hnw : NoWrap log) :
    (∃ blocks, LiveApart s blocks) ∧
      ∀ c, Valid small s c → NoWrap ((call c).log s) → ∃ r s', (call c).out s = some (r, s') := by
  obtain ⟨⟨bs, hI⟩, -⟩ := run_inv (fun _ _ => small_sound) hrun hnw
  refine ⟨⟨cells (firstBlkp s.heap) bs, ?_⟩, fun c => run_returns (fun _ _ => small_sound) hrun hnw⟩
  refine ⟨hI.rep.heapWalk, hI.isLive_iff, ?_, ?_, hI.apart, ?_⟩
  · intro l hl
    obtain ⟨-, -, -, hal, -⟩ := hI.payload hl
    exact hal
  · intro l hl y hy
    obtain ⟨n, -, hln, -, hlo, hup⟩ := hI.payload hl
    have hlt := hI.rep.brk_lt
    unfold Live.Covers at hy
    rw [memHeapLo, memHeapHi, sub32_eq (by omega) hlt]
    omega
  · intro l hl
    rw [hI.rep.listp]
    exact hI.off_tags hl

/-- Three blocks, of which the second is freed and its place taken by a smaller one. -/
def threeCalls : List Call :=
  [.malloc 24, .malloc 100, .malloc 8, .free 0x1030, .malloc 40]

theorem threeCalls_isSome : (exec small sampleHeap threeCalls).isSome := by decide +kernel

def threeLive : List Event × Sys := (exec small sampleHeap threeCalls).get threeCalls_isSome

theorem live_blocks_apart_sample :
    threeLive.2.live.length = 3 ∧ ∃ blocks, LiveApart threeLive.2 blocks := by
  have hrun : Run (allocator small) threeLive.1 threeLive.2 :=
    exec_run sampleHeap_fresh (Option.some_get threeCalls_isSome).symm
  exact ⟨by decide +kernel, (live_blocks_apart hrun (by decide +kernel)).1⟩

/-! ## The heap walk -/

/-- **Intact heap.** After every run the heap walk is well formed. -/
theorem heap_wellFormed {log : List Event} {s : Sys} (hrun : Run (allocator small) log s)
    (hnw : NoWrap log) : ∃ blocks, WellFormed s.heap blocks := by
  obtain ⟨⟨bs, hI⟩, -⟩ := run_inv (fun _ _ => small_sound) hrun hnw
  exact ⟨_, hI.rep.wellFormed⟩

theorem heap_wellFormed_sample : ∃ blocks, WellFormed sample.2.heap blocks :=
  heap_wellFormed sample_run sample_noWrap

/-! ## Coalescing -/

/-- Neighbouring cells are neighbouring blocks. -/
theorem cells_chain {o : Nat} {bs : List Blk} (h : Coalesced bs) :
    (cells o bs).IsChain (fun x y => x.2.mark = true ∨ y.2.mark = true) := by
  induction bs generalizing o with
  | nil => exact List.IsChain.nil
  | cons b bs ih =>
      rw [cells_cons, List.isChain_cons]
      refine ⟨fun y hy => ?_, ih h.tail⟩
      rcases bs with _ | ⟨c, bs⟩
      · cases hy
      · cases hy
        exact (List.isChain_cons_cons.mp h).1

/-- On the heap walk no two neighbouring blocks are free, and with nothing live the heap is one
free block. -/
structure Merged (s : Sys) (blocks : List (Nat × Blk)) : Prop where
  walk : heapWalk s.heap = some ((s.heap.heapListp, ⟨DSIZE, true⟩) :: blocks, s.heap.memBrk)
  neighbours : blocks.IsChain (fun x y => x.2.mark = true ∨ y.2.mark = true)
  empty : s.live = [] →
    blocks = [(s.heap.heapListp + DSIZE, ⟨memHeapsize s.heap - 16, false⟩)]

/-- **Complete coalescing.** After every run all free neighbours are merged. -/
theorem neighbours_merged {log : List Event} {s : Sys} (hrun : Run (allocator small) log s)
    (hnw : NoWrap log) : ∃ blocks, Merged s blocks := by
  obtain ⟨⟨bs, hI⟩, -⟩ := run_inv (fun _ _ => small_sound) hrun hnw
  refine ⟨_, hI.rep.heapWalk, cells_chain hI.coalesced, ?_⟩
  intro hlive
  have hfree : ∀ b ∈ bs, b.mark = false := by
    intro b hb
    by_contra hmark
    obtain ⟨L, R, rfl⟩ := List.append_of_mem hb
    obtain ⟨l, hl, -⟩ := (hI.isLive_iff _).mpr
      ⟨b, cell_mid (firstBlkp s.heap) L b R, by simpa using hmark⟩
    rw [hlive] at hl
    cases hl
  have hsize : memHeapsize s.heap - 16 = span bs := by
    have hheap := hI.rep.wellFormed.heapsize
    rw [sum_cells] at hheap
    omega
  rcases coalesced_free hI.coalesced hfree with hnil | hone
  · exact absurd hnil hI.nonempty
  · rw [hsize, hI.rep.listp, hone]
    rfl

theorem neighbours_merged_sample : ∃ blocks, Merged sample.2 blocks :=
  neighbours_merged sample_run sample_noWrap

/-! ## Data -/

theorem Inv.capacity {s : Sys} {bs : List Blk} {l : Live} (hI : Inv s bs) (hl : l ∈ s.live) :
    ∃ n, (l.ptr, ⟨n, true⟩) ∈ allocs (firstBlkp s.heap) bs ∧ l.size + 8 ≤ n ∧
      MallocLab.capacity s.heap l.ptr = n - 8 := by
  obtain ⟨-, n, hn, hle⟩ := hI.owns.room l hl
  exact ⟨n, hn, hle, (hI.rep.capacity hn).2⟩

/-- What the call `c` from `s` to `s'` with the result `r` does to the bytes of the live blocks:
it keeps the whole payload of every block it is not given, and a block that `mm_realloc` moves
takes its bytes along. -/
structure KeepsData (s : Sys) (c : Call) (r : Nat) (s' : Sys) : Prop where
  others : ∀ l ∈ s.live, c.given ≠ some l.ptr → l.size ≤ capacity s.heap l.ptr ∧
    ∀ i, i < capacity s.heap l.ptr → s'.heap.mem (l.ptr + i) = s.heap.mem (l.ptr + i)
  moved : ∀ l ∈ s.live, ∀ size, c = .realloc l.ptr size → 1 ≤ size → r ≠ NULL →
    ∀ i, i < min l.size size → s'.heap.mem (r + i) = s.heap.mem (l.ptr + i)

/-- **Data integrity.** After every run each byte of a live payload is the last one the client
wrote there, and no call changes a payload that is not its own. -/
theorem data_kept {log : List Event} {s : Sys} (hrun : Run (allocator small) log s)
    (hnw : NoWrap log) :
    (∀ l ∈ s.live, ∀ i v, i < l.size → l.data i = some v → s.heap.mem (l.ptr + i) = v) ∧
      ∀ c, Valid small s c → NoWrap ((call c).log s) →
        ∀ r s', (call c).out s = some (r, s') → KeepsData s c r s' := by
  obtain ⟨⟨bs, hI⟩, -⟩ := run_inv (fun _ _ => small_sound) hrun hnw
  refine ⟨hI.holds, fun c hc hcnw r s' hout => ?_⟩
  have hstep := (call_spec (fun _ _ => small_sound) hI hc hcnw).out hout
  refine ⟨?_, ?_⟩
  · intro l hl hne
    obtain ⟨n, hn, hle, hcap⟩ := hI.capacity hl
    rw [hcap]
    have hother : (l.ptr, ⟨n, true⟩) ∈ MallocLab.others s bs c :=
      List.mem_filter.mpr ⟨hn, decide_eq_true hne⟩
    refine ⟨by omega, fun i hi => ?_⟩
    exact hstep.keeps.mem _ hother (l.ptr + i) (by simp only; omega) (by simp only; omega)
  · rintro l hl size hc h1 h0 i hi
    obtain ⟨n, hn, hle, -⟩ := hI.capacity hl
    exact hstep.copied l.ptr size n hc h1 h0 hn i (by omega) (by omega)

/-- Moving the block of the sample run. -/
theorem data_kept_sample : ∃ r s', (call (.realloc 0x1040 60)).out sample.2 = some (r, s') ∧
    KeepsData sample.2 (.realloc 0x1040 60) r s' := by
  have hsome : ((call (.realloc 0x1040 60)).out sample.2).isSome := by decide +kernel
  obtain ⟨⟨r, s'⟩, hout⟩ := Option.isSome_iff_exists.mp hsome
  exact ⟨r, s', hout, (data_kept sample_run sample_noWrap).2 _ (by decide +kernel)
    (by decide +kernel) r s' hout⟩

/-! ## Accesses -/

/-- **No access outside the heap.** -/
theorem accesses_inside {log : List Event} {s : Sys} (hrun : Run (allocator small) log s)
    (hnw : NoWrap log) : ∀ e ∈ log, e.Ok :=
  (run_inv (fun _ _ => small_sound) hrun hnw).2

theorem accesses_inside_sample : sample.1 ≠ [] ∧ ∀ e ∈ sample.1, e.Ok := by
  refine ⟨?_, accesses_inside sample_run sample_noWrap⟩
  intro hnil
  have hsize : sample.1.length ≠ 0 := by decide +kernel
  exact hsize (congrArg List.length hnil)

end MallocLab
