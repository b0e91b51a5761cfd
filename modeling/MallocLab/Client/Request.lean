import MallocLab.Client.Invariant

set_option autoImplicit false

/-! # Every size

The sizes from `2^31` on are not in the traces, and the top ones wrap around in the roundings of
`mm_malloc` and `extend_heap`. `sound` says exactly for which sizes `mm_malloc` is right, in any
heap that such calls reach. A request that returns `NULL` changes nothing, for every size.
-/

namespace MallocLab

open Logged Words Tiling BlockList

/-- `mm_malloc(size)` is right in the heap `h`: it returns `NULL` or an allocated block with
room for `size` bytes, and leaves an intact heap. -/
def MallocRight (h : Heap) (size : Nat) : Prop :=
  Returns (mmMalloc size) h (fun p h' => ∃ blocks, WellFormed h' blocks ∧
    (p = NULL ∨ ∃ b, (p, b) ∈ blocks ∧ b.mark = true ∧ size ≤ b.size - 8))

/-- No intact heap has a block with room for `2^32 - 23` bytes. -/
theorem WellFormed.block_small {h : Heap} {blocks : List (Nat × Blk)} (hw : WellFormed h blocks)
    {x : Nat × Blk} (hx : x ∈ blocks) : x.2.size - 8 < 2 ^ 32 - 23 := by
  have hle : x.2.size ≤ (blocks.map (·.2.size)).sum := List.le_sum_of_mem (List.mem_map_of_mem hx)
  have hheap := hw.heapsize
  have hlt : memHeapsize h < 2 ^ 32 := Nat.mod_lt _ (by norm_num)
  omega

/-- A sound size is served rightly. -/
theorem mallocRight_of_sound {h : Heap} {bs : List Blk} {size : Nat} (hr : Rep h bs)
    (hlt : size < 2 ^ 32) (hs : sound h size) (hnw : NoWrap ((mmMalloc size).log h)) :
    MallocRight h size := by
  obtain ⟨-, p, h', hout, hserved⟩ := hr.sizes_sound hlt hs hnw
  refine ⟨fun _ _ => trivial, p, h', hout, ?_⟩
  rcases hserved with ⟨-, rfl, rfl⟩ | ⟨o, bs', ha, rfl, hr', hK⟩
  · exact ⟨_, hr.wellFormed, Or.inl rfl⟩
  · have hbase : firstBlkp h' = firstBlkp h := congrArg (· + 16) hK.start
    obtain ⟨n, hn, hmem, -⟩ := allocate_allocs ha hr.sizes (firstBlkp h)
    obtain ⟨hcell, hmark⟩ := mem_allocs.mp ((hmem _).mpr (Or.inl rfl))
    refine ⟨_, hr'.wellFormed, Or.inr ⟨⟨n, true⟩, ?_, hmark, ?_⟩⟩
    · rw [hbase]
      exact hcell
    · show size ≤ n - 8
      omega

/-- Any other size is served with a block that is too small, or with none at all. -/
theorem sound_of_mallocRight {h : Heap} {bs : List Blk} {size : Nat} (hr : Rep h bs)
    (hlt : size < 2 ^ 32) (hright : MallocRight h size) : sound h size := by
  by_contra hs
  -- only sizes whose adjustment wraps around are left
  have hlo : 2 ^ 32 - 23 ≤ size := by
    by_contra hsmall
    exact hs (Or.inl (by omega))
  have hroom : 2 ^ 32 - 15 ≤ size →
      (∃ b ∈ bs, b.mark = false) ∨ h.memBrk + 4096 ≤ h.memMaxAddr := by
    intro hwrap
    by_contra hno
    obtain ⟨hfull, hmax⟩ := not_or.mp hno
    refine hs (Or.inr ⟨hwrap, hr.heapFull_iff.mpr (fun b hb => ?_), Nat.not_le.mp hmax⟩)
    by_contra hfree
    exact hfull ⟨b, hb, by simpa using hfree⟩
  obtain ⟨-, p, h', hout, blocks, hw, hp⟩ := hright
  have hnull : p ≠ NULL := Wp.out (mmMalloc_wrapped hr hlo hlt hroom) hout
  rcases hp with hp | ⟨b, hb, -, hsize⟩
  · exact hnull hp
  · have := hw.block_small hb
    simp only at this
    omega

/-- **When `mm_malloc` is right.** In every heap that calls with sound sizes reach, `mm_malloc`
is right for exactly the sound sizes. -/
theorem mallocRight_iff {log : List Event} {s : Sys} (hrun : Run (allocator sound) log s)
    (hnw : NoWrap log) {size : Nat} (hlt : size < 2 ^ 32)
    (hcall : NoWrap ((mmMalloc size).log s.heap)) :
    MallocRight s.heap size ↔ sound s.heap size := by
  obtain ⟨⟨bs, hI⟩, -⟩ := run_inv (fun _ _ => id) hrun hnw
  exact ⟨sound_of_mallocRight hI.rep hlt, fun hs => mallocRight_of_sound hI.rep hlt hs hcall⟩

theorem sample_sound : Run (allocator sound) sample.1 sample.2 := by
  refine sample_run.mono (fun _ _ h => h) (fun s c hc => ?_) rfl
  cases c with
  | malloc size => exact ⟨hc.1, small_sound hc.2⟩
  | free p => exact hc
  | realloc p size => exact ⟨hc.1, small_sound hc.2.1, hc.2.2⟩
  | write p f => exact hc

theorem mallocRight_iff_sample : MallocRight sample.2.heap 100 ↔ sound sample.2.heap 100 :=
  mallocRight_iff sample_sound sample_noWrap (by decide) (by decide +kernel)

/-- `size + DSIZE + (DSIZE-1)` wraps around for `2^32 - 1`: the block has no room at all. -/
theorem mallocRight_fails : Run (allocator sound) sample.1 sample.2 ∧ NoWrap sample.1 ∧
    NoWrap ((mmMalloc (2 ^ 32 - 1)).log sample.2.heap) ∧
      ¬MallocRight sample.2.heap (2 ^ 32 - 1) := by
  refine ⟨sample_sound, sample_noWrap, by decide +kernel, ?_⟩
  rintro ⟨-, p, h', hout, blocks, hw, hp⟩
  have hnull : (((mmMalloc (2 ^ 32 - 1)).out sample.2.heap).map (·.1)) ≠ some NULL := by
    decide +kernel
  rw [hout] at hnull
  rcases hp with rfl | ⟨b, hb, -, hsize⟩
  · exact hnull rfl
  · have := hw.block_small hb
    simp only at this
    omega

/-! ## Failure -/

theorem call_malloc_out (s : Sys) (size : Nat) :
    (call (.malloc size)).out s = ((mmMalloc size).out s.heap).map
      (fun r => (r.1, (s.setHeap r.2).malloced r.1 size)) := by
  rw [call, out_bind]
  show (((mmMalloc size).out s.heap).map _).bind _ = _
  cases (mmMalloc size).out s.heap with
  | none => rfl
  | some r => rfl

theorem call_realloc_out (s : Sys) (p size : Nat) :
    (call (.realloc p size)).out s = ((mmRealloc p size).out s.heap).map
      (fun r => (r.1, (s.setHeap r.2).realloced p size r.1)) := by
  rw [call, out_bind]
  show (((mmRealloc p size).out s.heap).map _).bind _ = _
  cases (mmRealloc p size).out s.heap with
  | none => rfl
  | some r => rfl

/-- **Failed requests.** A request of any size that returns `NULL` leaves the whole state as it
was. -/
theorem failed_request_keeps {log : List Event} {s : Sys} (hrun : Run (allocator sound) log s)
    (hnw : NoWrap log) (size : Nat) :
    (∀ s', (call (.malloc size)).out s = some (NULL, s') → s' = s) ∧
      ∀ p s', s.IsLive p ∨ p = NULL → 1 ≤ size →
        (call (.realloc p size)).out s = some (NULL, s') → s' = s := by
  obtain ⟨⟨bs, hI⟩, -⟩ := run_inv (fun _ _ => id) hrun hnw
  have hmalloc : ∀ h', (mmMalloc size).out s.heap = some (NULL, h') → h' = s.heap :=
    fun h' hout => Wp.out (mmMalloc_null size hI.rep) hout rfl
  refine ⟨?_, ?_⟩
  · intro s' hout
    rw [call_malloc_out] at hout
    obtain ⟨⟨p, h'⟩, hm, heq⟩ := Option.map_eq_some_iff.mp hout
    cases heq
    rw [hmalloc h' hm]
    rfl
  · intro p s' hp h1 hout
    rw [call_realloc_out] at hout
    obtain ⟨⟨q, h'⟩, hm, heq⟩ := Option.map_eq_some_iff.mp hout
    cases heq
    -- a live block is not touched before `mm_malloc` has succeeded
    have hsame : h' = s.heap := by
      rcases hp with hp | rfl
      · obtain ⟨-, n, -, -, -, hn, -⟩ := hI.isLive hp
        exact mmRealloc_null hI.rep hn h1 hm
      · rw [mmRealloc, if_neg (by omega), if_pos rfl] at hm
        exact hmalloc h' hm
    subst hsame
    show s.realloced p size NULL = s
    rw [Sys.realloced, if_neg (by omega), if_pos rfl]

/-- The sample heap has no room for `2^31` bytes. -/
theorem failed_request_keeps_sample :
    (call (.malloc (2 ^ 31))).out sample.2 = some (NULL, sample.2) := by
  have hnull : ((call (.malloc (2 ^ 31))).out sample.2).map (·.1) = some NULL := by decide +kernel
  obtain ⟨⟨p, s'⟩, hout, hp⟩ := Option.map_eq_some_iff.mp hnull
  simp only at hp
  subst hp
  rw [hout, (failed_request_keeps sample_sound sample_noWrap (2 ^ 31)).1 s' hout]

end MallocLab
