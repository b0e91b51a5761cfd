import MallocLab.Client.Safety

set_option autoImplicit false

/-! # The cases of `mm_realloc`

The documented law of `mm_realloc` in terms of `mm_malloc` and `mm_free`, for every pointer a
client may give and every size. The code tests `size == 0` before `bp == NULL`, so of the two
special cases at once it takes the wrong one: `mm_realloc(NULL, 0)` frees `NULL` and reads the
word before address 0. Everywhere else the law holds (`reallocLaw_iff`).
-/

namespace MallocLab

open Logged Words Tiling BlockList

/-- `mm_malloc(size)` fails, and `mm_realloc(p, size)` returns `NULL` with the heap as it was. -/
def ReallocFails (h : Heap) (p size : Nat) : Prop :=
  (mmMalloc size).out h = some (NULL, h) ∧ (mmRealloc p size).out h = some (NULL, h)

/-- `mm_realloc(p, size)` returns another block: the blocks are those of `mm_malloc(size)` and
then `mm_free(p)`, and the bytes of the old block that fit are at the new place. -/
def ReallocMoves (h : Heap) (p size : Nat) : Prop :=
  ∃ q h₁ h₂ h' walk, (mmMalloc size).out h = some (q, h₁) ∧ q ≠ NULL ∧
    (mmFree p).out h₁ = some ((), h₂) ∧ (mmRealloc p size).out h = some (q, h') ∧ q ≠ p ∧
    heapWalk h' = some walk ∧ heapWalk h₂ = some walk ∧
    ∀ i, i < min size (capacity h p) → h'.mem (q + i) = h.mem (p + i)

/-- **The law of `mm_realloc`**, case by case. -/
structure ReallocLaw (s : Sys) (p size : Nat) : Prop where
  null : p = NULL → ∃ q h', (mmMalloc size).out s.heap = some (q, h') ∧
    (mmRealloc p size).out s.heap = some (q, h')
  inside : p = NULL → ∀ e ∈ (mmRealloc p size).log s.heap, e.Ok
  zero : s.IsLive p → size = 0 → ∃ h', (mmFree p).out s.heap = some ((), h') ∧
    (mmRealloc p size).out s.heap = some (NULL, h')
  moved : s.IsLive p → 1 ≤ size → ReallocFails s.heap p size ∨ ReallocMoves s.heap p size

theorem mmRealloc_zero_out {h h' : Heap} {p : Nat} (hfree : (mmFree p).out h = some ((), h')) :
    (mmRealloc p 0).out h = some (NULL, h') := by
  rw [mmRealloc, if_pos rfl, out_bind, hfree]
  rfl

/-- The events of `mm_malloc` are among those of the `mm_realloc` that calls it. -/
theorem mmRealloc_log {p size : Nat} (hp : p ≠ NULL) (h1 : 1 ≤ size) (h : Heap) :
    ∀ e ∈ (mmMalloc size).log h, e ∈ (mmRealloc p size).log h := by
  intro e he
  rw [mmRealloc, if_neg (by omega), if_neg hp]
  exact mem_log_bind he _

/-- Moving a live block. -/
theorem Inv.realloc_moves {s : Sys} {bs : List Blk} {p size : Nat} (hI : Inv s bs)
    (hp : s.IsLive p) (h1 : 1 ≤ size) (hlt : size < 2 ^ 31)
    (hnw : NoWrap ((mmRealloc p size).log s.heap)) :
    ReallocFails s.heap p size ∨ ReallocMoves s.heap p size := by
  obtain ⟨l, n, hl, rfl, -, hn, -⟩ := hI.isLive hp
  have hp0 := hI.not_null l hl
  have hmalloc : Rely Event.NoWrap Event.Ok (mmMalloc size) s.heap (Served s.heap bs size) :=
    mmMalloc_spec hI.rep (by omega)
  obtain ⟨-, q, h₁, hq, hserved⟩ := hmalloc (fun e he => hnw e (mmRealloc_log hp0 h1 _ e he))
  obtain ⟨-, r, h', hr, hmoved⟩ := mmRealloc_spec hI.rep hn h1 hmalloc hnw
  rcases hserved with ⟨hnone, rfl, rfl⟩ | ⟨o, bs', ha, rfl, hrep₁, hK⟩
  · rcases hmoved with ⟨-, rfl, rfl⟩ | ⟨o, bs', ha, -⟩
    · exact Or.inl ⟨hq, hr⟩
    · rw [ha] at hnone
      cases hnone
  · rcases hmoved with ⟨hnone, -⟩ | ⟨o', bs'', ha', rfl, hrep', hK', hbytes⟩
    · rw [ha] at hnone
      cases hnone
    · rw [ha] at ha'
      cases ha'
      obtain ⟨m, -, hmem, hfresh⟩ := allocate_allocs ha hI.rep.sizes (firstBlkp s.heap)
      have hbase : firstBlkp h₁ = firstBlkp s.heap := congrArg (· + 16) hK.start
      -- `mm_free` in the heap that `mm_malloc` leaves
      have hold : (l.ptr, ⟨n, true⟩) ∈ allocs (firstBlkp h₁) bs' := by
        rw [hbase]
        exact (hmem _).mpr (Or.inr hn)
      obtain ⟨-, ⟨⟩, h₂, hfree, hrep₂, hK₂⟩ := mmFree_allocated hrep₁ hold
      rw [hbase] at hrep₂
      have hstart : h₂.memStartBrk = h'.memStartBrk :=
        calc h₂.memStartBrk
          _ = h₁.memStartBrk := hK₂.start
          _ = s.heap.memStartBrk := hK.start
          _ = h'.memStartBrk := hK'.start.symm
      have hne : firstBlkp s.heap + o ≠ NULL := firstBlkp_add_ne s.heap o
      have hcap : MallocLab.capacity s.heap l.ptr = n - 8 := (hI.rep.capacity hn).2
      refine Or.inr ⟨_, h₁, h₂, h', _, hq, hne, hfree, hr, (hfresh _ hn).symm, hrep'.heapWalk,
        ?_, fun i hi => ?_⟩
      · rw [hrep'.heapWalk_eq hrep₂ hstart]
        exact hrep'.heapWalk
      · rw [hcap] at hi
        exact hbytes i (by omega) (by omega)

/-- With `NULL` and 0 the first access is outside the heap. -/
theorem mmRealloc_nullZero (h : Heap) (hbrk : h.memBrk < 2 ^ 32) :
    ∃ e ∈ (mmRealloc NULL 0).log h, ¬e.Ok := by
  refine ⟨.get (hdrp NULL) h.memStartBrk h.memBrk, ?_, ?_⟩
  · have hget : ∀ p, .get p h.memStartBrk h.memBrk ∈ (get p).log h := by
      intro p
      rw [get]
      exact mem_log_bind (List.mem_singleton.mpr rfl) _
    have hsize : ∀ p, .get p h.memStartBrk h.memBrk ∈ (getSize p).log h := by
      intro p
      rw [getSize]
      exact mem_log_bind (hget p) _
    rw [mmRealloc, if_pos rfl, mmFree]
    exact mem_log_bind (mem_log_bind (hsize _) _) _
  · rintro ⟨-, -, hle⟩
    have hhdr : hdrp NULL = 2 ^ 32 - 4 := by decide
    rw [hhdr] at hle
    omega

/-- **When the law holds.** In every heap that a run reaches, for `NULL` and for every live
pointer, the law holds unless the pointer is `NULL` and the size is 0. -/
theorem reallocLaw_iff {log : List Event} {s : Sys} (hrun : Run (allocator small) log s)
    (hnw : NoWrap log) {p size : Nat} (hp : p = NULL ∨ s.IsLive p) (hlt : size < 2 ^ 31)
    (hcall : NoWrap ((mmRealloc p size).log s.heap)) :
    ReallocLaw s p size ↔ ¬(p = NULL ∧ size = 0) := by
  obtain ⟨⟨bs, hI⟩, -⟩ := run_inv (fun _ _ => small_sound) hrun hnw
  constructor
  · rintro hlaw ⟨rfl, rfl⟩
    obtain ⟨e, he, hbad⟩ := mmRealloc_nullZero s.heap hI.rep.brk_lt
    exact hbad (hlaw.inside rfl e he)
  · intro hne
    have hlive : s.IsLive p → p ≠ NULL := by
      rintro ⟨l, hl, rfl⟩
      exact hI.not_null l hl
    -- with `NULL` the size is at least 1
    have hnull : p = NULL → mmRealloc p size = mmMalloc size ∧
        Wp Event.Ok (mmMalloc size) s.heap (Served s.heap bs size) := by
      rintro rfl
      have h0 : size ≠ 0 := fun h0 => hne ⟨rfl, h0⟩
      have hm : mmRealloc NULL size = mmMalloc size := by rw [mmRealloc, if_neg h0, if_pos rfl]
      rw [hm] at hcall
      exact ⟨hm, mmMalloc_spec hI.rep (by omega) hcall⟩
    refine ⟨fun h0 => ?_, fun h0 => ?_, fun hp h0 => ?_, fun hp h1 => ?_⟩
    · obtain ⟨hm, -, q, h', hout, -⟩ := hnull h0
      rw [hm]
      exact ⟨q, h', hout, hout⟩
    · obtain ⟨hm, hok, -⟩ := hnull h0
      rw [hm]
      exact hok
    · obtain ⟨l, n, -, -, -, hn, -⟩ := hI.isLive hp
      obtain ⟨-, ⟨⟩, h', hfree, -⟩ := mmFree_allocated hI.rep hn
      rw [h0]
      exact ⟨h', hfree, mmRealloc_zero_out hfree⟩
    · exact hI.realloc_moves hp h1 hlt hcall

theorem reallocLaw_iff_sample : ReallocLaw sample.2 0x1040 60 ↔ ¬(0x1040 = NULL ∧ 60 = 0) :=
  reallocLaw_iff sample_run sample_noWrap (by decide +kernel) (by decide) (by decide +kernel)

/-- `mm_realloc(NULL, 0)` in the sample heap. -/
theorem reallocLaw_fails : Run (allocator small) sample.1 sample.2 ∧ NoWrap sample.1 ∧
    NoWrap ((mmRealloc NULL 0).log sample.2.heap) ∧ ¬ReallocLaw sample.2 NULL 0 := by
  refine ⟨sample_run, sample_noWrap, by decide +kernel, fun hlaw => ?_⟩
  have hbrk : sample.2.heap.memBrk < 2 ^ 32 := by decide +kernel
  obtain ⟨e, he, hbad⟩ := mmRealloc_nullZero sample.2.heap hbrk
  exact hbad (hlaw.inside rfl e he)

end MallocLab
