import MallocLab.Heap.Failure

set_option autoImplicit false

/-! # `mm_free` and `mm_realloc`

Both are given an allocated block by its payload pointer. `mm_realloc` allocates before it
frees, so the old block is still allocated when its bytes are copied, and the copy goes into
a block that `mm_free` does not touch.
-/

namespace MallocLab

open Logged Words Tiling BlockList

/-- Writing into a payload changes no tag. -/
theorem Rep.payload {h h' : Heap} {bs : List Blk} {x : Nat × Blk} (hr : Rep h bs)
    (hx : x ∈ cells (firstBlkp h) bs) (hE : Edits x.1 (x.1 + x.2.size - 8) h h') :
    Rep h' bs := by
  obtain ⟨L, R, rfl, ho⟩ := cell_split hx
  obtain ⟨-, h8, h16, hlo, -, hhead, hfoot⟩ := hr.block hx
  have hr' : Rep h (L ++ [x.2] ++ R) := by simpa using hr
  refine hr'.merge (hE.mono (by omega) ?_) (by simp) h16 ?_ ?_
  · rw [← ho, span_cons, span_nil]
    omega
  · rw [← ho, ← hhead]
    exact hE.word (Or.inl (by omega))
  · rw [← ho, ← hfoot]
    exact hE.word (Or.inr (by omega))

/-- An allocated block of a represented heap. -/
theorem Rep.allocated {h : Heap} {bs : List Blk} {p n : Nat} (hr : Rep h bs)
    (hp : (p, ⟨n, true⟩) ∈ allocs (firstBlkp h) bs) :
    ∃ L R, bs = L ++ ⟨n, true⟩ :: R ∧ p = firstBlkp h + span L ∧
      freeAt (p - firstBlkp h) bs = release L n R := by
  obtain ⟨L, R, rfl, rfl⟩ := cell_split (mem_allocs.mp hp).1
  refine ⟨L, R, rfl, rfl, ?_⟩
  rw [Nat.add_sub_cancel_left]
  exact freeAt_mid (fun c hc => hr.sizes.pos c (List.mem_append_left _ hc))

/-- **`mm_free`** of an allocated block: the block list without it, merged, and the payloads
of all others kept. -/
theorem mmFree_allocated {h : Heap} {bs : List Blk} {p n : Nat} (hr : Rep h bs)
    (hp : (p, ⟨n, true⟩) ∈ allocs (firstBlkp h) bs) :
    Wp Event.Ok (mmFree p) h (fun _ h' => Rep h' (freeAt (p - firstBlkp h) bs) ∧
      Keeps (allocs (firstBlkp h) (freeAt (p - firstBlkp h) bs)) h h') := by
  obtain ⟨L, R, rfl, rfl, hfree⟩ := hr.allocated hp
  rw [hfree]
  refine (mmFree_spec hr rfl).mono (fun _ h' hpost => ⟨hpost.1, ?_⟩)
  have hspan := span_joinLeft L (joinRight n R).1
  have hfirst : 16 ≤ firstBlkp h := by unfold firstBlkp; omega
  refine hpost.2.keeps_free ?_ ?_
  · unfold mergedPtr
    omega
  · unfold mergedEnd
    omega

/-! ## `mm_realloc` -/

/-- What `mm_realloc` of the block `(p, n)` leaves: everything as it was, or the list of
`allocate` without the old block, the payloads of the others kept, and the first bytes copied. -/
def Moved (h : Heap) (bs : List Blk) (p n size q : Nat) (h' : Heap) : Prop :=
  (allocate size bs = none ∧ q = NULL ∧ h' = h) ∨
    ∃ o bs', allocate size bs = some (o, bs') ∧ q = firstBlkp h + o ∧
      Rep h' (freeAt (p - firstBlkp h) bs') ∧
      Keeps ((allocs (firstBlkp h) bs).filter (·.1 ≠ p)) h h' ∧
      ∀ i, i < size → i + 8 < n → h'.mem (q + i) = h.mem (p + i)

/-- The header of an allocated block gives its capacity. -/
theorem Rep.capacity {h : Heap} {bs : List Blk} {p n : Nat} (hr : Rep h bs)
    (hp : (p, ⟨n, true⟩) ∈ allocs (firstBlkp h) bs) :
    sizeField (h.word (p - 4)) = n ∧ MallocLab.capacity h p = n - 8 := by
  obtain ⟨hal, h8, h16, hlo, hup, hhead, -⟩ := hr.block (mem_allocs.mp hp).1
  have hlt := hr.brk_lt
  simp only [tag_alloc] at hal h8 h16 hlo hup hhead
  have hn : sizeField (h.word (p - 4)) = n := by rw [hhead, sizeField_alloc h8 (by omega)]
  refine ⟨hn, ?_⟩
  rw [MallocLab.capacity, hdrp, WSIZE, sub32_eq (by omega) (by omega), hn, DSIZE]

/-- The part of `mm_realloc` after the allocation. -/
theorem copy_free_spec {h : Heap} {bs : List Blk} {p n q s size : Nat} (hr : Rep h bs)
    (hp : (p, ⟨n, true⟩) ∈ allocs (firstBlkp h) bs) (hq : (q, ⟨s, true⟩) ∈ allocs (firstBlkp h) bs)
    (hpq : p ≠ q) (hs : size + 8 ≤ s) :
    Wp Event.Ok (do
      let copySize := sub32 (← getSize (hdrp p)) DSIZE
      let copySize := if size < copySize then size else copySize
      memcpy q p copySize
      mmFree p
      return q) h (fun r h' => r = q ∧ Rep h' (freeAt (p - firstBlkp h) bs) ∧
        Keeps ((allocs (firstBlkp h) bs).filter (fun x => x.1 ≠ p ∧ x.1 ≠ q)) h h' ∧
        ∀ i, i < size → i + 8 < n → h'.mem (q + i) = h.mem (p + i)) := by
  obtain ⟨hhead, hcapp⟩ := hr.capacity hp
  have hcapq := (hr.capacity hq).2
  obtain ⟨hpal, hn8, hn16, hplo, hpup, -, -⟩ := hr.block (mem_allocs.mp hp).1
  have hlt := hr.brk_lt
  simp only at hpal hn8 hn16 hplo hpup
  have hhdr : hdrp p = p - 4 := sub32_eq (by unfold WSIZE; omega) (by omega)
  have hcopy : sub32 n DSIZE = n - 8 := sub32_eq (by unfold DSIZE; omega) (by omega)
  have hapart : q + s ≤ p ∨ p + n ≤ q :=
    cells_apart_of_ne (mem_allocs.mp hq).1 (mem_allocs.mp hp).1 hpq.symm
  simp only [wp_bind, wp_getSize, wp_memcpy, wp_pure, hhdr, hhead, hcopy, hcapp, hcapq]
  generalize hc : (if size < n - 8 then size else n - 8) = c
  have hcs : c ≤ size ∧ c ≤ n - 8 ∧ ∀ i, i < size → i + 8 < n → i < c := by
    rw [← hc]
    split <;> refine ⟨by omega, by omega, fun i _ _ => by omega⟩
  refine ⟨⟨by omega, by omega, by omega⟩, ⟨by omega, by omega, by omega⟩, ?_⟩
  -- the copy stays inside the payload of `q`, the free inside the block at `p`
  generalize hg : ({ h with mem := patch h.mem q c (fun i => h.mem (p + i)) } : Heap) = g
  have hE : Edits q (q + c) h g := by
    rw [← hg]
    exact ⟨rfl, rfl, rfl, rfl, agreeOff_patch h.mem q c (fun i => h.mem (p + i))⟩
  have hbase : firstBlkp g = firstBlkp h := congrArg (· + 16) hE.start
  have hrg : Rep g bs := hr.payload (mem_allocs.mp hq).1
    (hE.mono (Nat.le_refl _) (by simp only; omega))
  have hfree := mmFree_allocated hrg (hbase ▸ hp)
  rw [hbase] at hfree
  refine hfree.mono (fun _ h' hpost => ⟨trivial, hpost.1, ?_, fun i hi hin => ?_⟩)
  · refine Keeps.trans (hE.keeps (fun x hx => ?_)) (hpost.2.mono (fun x hx => ?_)) <;>
      obtain ⟨hx, hne⟩ := List.mem_filter.mp hx <;> simp only [decide_eq_true_eq] at hne
    · rcases cells_apart_of_ne (mem_allocs.mp hx).1 (mem_allocs.mp hq).1 hne.2 with hle | hle
      · exact Or.inl (by omega)
      · exact Or.inr (by simp only at hle; omega)
    · exact (mem_freeAt hr.sizes.pos hp x).mpr ⟨hx, hne.1⟩
  · have hq' := (mem_freeAt hr.sizes.pos hp (q, ⟨s, true⟩)).mpr ⟨hq, hpq.symm⟩
    have hic := hcs.2.2 i hi hin
    have hback : q + i - q = i := by omega
    rw [hpost.2.mem _ hq' (q + i) (by simp only; omega) (by simp only; omega), ← hg]
    show patch h.mem q c (fun i => h.mem (p + i)) (q + i) = h.mem (p + i)
    rw [patch_in (by omega), hback]

/-- **`mm_realloc`** of an allocated block, given what `mm_malloc` does with the size. -/
theorem mmRealloc_spec {h : Heap} {bs : List Blk} {p n size : Nat} (hr : Rep h bs)
    (hp : (p, ⟨n, true⟩) ∈ allocs (firstBlkp h) bs) (h1 : 1 ≤ size)
    (hmalloc : Rely Event.NoWrap Event.Ok (mmMalloc size) h (Served h bs size)) :
    Rely Event.NoWrap Event.Ok (mmRealloc p size) h (Moved h bs p n size) := by
  have hp0 : p ≠ NULL := ne_null_of_mem_allocs hp
  rw [mmRealloc, if_neg (by omega), if_neg hp0]
  apply hmalloc.bind
  rintro q h1 (⟨hnone, rfl, rfl⟩ | ⟨o, bs', ha, rfl, hr', hK⟩)
  · rw [if_pos rfl]
    exact Rely.pure (Or.inl ⟨hnone, rfl, rfl⟩)
  · -- the old block is still allocated when `mm_malloc` has returned
    have hbase : firstBlkp h1 = firstBlkp h := congrArg (· + 16) hK.start
    have hq0 : firstBlkp h + o ≠ NULL := firstBlkp_add_ne h o
    obtain ⟨s, hs, hmem, hfresh⟩ := allocate_allocs ha hr.sizes (firstBlkp h)
    have hcopy := copy_free_spec hr' (hbase ▸ (hmem _).mpr (Or.inr hp))
      (hbase ▸ (hmem _).mpr (Or.inl rfl)) (hfresh _ hp) hs
    rw [if_neg hq0]
    refine Wp.rely (hcopy.mono ?_)
    rintro r h' ⟨rfl, hrep, hK', hbytes⟩
    rw [hbase] at hrep hK'
    refine Or.inr ⟨o, bs', ha, rfl, hrep, ?_, fun i hi hin => ?_⟩
    · refine (hK.mono (fun x hx => (List.mem_filter.mp hx).1)).trans (hK'.mono (fun x hx => ?_))
      obtain ⟨hx, hne⟩ := List.mem_filter.mp hx
      simp only [decide_eq_true_eq] at hne
      exact List.mem_filter.mpr ⟨(hmem x).mpr (Or.inr hx), by simpa using ⟨hne, hfresh x hx⟩⟩
    · rw [hbytes i hi hin]
      exact hK.mem _ hp (p + i) (by simp only; omega) (by simp only; omega)

/-- A refused `mm_realloc` has changed nothing, whatever the size. -/
theorem mmRealloc_null {h : Heap} {bs : List Blk} {p n size : Nat} (hr : Rep h bs)
    (hp : (p, ⟨n, true⟩) ∈ allocs (firstBlkp h) bs) (h1 : 1 ≤ size) {h' : Heap}
    (hout : (mmRealloc p size).out h = some (NULL, h')) : h' = h := by
  have hp0 : p ≠ NULL := ne_null_of_mem_allocs hp
  rw [mmRealloc, if_neg (by omega), if_neg hp0, out_bind] at hout
  obtain ⟨⟨q, h2⟩, hq, hrest⟩ := Option.bind_eq_some_iff.mp hout
  have hnull := (mmMalloc_null size hr).out hq
  by_cases hq0 : q = NULL
  · rw [if_pos hq0] at hrest
    cases hrest
    exact hnull hq0
  · -- every run that goes on returns `q`
    rw [if_neg hq0] at hrest
    simp only [out_bind] at hrest
    obtain ⟨_, -, hrest⟩ := Option.bind_eq_some_iff.mp hrest
    obtain ⟨_, -, hrest⟩ := Option.bind_eq_some_iff.mp hrest
    obtain ⟨_, -, hrest⟩ := Option.bind_eq_some_iff.mp hrest
    cases hrest
    exact absurd rfl hq0

end MallocLab
