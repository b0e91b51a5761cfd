import MallocLab.Heap.Malloc

set_option autoImplicit false

/-! # Requests that fail

When a size wraps around, or the pointer sum of `mem_sbrk` does, `extend_heap` works on words
that no block list describes. One thing still holds: it returns `NULL` only from `mem_sbrk`,
since `coalesce` then returns the new block or one before it, and neither is at address 0.
So a request that returns `NULL` has written nothing, whatever its size (`mmMalloc_null`), and
a size that is adjusted to a small block or extends the heap by 0 bytes is never refused
(`mmMalloc_wrapped`).
-/

namespace MallocLab

open Logged Words Tiling BlockList

/-- What holds of every run that returns. -/
abbrev Returns {α : Type} (m : M α) (h : Heap) (Q : α → Heap → Prop) : Prop :=
  Wp (fun _ => True) m h Q

theorem sizeField_mod (w : Nat) (hw : w < 2 ^ 32) : sizeField w % 8 = 0 ∧ sizeField w < 2 ^ 32 := by
  rw [sizeField_eq hw]
  omega

theorem coalesce_ne_null {h : Heap} {bp n : Nat} (h8 : bp % 8 = 0) (hpos : 0 < bp)
    (hlt : bp < 2 ^ 32) (hn8 : n % 8 = 0) (hnlt : n < 2 ^ 32)
    (hhead : sizeField (h.word (bp - 4)) = n) (hnext : h.word (sub32 (add32 bp n) 4) = 1)
    (hprev : sizeField (h.word (bp - 8)) ≠ bp) (hzero : n = 0 → sizeField (h.word (bp - 8)) = 0) :
    Returns (coalesce bp) h (fun p _ => p ≠ NULL) := by
  have hone : allocField 1 = 1 := by decide
  have hsub4 : sub32 bp 4 = bp - 4 := sub32_eq (by omega) hlt
  have hsub8 : sub32 bp 8 = bp - 8 := sub32_eq (by omega) hlt
  have hbp : bp ≠ NULL := by unfold NULL; omega
  simp only [coalesce, wp_bind, wp_prevBlkp, wp_ftrp, wp_nextBlkp, wp_getAlloc, wp_getSize, hdrp,
    WSIZE, DSIZE, true_and, hsub4, hsub8, hhead, hnext, hone]
  generalize allocField _ = a
  by_cases ha : a = 0
  · rw [coalesceCases, if_neg (by simp [ha]), if_neg (by simp [ha]), if_pos ⟨ha, by decide⟩]
    simp only [wp_bind, wp_prevBlkp, wp_ftrp, wp_getSize, wp_put, hdrp, WSIZE, DSIZE, true_and,
      hsub4, hsub8, hhead, pack_zero]
    -- the footer before the block is either kept or, for `n = 0`, written over with 0
    have hfoot : sizeField ((h.setWord (sub32 (add32 bp n) 8) (add32 n (sizeField
        (h.word (sub32 (sub32 bp (sizeField (h.word (bp - 8)))) 4))))).word (bp - 8)) ≠ bp := by
      by_cases hn : n = 0
      · have hk := hzero hn
        subst hn
        have hat : sub32 (add32 bp 0) 8 = bp - 8 := by
          unfold sub32 add32
          omega
        have hself : sub32 bp 0 = bp := sub32_eq (by omega) hlt
        have hz : sizeField (add32 0 0) = 0 := by decide
        rw [hat, hk, hself, hsub4, hhead, word_setWord (by decide), hz]
        omega
      · rw [word_setWord_ne (by unfold sub32 add32; omega)]
        exact hprev
    generalize h.setWord (sub32 (add32 bp n) 8) _ = g at hfoot ⊢
    obtain ⟨hk8, hklt⟩ := sizeField_mod (g.word (bp - 8)) (word_lt _ _)
    rw [word_setWord_ne (by unfold sub32; omega)]
    unfold sub32 NULL
    omega
  · rw [coalesceCases, if_pos ⟨ha, by decide⟩, wp_pure]
    exact hbp

/-- The number of bytes `extend_heap` asks for, as computed. -/
def extendSize (words : Nat) : Nat :=
  if words % 2 ≠ 0 then mul32 (add32 words 1) DSIZE else mul32 words DSIZE

/-- **A failed `extend_heap` has changed nothing**, whatever it was asked for. -/
theorem extendHeap_null {h : Heap} (words : Nat) (h8 : h.memBrk % 8 = 0) (hpos : 0 < h.memBrk)
    (hlt : h.memBrk < 2 ^ 32) (hlast : sizeField (h.word (h.memBrk - 8)) ≠ h.memBrk) :
    Returns (extendHeap words) h (fun p h' => p = NULL → h' = h ∧
      (toInt (extendSize words) < 0 ∨
        h.memMaxAddr < add32 h.memBrk (toInt (extendSize words)).toNat)) := by
  have hn8 : extendSize words % 8 = 0 := by unfold extendSize mul32 DSIZE; split <;> omega
  have hnlt : extendSize words < 2 ^ 32 := by unfold extendSize mul32; split <;> omega
  rw [extendHeap, ← extendSize]
  generalize extendSize words = n at hn8 hnlt
  rw [Returns, wp_bind, wp_memSbrk]
  refine ⟨trivial, ?_⟩
  -- the two ways in which `mem_sbrk` fails
  by_cases hc : toInt n < 0 ∨ h.memMaxAddr < add32 h.memBrk (toInt n).toNat
  · rw [if_pos hc, if_pos rfl, wp_pure]
    exact ⟨trivial, fun _ => ⟨rfl, hc⟩⟩
  · rw [if_neg hc, if_neg (by unfold FAILED; omega)]
    generalize add32 h.memBrk (toInt n).toNat = brk
    have hsub4 : sub32 h.memBrk 4 = h.memBrk - 4 := sub32_eq (by omega) hlt
    have hns : sizeField n = n := sizeField_free hn8 hnlt
    let g := (((h.setBrk brk).setWord (h.memBrk - 4) n).setWord
      (sub32 (add32 h.memBrk n) 8) n).setWord (sub32 (add32 h.memBrk n) 4) 1
    have hrun : Returns (coalesce h.memBrk) g (fun p _ => p ≠ NULL) := by
      have hone : sizeField 1 = 0 := by decide
      -- with 0 bytes the new epilogue is written over the new header
      by_cases hn0 : n = 0
      · subst hn0
        have hz : sizeField 0 = 0 := by decide
        have hfoot : sub32 (add32 h.memBrk 0) 8 = h.memBrk - 8 := by
          unfold sub32 add32
          omega
        have hepi : sub32 (add32 h.memBrk 0) 4 = h.memBrk - 4 := by
          unfold sub32 add32
          omega
        have hlast' : sizeField (g.word (h.memBrk - 8)) = 0 := by
          simp (disch := omega) only [g, hfoot, hepi, word_setWord, word_setWord_ne, hz]
        refine coalesce_ne_null h8 hpos hlt hn8 hnlt ?_ (word_setWord (by decide)) ?_ ?_
        · simp (disch := omega) only [g, hepi, word_setWord, hone]
        · omega
        · exact fun _ => hlast'
      · refine coalesce_ne_null h8 hpos hlt hn8 hnlt ?_ (word_setWord (by decide)) ?_ ?_
        · simp (disch := first | omega | (unfold sub32 add32; omega)) only [g, word_setWord,
            word_setWord_ne, hns]
        · simp (disch := first | omega | (unfold sub32 add32; omega)) only [g, word_setWord_ne,
            setBrk_word]
          exact hlast
        · exact fun he => absurd he hn0
    simp (disch := first | omega | (unfold sub32 add32; omega)) only [wp_bind, wp_put, wp_ftrp,
      wp_nextBlkp, hdrp, WSIZE, DSIZE, hsub4, pack_zero, word_setWord, word_setWord_ne, hns,
      true_and]
    exact Wp.mono hrun (fun p _ hne he => absurd he hne)

/-! ## `mm_malloc` -/

/-- What `extendHeap_null` asks of the heap. -/
theorem Rep.last {h : Heap} {bs : List Blk} (hr : Rep h bs) :
    h.memBrk % 8 = 0 ∧ 0 < h.memBrk ∧ sizeField (h.word (h.memBrk - 8)) ≠ h.memBrk := by
  have hr' : Rep h (bs ++ []) := by simpa using hr
  obtain ⟨p, hp8, hple, hpfoot, -, -⟩ := hr'.before
  have hend : firstBlkp h + span bs = h.memBrk := hr.brk.symm
  have hst := hr.arena.aligned
  have hspan := hr.sizes.span
  have hlt := hr.brk_lt
  rw [hend] at hple hpfoot
  have hps : sizeField (tag p) = p.size := sizeField_tag hp8 (by omega)
  unfold firstBlkp at hend
  rw [hpfoot, hps]
  omega

theorem place_returns (bp asize : Nat) (h : Heap) :
    Returns (place bp asize) h (fun _ _ => True) := by
  simp only [Returns, place, wp_bind, wp_getSize, wp_emits, wp_ite, wp_put, wp_ftrp, wp_nextBlkp,
    true_and, ite_self]

/-- What follows a successful search or extension: the block is placed and returned. -/
theorem place_return_returns {bp : Nat} (asize : Nat) (h : Heap) {Q : Nat → Heap → Prop}
    (hQ : ∀ h', Q bp h') : Returns (do place bp asize; return bp) h Q :=
  (wp_bind _ _ _).mpr (Wp.mono (place_returns bp asize h) (fun _ h' _ => (wp_pure _).mpr (hQ h')))

/-- Every run of `mm_malloc` that returns `NULL` has gone through a failed `mem_sbrk` without
a block found, or was for size 0. -/
theorem mmMalloc_cases {h : Heap} {bs : List Blk} (size : Nat) (hr : Rep h bs) :
    Returns (mmMalloc size) h (fun p h' => p = NULL → h' = h ∧
      (size = 0 ∨ splitFit (adjust size) bs = none ∧
        ∃ n, n = extendSize (max (adjust size) CHUNKSIZE / DSIZE) ∧
          (toInt n < 0 ∨ h.memMaxAddr < add32 h.memBrk (toInt n).toNat))) := by
  have hfirst : 0 < firstBlkp h := by unfold firstBlkp; omega
  rw [mmMalloc]
  by_cases h0 : size = 0
  · rw [if_pos h0, Returns, wp_pure]
    exact fun _ => ⟨rfl, Or.inl h0⟩
  · rw [if_neg h0]
    show Returns (findFit (adjust size) >>= _) h _
    have hfind : Returns (findFit (adjust size)) h
        (fun p h' => h' = h ∧ p = fitPtr (adjust size) (firstBlkp h) bs) := by
      obtain ⟨-, hout⟩ := findFit_spec (adjust size) hr
      exact ⟨fun _ _ => trivial, hout⟩
    refine (wp_bind _ _ _).mpr (Wp.mono hfind ?_)
    rintro p h1 ⟨rfl, rfl⟩
    by_cases hp : fitPtr (adjust size) (firstBlkp h1) bs = NULL
    · rw [if_neg (not_not.mpr hp)]
      obtain ⟨h8, hpos, hlast⟩ := hr.last
      -- `find_fit` returns `NULL` only when it finds nothing
      have hnone : splitFit (adjust size) bs = none := by
        rcases hs : splitFit (adjust size) bs with _ | ⟨L, c, R⟩
        · rfl
        · rw [fitPtr, hs] at hp
          simp only [NULL] at hp
          omega
      refine (wp_bind _ _ _).mpr (Wp.mono (extendHeap_null _ h8 hpos hr.brk_lt hlast) ?_)
      intro bp h2 hnull
      by_cases hbp : bp = NULL
      · rw [if_pos hbp, wp_pure]
        exact fun _ => ⟨(hnull hbp).1, Or.inr ⟨hnone, _, rfl, (hnull hbp).2⟩⟩
      · rw [if_neg hbp]
        exact place_return_returns _ h2 (fun _ he => absurd he hbp)
    · rw [if_pos hp]
      exact place_return_returns _ h1 (fun _ he => absurd he hp)

/-- **A refused request has changed nothing**, whatever its size. -/
theorem mmMalloc_null {h : Heap} {bs : List Blk} (size : Nat) (hr : Rep h bs) :
    Returns (mmMalloc size) h (fun p h' => p = NULL → h' = h) :=
  Wp.mono (mmMalloc_cases size hr) (fun _ _ hQ hp => (hQ hp).1)

/-- The sizes from `2^32 - 23` to `2^32 - 16` extend the heap by 0 bytes. -/
theorem extendSize_wrap {size : Nat} (hlo : 2 ^ 32 - 23 ≤ size) (hhi : size < 2 ^ 32 - 15) :
    extendSize (max (adjust size) CHUNKSIZE / DSIZE) = 0 := by
  have hadj : adjust size = 2 ^ 32 - 8 := by
    unfold adjust DSIZE mul32 add32
    rw [if_neg (by omega)]
    omega
  rw [hadj]
  decide

/-- **Sizes that wrap around are served**, unless they are adjusted to 0 or 8 and the heap is
full. -/
theorem mmMalloc_wrapped {h : Heap} {bs : List Blk} {size : Nat} (hr : Rep h bs)
    (hlo : 2 ^ 32 - 23 ≤ size) (hlt : size < 2 ^ 32)
    (hroom : 2 ^ 32 - 15 ≤ size →
      (∃ b ∈ bs, b.mark = false) ∨ h.memBrk + 4096 ≤ h.memMaxAddr) :
    Returns (mmMalloc size) h (fun p _ => p ≠ NULL) := by
  refine Wp.mono (mmMalloc_cases size hr) (fun p h' hQ hp => ?_)
  obtain ⟨-, h0 | ⟨hnone, n, hn, hfail⟩⟩ := hQ hp
  · omega
  · have hle := hr.brk_le
    have hfit := hr.arena.fits
    -- adjusted to 0 or 8 any free block serves, else `CHUNKSIZE` bytes are asked for
    by_cases hwrap : 2 ^ 32 - 15 ≤ size
    · have hadj := adjust_wrap hwrap hlt
      have hwords : max (adjust size) CHUNKSIZE / DSIZE = 512 := by
        unfold CHUNKSIZE DSIZE
        omega
      have h4096 : extendSize 512 = 4096 := by decide
      rw [hwords, h4096] at hn
      subst hn
      rcases hroom hwrap with ⟨b, hb, hfree⟩ | hle'
      · have := hr.sizes b hb
        rcases splitFit_none.mp hnone b hb with hm | hm
        · rw [hfree] at hm
          cases hm
        · omega
      · rw [toInt_neg (by omega), toInt_toNat (by omega), add32_eq (by omega)] at hfail
        omega
    · -- `mem_sbrk(0)` does not fail
      rw [extendSize_wrap hlo (by omega)] at hn
      subst hn
      rw [toInt_neg (by omega), toInt_toNat (by omega), add32_eq (by omega)] at hfail
      omega

end MallocLab
