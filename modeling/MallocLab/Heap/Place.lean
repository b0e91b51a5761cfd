import MallocLab.Heap.Layout

set_option autoImplicit false

/-! # Searching and placing

`find_fit` walks the block list to its first free block of the asked size and touches only
headers on the way; `place` carves that block. Both are stated on the represented list
(`splitFit`, `carve`), with `Event.Ok` for every access they make.
-/

namespace MallocLab

open Logged Words Tiling BlockList

/-! ## `find_fit` -/

/-- The block pointer that a search from `bp` over `bs` ends with. -/
def fitPtr (asize bp : Nat) (bs : List Blk) : Nat :=
  match splitFit asize bs with
  | some (L, _, _) => bp + span L
  | none => NULL

theorem fitPtr_skip {asize bp : Nat} {b : Blk} (bs : List Blk)
    (hb : ¬(b.mark = false ∧ asize ≤ b.size)) :
    fitPtr asize bp (b :: bs) = fitPtr asize (bp + b.size) bs := by
  rw [fitPtr, fitPtr, splitFit, if_neg hb]
  rcases splitFit asize bs with _ | ⟨L, c, R⟩
  · rfl
  · simp [Nat.add_assoc]

/-- The test of the loop on a block. -/
theorem fits_spec {h : Heap} {b : Blk} {asize bp : Nat} (hal : bp % 8 = 0)
    (hlo : h.memStartBrk + 8 ≤ bp) (hup : bp + b.size ≤ h.memBrk) (hlt : h.memBrk < 2 ^ 32)
    (hb8 : b.size % 8 = 0) (hb16 : 8 ≤ b.size) (hhead : h.word (bp - 4) = tag b) :
    Wp Event.Ok (fits asize bp) h
      (fun r h' => h' = h ∧ (r = true ↔ b.mark = false ∧ asize ≤ b.size)) := by
  have hsize : sizeField (tag b) = b.size := sizeField_tag hb8 (by omega)
  have halloc : allocField (tag b) = if b.mark then 1 else 0 := allocField_tag hb8
  simp (disch := omega) only [fits, wp_bind, wp_getAlloc, hdrp, WSIZE, sub32_eq, hhead, halloc,
    Event.Ok]
  refine ⟨by omega, ?_⟩
  -- allocated: the size is not read; free: it is compared
  cases ha : b.mark with
  | true =>
      rw [if_pos (by decide), wp_pure]
      simp
  | false =>
      rw [if_neg (by decide)]
      simp (disch := omega) only [wp_bind, wp_getSize, hhead, hsize, wp_pure, Event.Ok]
      exact ⟨by omega, by simp⟩

/-- **The loop of `find_fit`** on the blocks from `bp` to the epilogue. -/
theorem findFitLoop_spec {h : Heap} {asize : Nat} :
    ∀ (bs : List Blk) (bp fuel : Nat), bs.length < fuel → Chain h bp bs →
      Wp Event.Ok (findFitLoop asize fuel bp) h (fun p h' => h' = h ∧ p = fitPtr asize bp bs) := by
  intro bs
  induction bs with
  | nil =>
      intro bp fuel hfuel hc
      obtain ⟨fuel, rfl⟩ : ∃ f, fuel = f + 1 := ⟨fuel - 1, by omega⟩
      have hal := hc.aligned
      have hlo := hc.lower
      have hlt := hc.upper
      have hepi := hc.epilogue
      have hends := hc.ends
      simp only [span_nil, Nat.add_zero] at hends
      subst hends
      have hz : sizeField 1 = 0 := by decide
      simp (disch := omega) only [findFitLoop, wp_bind, wp_getSize, hdrp, WSIZE, sub32_eq, hepi,
        hz, Event.Ok]
      rw [if_neg (by omega), wp_pure]
      exact ⟨by omega, rfl, rfl⟩
  | cons b bs ih =>
      intro bp fuel hfuel hc
      obtain ⟨fuel, rfl⟩ : ∃ f, fuel = f + 1 := ⟨fuel - 1, by omega⟩
      obtain ⟨hhead, hb8, hb16, hup⟩ := hc.head
      have hal := hc.aligned
      have hlo := hc.lower
      have hlt := hc.upper
      rw [List.length_cons] at hfuel
      have hsize : sizeField (tag b) = b.size := sizeField_tag hb8 (by omega)
      have hnext := ih (bp + b.size) fuel (by omega) hc.tail
      simp (disch := omega) only [findFitLoop, wp_bind, wp_getSize, hdrp, WSIZE, sub32_eq, hhead,
        hsize, Event.Ok]
      refine ⟨by omega, ?_⟩
      rw [if_pos (by omega), wp_bind]
      apply (fits_spec hal hlo hup hlt hb8 hb16 hhead).mono
      rintro r h' ⟨rfl, hr⟩
      by_cases hfit : b.mark = false ∧ asize ≤ b.size
      · rw [if_pos (hr.mpr hfit), wp_pure]
        exact ⟨rfl, by simp [fitPtr, splitFit, hfit]⟩
      · rw [fitPtr_skip bs hfit, if_neg (fun h => hfit (hr.mp h)), wp_bind]
        simp (disch := omega) only [wp_nextBlkp, hdrp, WSIZE, sub32_eq, hhead, hsize, add32_eq,
          Event.Ok]
        exact ⟨by omega, hnext⟩

/-- `find_fit` ends at the first free block that is large enough, or at the epilogue. -/
theorem findFit_spec {h : Heap} {bs : List Blk} (asize : Nat) (hr : Rep h bs) :
    Wp Event.Ok (findFit asize) h
      (fun p h' => h' = h ∧ p = fitPtr asize (firstBlkp h) bs) := by
  have hskip : ¬(prologue.mark = false ∧ asize ≤ prologue.size) := by simp [prologue]
  have hfirst : h.memStartBrk + 8 + prologue.size = firstBlkp h := rfl
  rw [findFit, wp_bind, wp_reads, hr.listp, ← hfirst, ← fitPtr_skip bs hskip]
  exact findFitLoop_spec (prologue :: bs) _ _ hr.length_lt hr.chain

/-! ## `place` -/

theorem place_spec {h : Heap} {L R : List Blk} {c bp asize : Nat}
    (hr : Rep h (L ++ ⟨c, false⟩ :: R)) (hbp : bp = firstBlkp h + span L)
    (h8 : asize % 8 = 0) (h16 : 16 ≤ asize) (hle : asize ≤ c) :
    Wp Event.Ok (place bp asize) h (fun _ h' =>
      Rep h' (L ++ carve 16 asize c ++ R) ∧ Edits (bp - 4) (bp + c - 4) h h') := by
  have hB := hr.block (cell_mid (firstBlkp h) L ⟨c, false⟩ R)
  rw [← hbp] at hB
  obtain ⟨hal, hc8, hc16, hlo, hup, hhead, -⟩ := hB
  simp only [tag_free] at hal hc8 hc16 hlo hup hhead
  have hlt := hr.brk_lt
  have hst := hr.arena.aligned
  have hcs : sizeField c = c := sizeField_free hc8 (by omega)
  have hpc := pack_one hc8
  have hr' : Rep h (L ++ [⟨c, false⟩] ++ R) := by simpa using hr
  simp (disch := omega) only [place, wp_bind, wp_getSize, wp_emits, hdrp, WSIZE, DSIZE, sub32_eq,
    hhead, hcs, Event.Ok]
  refine ⟨by omega, hle, ?_⟩
  -- the rest is a block of its own, or it stays with the block
  by_cases hsplit : 16 ≤ c - asize
  · have has : sizeField (pack asize 1) = asize := sizeField_alloc h8 (by omega)
    have hrs : sizeField (c - asize) = c - asize := sizeField_free (by omega) (by omega)
    have hpa := pack_one h8
    have hE : Edits (bp - 4) (bp + c - 4) h ((((h.setWord (bp - 4) (pack asize 1)).setWord
        (bp + asize - 8) (pack asize 1)).setWord (bp + asize - 4) (c - asize)).setWord
        (bp + c - 8) (c - asize)) := by
      refine Edits.setWord (Edits.setWord (Edits.setWord (Edits.setWord (Edits.refl _ _ h)
        ?_ ?_) ?_ ?_) ?_ ?_) ?_ ?_ <;> omega
    have hend : bp + asize + (c - asize) - 8 = bp + c - 8 := by omega
    rw [if_pos (by omega)]
    simp (disch := omega) only [wp_bind, wp_put, wp_ftrp, wp_nextBlkp, hdrp, WSIZE, DSIZE,
      sub32_eq, add32_eq, word_setWord, word_setWord_ne, has, hrs, pack_zero, Event.Ok,
      setWord_memBrk, setWord_memStartBrk, hend]
    refine ⟨by omega, by omega, by omega, by omega, by omega, by omega, by omega, ?_, hE⟩
    rw [carve, if_pos hsplit]
    refine hr'.replace (hbp ▸ by simpa using hE) ?_ ?_ ?_
    · simp
      omega
    · exact sizesOk_cons.mpr ⟨⟨h8, h16⟩, sizesOk_cons.mpr ⟨⟨by simp only; omega, hsplit⟩, by
        intro b hb; cases hb⟩⟩
    · rw [← hbp]
      intro x hx
      simp only [cells_cons, cells_nil, List.mem_cons, List.not_mem_nil,
        or_false] at hx
      -- header and footer of the two blocks
      rcases hx with rfl | rfl
      · refine ⟨?_, ?_⟩ <;> simp (disch := omega) only [word_setWord, word_setWord_ne, tag_alloc]
      · refine ⟨?_, ?_⟩ <;>
          simp (disch := omega) only [word_setWord, word_setWord_ne, tag_free, hend]
  · obtain ⟨⟨hrep, hE⟩, -⟩ := hr'.setTags (b := ⟨c, true⟩) (q := bp + c - 8) hbp
      (by simp only; omega) (by simp) hc16 (tag_alloc c) (by omega)
    have hca : sizeField (pack c 1) = c := sizeField_alloc hc8 (by omega)
    rw [if_neg (by omega)]
    simp (disch := omega) only [wp_bind, wp_put, wp_ftrp, hdrp, WSIZE, DSIZE, sub32_eq, add32_eq,
      word_setWord, hca, Event.Ok, setWord_memBrk, setWord_memStartBrk]
    refine ⟨by omega, by omega, by omega, ?_, hE⟩
    rw [carve, if_neg hsplit, List.append_assoc]
    exact hrep

end MallocLab
