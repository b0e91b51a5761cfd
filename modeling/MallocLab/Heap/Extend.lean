import MallocLab.Heap.Coalesce

set_option autoImplicit false

/-! # Growing the heap

`extend_heap` asks `mem_sbrk` for more bytes, writes the old epilogue over with the header of
a free block that fills the new area, and merges it with the last block. When `mem_sbrk`
refuses, nothing has been written.
-/

namespace MallocLab

open Logged Words Tiling BlockList

/-! ## `mem_sbrk` -/

/-- The heap with its break moved. -/
def Heap.setBrk (h : Heap) (brk : Nat) : Heap := { h with memBrk := brk }

@[simp] theorem setBrk_memStartBrk (h : Heap) (brk : Nat) :
    (h.setBrk brk).memStartBrk = h.memStartBrk := by rfl
@[simp] theorem setBrk_memBrk (h : Heap) (brk : Nat) : (h.setBrk brk).memBrk = brk := by rfl
@[simp] theorem setBrk_word (h : Heap) (brk p : Nat) : (h.setBrk brk).word p = h.word p := by rfl

theorem wp_memSbrk {G : Event → Prop} {h : Heap} (incr : Int) (Q : Nat → Heap → Prop) :
    Wp G (memSbrk incr) h Q ↔ G (.sbrk incr h.memBrk) ∧
      if incr < 0 ∨ h.memMaxAddr < add32 h.memBrk incr.toNat then G .sbrkFailed ∧ Q FAILED h
      else Q h.memBrk (h.setBrk (add32 h.memBrk incr.toNat)) := by
  rw [memSbrk]
  simp only [wp_bind, wp_reads, wp_emits]
  refine and_congr_right (fun _ => ?_)
  by_cases hc : incr < 0 ∨ h.memMaxAddr < add32 h.memBrk incr.toNat
  · rw [if_pos hc, if_pos hc, wp_bind, wp_emits, wp_pure]
  · rw [if_neg hc, if_neg hc, wp_bind, wp_modifies, wp_pure]
    rfl

theorem sbrk_mem_log (h : Heap) (incr : Int) :
    Event.sbrk incr h.memBrk ∈ (memSbrk incr).log h := by
  simp only [memSbrk, log_bind]
  exact List.mem_append_right _ (List.mem_append_right _
    (List.mem_append_left _ (List.mem_singleton.mpr rfl)))

/-- `mem_sbrk`, when its pointer sum does not wrap around. -/
theorem memSbrk_spec (h : Heap) (incr : Int) :
    Rely Event.NoWrap Event.Ok (memSbrk incr) h (fun p h' =>
      (p = FAILED ∧ h' = h ∧ (incr < 0 ∨ h.memMaxAddr < h.memBrk + incr.toNat)) ∨
        (p = h.memBrk ∧ h' = h.setBrk (h.memBrk + incr.toNat) ∧ 0 ≤ incr ∧
          h.memBrk + incr.toNat ≤ h.memMaxAddr)) := by
  intro hA
  have hnw : 0 ≤ incr → h.memBrk + incr < 2 ^ 32 := hA _ (sbrk_mem_log h incr)
  rw [wp_memSbrk]
  refine ⟨trivial, ?_⟩
  by_cases hneg : incr < 0
  · rw [if_pos (Or.inl hneg)]
    exact ⟨trivial, Or.inl ⟨rfl, rfl, Or.inl hneg⟩⟩
  · have hsum : add32 h.memBrk incr.toNat = h.memBrk + incr.toNat := add32_eq (by omega)
    rw [hsum]
    by_cases hmax : h.memMaxAddr < h.memBrk + incr.toNat
    · rw [if_pos (Or.inr hmax)]
      exact ⟨trivial, Or.inl ⟨rfl, rfl, Or.inr hmax⟩⟩
    · rw [if_neg (by omega)]
      exact Or.inr ⟨rfl, rfl, by omega, by omega⟩

/-! ## `extend_heap` -/

/-- The heap grew: below `a` it is as before. -/
structure Grows (a : Nat) (h h' : Heap) : Prop where
  start : h'.memStartBrk = h.memStartBrk
  max : h'.memMaxAddr = h.memMaxAddr
  listp : h'.heapListp = h.heapListp
  mem : ∀ x, x < a → h'.mem x = h.mem x

theorem Grows.word {a w : Nat} {h h' : Heap} (hG : Grows a h h') (hw : w + 4 ≤ a) :
    h'.word w = h.word w := loadWord_congr (fun x _ _ => hG.mem x (by omega))

theorem Grows.setBrk (a : Nat) (h : Heap) (brk : Nat) : Grows a h (h.setBrk brk) :=
  ⟨rfl, rfl, rfl, fun _ _ => rfl⟩

theorem Grows.setWord {a p v : Nat} {h h' : Heap} (hG : Grows a h h') (hp : a ≤ p) :
    Grows a h (h'.setWord p v) :=
  ⟨hG.start, hG.max, hG.listp, fun x hx => by
    show storeWord h'.mem p v x = h.mem x
    rw [storeWord, patch_out (by omega)]
    exact hG.mem x hx⟩

/-- Growing, then editing from some place on. -/
theorem Grows.edits {a b e : Nat} {h h' h'' : Heap} (hG : Grows a h h') (hE : Edits b e h' h'')
    (hb : b ≤ a) : Grows b h h'' :=
  ⟨hE.start.trans hG.start, hE.max.trans hG.max, hE.listp.trans hG.listp,
    fun x hx => (hE.mem x (Or.inl hx)).trans (hG.mem x (by omega))⟩

/-- **A free block at the end.** The new area becomes a free block and a new epilogue. -/
theorem Rep.extend {h h' : Heap} {bs : List Blk} {n : Nat} (hr : Rep h bs)
    (hG : Grows (h.memBrk - 4) h h') (hbrk : h'.memBrk = h.memBrk + n) (hn8 : n % 8 = 0)
    (hn16 : 16 ≤ n) (hmax : h.memBrk + n ≤ h.memMaxAddr) (hhead : h'.word (h.memBrk - 4) = n)
    (hfoot : h'.word (h.memBrk + n - 8) = n) (hepi : h'.word (h.memBrk + n - 4) = 1) :
    Rep h' (bs ++ [⟨n, false⟩]) := by
  have hend := hr.brk
  refine ⟨?_, ?_, ?_, ?_, ?_, ?_, ?_⟩
  · exact ⟨hG.start ▸ hr.arena.aligned, hG.start ▸ hr.arena.nonnull,
      by rw [hG.max, hG.start, hr.arena.maxAddr], hG.max ▸ hr.arena.fits⟩
  · rw [hG.listp, hG.start, hr.listp]
  · rw [hbrk, hend, hG.start]
    simp [Nat.add_assoc]
  · rw [hbrk, hG.max]
    exact hmax
  · exact sizesOk_append.mpr ⟨hr.sizes, sizesOk_cons.mpr ⟨⟨hn8, hn16⟩, by simp [SizesOk]⟩⟩
  · intro x hx
    rw [hG.start, ← List.cons_append, cells_append] at hx
    rcases List.mem_append.mp hx with hx | hx
    · -- an old block ends before the old epilogue
      have hb := cell_bounds hx
      have ht := hr.tags x hx
      simp only [span_cons, prologue, DSIZE] at hb
      have hsz : 8 ≤ x.2.size := by
        rcases List.mem_cons.mp (mem_of_mem_cells hx) with hp | hp
        · rw [hp]
          exact Nat.le_refl 8
        · have := hr.sizes x.2 hp
          omega
      exact ht.congr (hG.word (by omega)) (hG.word (by omega))
    · have hpos : h.memStartBrk + 8 + span (prologue :: bs) = h.memBrk := by
        show h.memStartBrk + 8 + (8 + span bs) = h.memBrk
        omega
      rw [hpos] at hx
      rw [List.mem_singleton.mp hx]
      exact ⟨by simpa using hhead, by simpa using hfoot⟩
  · rw [hbrk]
    exact hepi

/-- The number of bytes `extend_heap` asks for. -/
def growth (words : Nat) : Nat := 8 * (words + words % 2)

theorem growth_eq {words : Nat} (hw : words + 1 < 2 ^ 29) :
    (if words % 2 ≠ 0 then mul32 (add32 words 1) DSIZE else mul32 words DSIZE)
      = growth words := by
  have hadd : add32 words 1 = words + 1 := add32_eq (by omega)
  unfold growth DSIZE
  split
  · rw [hadd, mul32_eq (by omega)]
    omega
  · rw [mul32_eq (by omega)]
    omega

theorem toInt_neg {n : Nat} (hn : n < 2 ^ 32) : toInt n < 0 ↔ 2 ^ 31 ≤ n := by
  unfold toInt
  split <;> omega

theorem toInt_toNat {n : Nat} (hn : n < 2 ^ 31) : (toInt n).toNat = n := by
  rw [toInt, if_pos hn]
  rfl

/-- **Extending.** The heap is as it was when the arena has no room, and else gets a free
block at its end, merged with the last block. -/
theorem extendHeap_spec {h : Heap} {bs : List Blk} {words : Nat} (hr : Rep h bs)
    (hw : 2 ≤ words) (hlim : words + 1 < 2 ^ 29) :
    Rely Event.NoWrap Event.Ok (extendHeap words) h (fun p h' =>
      (p = NULL ∧ h' = h ∧ h.memMaxAddr < h.memBrk + growth words) ∨
        (p = mergedPtr h bs (growth words) [] ∧ Rep h' (release bs (growth words) []) ∧
          Grows (mergedPtr h bs (growth words) [] - 4) h h' ∧
          h'.memBrk = h.memBrk + growth words ∧ h.memBrk + growth words ≤ h.memMaxAddr)) := by
  have hE := growth_eq hlim
  have hE8 : growth words % 8 = 0 := by unfold growth; omega
  have hE16 : 16 ≤ growth words := by unfold growth; omega
  have hElt : growth words < 2 ^ 32 := by unfold growth; omega
  generalize growth words = n at hE hE8 hE16 hElt
  have hend := hr.brk
  have hfit := hr.arena.fits
  have hmax := hr.arena.maxAddr
  have hst := hr.arena.aligned
  have hspan := hr.sizes.span
  unfold MAX_HEAP at hmax
  rw [extendHeap, hE]
  apply Rely.bind (memSbrk_spec h (toInt n))
  rintro p h1 (⟨rfl, rfl, hno⟩ | ⟨rfl, rfl, hpos, hle⟩)
  · rw [if_pos rfl]
    refine Rely.pure (Or.inl ⟨rfl, rfl, ?_⟩)
    -- a request from `2^31` bytes on is negative as an `int`
    by_cases hbig : 2 ^ 31 ≤ n
    · omega
    · rw [toInt_neg hElt, toInt_toNat (by omega)] at hno
      omega
  · have hsmall : n < 2 ^ 31 := by
      have := (toInt_neg hElt).not.mp (by omega)
      omega
    rw [toInt_toNat hsmall] at hle ⊢
    have hns : sizeField n = n := sizeField_free hE8 hElt
    rw [if_neg (by unfold FAILED; omega)]
    let h2 := (((h.setBrk (h.memBrk + n)).setWord (h.memBrk - 4) n).setWord
      (h.memBrk + n - 8) n).setWord (h.memBrk + n - 4) 1
    -- the writes start with the old epilogue, which becomes the header
    have hG : Grows (h.memBrk - 4) h h2 := by
      refine Grows.setWord (Grows.setWord (Grows.setWord (Grows.setBrk _ h _) ?_) ?_) ?_ <;> omega
    have hnew : Rep h2 (bs ++ [⟨n, false⟩]) := by
      refine hr.extend hG rfl hE8 hE16 hle ?_ ?_ ?_ <;>
        simp (disch := omega) only [h2, word_setWord, word_setWord_ne]
    -- the new block lies behind all others, and `coalesce` does the rest
    have hptr : h.memBrk = firstBlkp h2 + span bs := hend
    have hmp : mergedPtr h bs n [] ≤ h.memBrk := hptr ▸ mergedPtr_le h2 bs n []
    have hrun : Wp Event.Ok (coalesce h.memBrk) h2 (fun p h' =>
        p = mergedPtr h bs n [] ∧ Rep h' (release bs n []) ∧
          Grows (mergedPtr h bs n [] - 4) h h' ∧ h'.memBrk = h.memBrk + n ∧
          h.memBrk + n ≤ h.memMaxAddr) := by
      refine (coalesce_spec hnew hptr).mono (fun p h' hpost => ?_)
      obtain ⟨hrep, hp, hedit⟩ := hpost
      exact ⟨hp, hrep, hG.edits hedit (by omega), hedit.brk, hle⟩
    refine Rely.mono (Wp.rely ?_) (fun _ _ => Or.inr)
    simp (disch := omega) only [wp_bind, wp_put, wp_ftrp, wp_nextBlkp, hdrp, WSIZE, DSIZE,
      sub32_eq, add32_eq, pack_zero, word_setWord, word_setWord_ne, hns, Event.Ok, setWord_memBrk,
      setWord_memStartBrk, setBrk_memBrk, setBrk_memStartBrk]
    exact ⟨by omega, by omega, by omega, by omega, by omega, hrun⟩

end MallocLab
