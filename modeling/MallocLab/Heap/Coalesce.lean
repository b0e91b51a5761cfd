import MallocLab.Heap.Layout

set_option autoImplicit false

/-! # Merging

`coalesce` on a free block reads the two neighbouring tags and rewrites at most one header and
one footer; the result is the block list with `release`. The four cases of the source are
the four combinations of `Rep.before` and `Rep.after`, so the prologue and the epilogue need
no case of their own.
-/

namespace MallocLab

open Logged Words Tiling BlockList

/-- The block pointer of the block that `release L n R` puts in place. -/
def mergedPtr (h : Heap) (L : List Blk) (n : Nat) (R : List Blk) : Nat :=
  firstBlkp h + span (joinLeft L (joinRight n R).1).1

/-- The end of that block. -/
def mergedEnd (h : Heap) (L : List Blk) (n : Nat) (R : List Blk) : Nat :=
  firstBlkp h + span L + (joinRight n R).1

/-- What `coalesce` reads before it decides: the footer of the block before, the header of the
block after, and its own size. -/
theorem coalesce_reads {h : Heap} {bp n c : Nat} {p : Blk} {Q : Nat → Heap → Prop}
    (hlt : h.memBrk < 2 ^ 32) (hst : h.memStartBrk % 8 = 0) (hal : bp % 8 = 0)
    (hn8 : n % 8 = 0) (hp8 : p.size % 8 = 0) (hlo : h.memStartBrk + 8 + p.size ≤ bp)
    (hup : bp + n ≤ h.memBrk) (hn16 : 16 ≤ n)
    (hpfoot : h.word (bp - 8) = tag p) (hphead : h.word (bp - p.size - 4) = tag p)
    (hhead : h.word (bp - 4) = n) (hnext : allocField (h.word (bp + n - 4)) = c)
    (hcases : Wp Event.Ok (coalesceCases bp (if p.mark then 1 else 0) c n) h Q) :
    Wp Event.Ok (coalesce bp) h Q := by
  have hns : sizeField n = n := sizeField_free hn8 (by omega)
  have hps : sizeField (tag p) = p.size := sizeField_tag hp8 (by omega)
  have hpa : allocField (tag p) = if p.mark then 1 else 0 := allocField_tag hp8
  have hback : bp - p.size + p.size - 8 = bp - 8 := by omega
  simp (disch := omega) only [coalesce, wp_bind, wp_prevBlkp, wp_ftrp, wp_nextBlkp, wp_getAlloc,
    wp_getSize, hdrp, WSIZE, DSIZE, sub32_eq, add32_eq, hpfoot, hps, hphead, hback, hpa, hhead,
    hns, hnext, Event.Ok]
  exact ⟨by omega, by omega, by omega, by omega, by omega, by omega, hcases⟩

/-! ## The cases -/

/-- Two blocks next to each other. -/
theorem Rep.block_pair {h : Heap} {L R : List Blk} {b c : Blk} (hr : Rep h (L ++ b :: c :: R)) :
    BlockAt h (firstBlkp h + span L) b ∧ BlockAt h (firstBlkp h + span L + b.size) c := by
  refine ⟨hr.block (cell_mid (firstBlkp h) L b _), hr.block (x := (_, c)) ?_⟩
  simp [Nat.add_assoc]

/-- The next block is free: the header of the block and the footer of the next one get the
new size. -/
theorem coalesceCases_next {h : Heap} {L R : List Blk} {n c bp : Nat}
    (hr : Rep h (L ++ ⟨n, false⟩ :: ⟨c, false⟩ :: R)) (hbp : bp = firstBlkp h + span L) :
    Wp Event.Ok (coalesceCases bp 1 0 n) h (fun p h' =>
      Rep h' (L ++ ⟨n + c, false⟩ :: R) ∧ p = bp ∧ Edits (bp - 4) (bp + (n + c) - 4) h h') := by
  have hX : Rep h (L ++ [⟨n, false⟩, ⟨c, false⟩] ++ R) := by simpa using hr
  obtain ⟨⟨hal, hn8, hn16, hlo, -, hhead, -⟩, -, hc8, hc16, -, hcup, hchead, -⟩ := hr.block_pair
  simp only [tag_free, ← hbp] at hal hn8 hn16 hlo hhead hc8 hc16 hcup hchead
  have hlt := hr.brk_lt
  have hst := hr.arena.aligned
  have hns : sizeField n = n := sizeField_free hn8 (by omega)
  have hcs : sizeField c = c := sizeField_free hc8 (by omega)
  have hncs : sizeField (n + c) = n + c := sizeField_free (by omega) (by omega)
  obtain ⟨⟨hrep, hE⟩, -⟩ := hX.setTags (b := ⟨n + c, false⟩) (q := bp + (n + c) - 8) hbp
    (by simp only; omega) (by simp) (by simp only; omega) (tag_free _) (by omega)
  rw [coalesceCases, if_neg (by decide), if_pos (by decide)]
  simp (disch := omega) only [wp_bind, wp_nextBlkp, wp_getSize, wp_put, wp_ftrp, wp_pure, hdrp,
    WSIZE, DSIZE, sub32_eq, add32_eq, hhead, hns, hchead, hcs, pack_zero, word_setWord, hncs,
    Event.Ok, setWord_memBrk, setWord_memStartBrk]
  exact ⟨by omega, by omega, by omega, by omega, by omega, hrep, trivial, hE⟩

/-- The block before is free: its header and the footer of the block get the new size. -/
theorem coalesceCases_prev {h : Heap} {L R : List Blk} {k n bp : Nat}
    (hr : Rep h (L ++ ⟨k, false⟩ :: ⟨n, false⟩ :: R)) (hbp : bp = firstBlkp h + span L + k) :
    Wp Event.Ok (coalesceCases bp 0 1 n) h (fun p h' =>
      Rep h' (L ++ ⟨n + k, false⟩ :: R) ∧ p = firstBlkp h + span L ∧
        Edits (firstBlkp h + span L - 4) (bp + n - 4) h h') := by
  have hX : Rep h (L ++ [⟨k, false⟩, ⟨n, false⟩] ++ R) := by simpa using hr
  obtain ⟨⟨hkal, hk8, hk16, hklo, -, hkhead, hkfoot⟩, hal, hn8, hn16, -, hup, hhead, -⟩ :=
    hr.block_pair
  generalize ha : firstBlkp h + span L = a at *
  subst hbp
  simp only [tag_free] at hk8 hk16 hkhead hkfoot hal hn8 hn16 hup hhead
  have hlt := hr.brk_lt
  have hst := hr.arena.aligned
  have hns : sizeField n = n := sizeField_free hn8 (by omega)
  have hks : sizeField k = k := sizeField_free hk8 (by omega)
  have hback : a + k - k = a := Nat.add_sub_cancel a k
  obtain ⟨-, hrep, hE⟩ := hX.setTags (b := ⟨n + k, false⟩) (q := a + k + n - 8) ha.symm
    (by simp only; omega) (by simp; omega) (by simp only; omega) (tag_free _) (by omega)
  rw [coalesceCases, if_neg (by decide), if_neg (by decide), if_pos (by decide)]
  simp (disch := omega) only [wp_bind, wp_prevBlkp, wp_getSize, wp_put, wp_ftrp, hdrp, WSIZE,
    DSIZE, sub32_eq, add32_eq, hhead, hns, hkfoot, hback, hkhead, hks, pack_zero, word_setWord_ne,
    Event.Ok, setWord_memBrk, setWord_memStartBrk]
  exact ⟨by omega, by omega, by omega, by omega, by omega, by omega, by omega, hrep, trivial,
    hE.mono (Nat.le_refl _) (by simp only; omega)⟩

/-- Both neighbours are free: the header of the block before and the footer of the next one
get the new size. -/
theorem coalesceCases_both {h : Heap} {L R : List Blk} {k n c bp : Nat}
    (hr : Rep h (L ++ ⟨k, false⟩ :: ⟨n, false⟩ :: ⟨c, false⟩ :: R))
    (hbp : bp = firstBlkp h + span L + k) :
    Wp Event.Ok (coalesceCases bp 0 0 n) h (fun p h' =>
      Rep h' (L ++ ⟨n + c + k, false⟩ :: R) ∧ p = firstBlkp h + span L ∧
        Edits (firstBlkp h + span L - 4) (bp + (n + c) - 4) h h') := by
  have hX : Rep h (L ++ [⟨k, false⟩, ⟨n, false⟩, ⟨c, false⟩] ++ R) := by simpa using hr
  have hr' : Rep h ((L ++ [⟨k, false⟩]) ++ ⟨n, false⟩ :: ⟨c, false⟩ :: R) := by simpa using hr
  obtain ⟨⟨hkal, hk8, hk16, hklo, -, hkhead, hkfoot⟩, -⟩ := hr.block_pair
  obtain ⟨⟨hal, hn8, hn16, -, -, hhead, -⟩, -, hc8, hc16, -, hcup, hchead, hcfoot⟩ :=
    hr'.block_pair
  rw [span_append, span_cons, span_nil, Nat.add_zero, ← Nat.add_assoc] at hal hhead hcup hchead hcfoot
  generalize ha : firstBlkp h + span L = a at *
  subst hbp
  simp only [tag_free] at hk8 hk16 hkhead hkfoot hal hn8 hn16 hhead hc8 hc16 hcup hchead hcfoot
  have hlt := hr.brk_lt
  have hst := hr.arena.aligned
  have hns : sizeField n = n := sizeField_free hn8 (by omega)
  have hks : sizeField k = k := sizeField_free hk8 (by omega)
  have hcs : sizeField c = c := sizeField_free hc8 (by omega)
  have hback : a + k - k = a := Nat.add_sub_cancel a k
  have hsum : n + (k + c) = n + c + k := by omega
  obtain ⟨-, hrep, hE⟩ := hX.setTags (b := ⟨n + c + k, false⟩) (q := a + k + n + c - 8) ha.symm
    (by simp only; omega) (by simp; omega) (by simp only; omega) (tag_free _) (by omega)
  rw [coalesceCases, if_neg (by decide), if_neg (by decide), if_neg (by decide)]
  simp (disch := omega) only [wp_bind, wp_prevBlkp, wp_nextBlkp, wp_getSize, wp_put, wp_ftrp, hdrp,
    WSIZE, DSIZE, sub32_eq, add32_eq, hhead, hns, hkfoot, hback, hkhead, hks, hchead, hcfoot, hcs,
    hsum, pack_zero, word_setWord_ne, Event.Ok, setWord_memBrk, setWord_memStartBrk]
  exact ⟨by omega, by omega, by omega, by omega, by omega, by omega, by omega, by omega, by omega,
    by omega, by omega, hrep, trivial, hE.mono (Nat.le_refl _) (by simp only; omega)⟩

/-- **`coalesce`.** The four cases together: the block is merged with its free neighbours. -/
theorem coalesce_spec {h : Heap} {L R : List Blk} {n bp : Nat}
    (hr : Rep h (L ++ ⟨n, false⟩ :: R)) (hbp : bp = firstBlkp h + span L) :
    Wp Event.Ok (coalesce bp) h (fun p h' =>
      Rep h' (release L n R) ∧ p = mergedPtr h L n R ∧
        Edits (mergedPtr h L n R - 4) (mergedEnd h L n R - 4) h h') := by
  obtain ⟨hal, hn8, hn16, -, hup, hhead, -⟩ := hr.block (cell_mid (firstBlkp h) L ⟨n, false⟩ R)
  obtain ⟨p, hp8, hplo, hpfoot, hphead, hpcase⟩ := hr.before
  have hr' : Rep h (L ++ [⟨n, false⟩] ++ R) := by simpa using hr
  have hnext := hr'.after
  rw [span_append, span_cons, span_nil, Nat.add_zero, ← Nat.add_assoc] at hnext
  rw [← hbp] at hpfoot hphead hplo hnext
  simp only [tag_free, ← hbp] at hal hn8 hn16 hup hhead hnext
  refine coalesce_reads hr.brk_lt hr.arena.aligned hal hn8 hp8 hplo hup hn16 hpfoot hphead hhead
    rfl ?_
  unfold mergedPtr mergedEnd release
  rcases hpcase with ⟨hpm, hjl⟩ | ⟨hpm, L', rfl, hjl⟩ <;>
    rcases hnext with ⟨hq, hjr⟩ | ⟨c, R', rfl, hB, hjr⟩ <;>
    rw [hjr, hjl, hpm]
  · -- both neighbours allocated
    rw [hq, coalesceCases, if_pos ⟨by decide, by decide⟩, wp_pure]
    exact ⟨hr, hbp, Edits.refl _ _ h⟩
  · -- the next block is free
    rw [hB.header, tag_free, allocField_free hB.size8, ← hbp]
    exact coalesceCases_next hr hbp
  · -- the block before is free
    obtain ⟨k, _⟩ := p
    subst hpm
    rw [hq, ← hbp]
    exact coalesceCases_prev (by simpa using hr) (by simpa [Nat.add_assoc] using hbp)
  · -- both neighbours are free
    obtain ⟨k, _⟩ := p
    subst hpm
    rw [hB.header, tag_free, allocField_free hB.size8, ← hbp]
    exact coalesceCases_both (by simpa using hr) (by simpa [Nat.add_assoc] using hbp)

theorem mergedPtr_le (h : Heap) (L : List Blk) (n : Nat) (R : List Blk) :
    mergedPtr h L n R ≤ firstBlkp h + span L := by
  have h1 := span_joinLeft L (joinRight n R).1
  rcases joinLeft_eq L (joinRight n R).1 with ⟨L', c, rfl, hj⟩ | ⟨-, hj⟩
  · rw [mergedPtr, hj]
    simp
  · rw [mergedPtr, hj]

theorem le_mergedEnd (h : Heap) (L : List Blk) (n : Nat) (R : List Blk) :
    firstBlkp h + span L + n ≤ mergedEnd h L n R := by
  rcases joinRight_eq n R with ⟨c, R', rfl, hj⟩ | ⟨-, hj⟩
  · rw [mergedEnd, hj]
    simp only
    omega
  · rw [mergedEnd, hj]

/-- The body of `mm_free` up to its call of `coalesce`, with the result of that call. -/
theorem freeCoalesce_spec {h : Heap} {L R : List Blk} {n bp : Nat}
    (hr : Rep h (L ++ ⟨n, true⟩ :: R)) (hbp : bp = firstBlkp h + span L) :
    Wp Event.Ok (do
      let size ← getSize (hdrp bp)
      put (hdrp bp) (pack size 0)
      put (← ftrp bp) (pack size 0)
      coalesce bp) h (fun q h' =>
        Rep h' (release L n R) ∧ q = mergedPtr h L n R ∧
          Edits (mergedPtr h L n R - 4) (mergedEnd h L n R - 4) h h') := by
  obtain ⟨hal, hn8, hn16, hlo, hup, hhead, -⟩ := hr.block (cell_mid (firstBlkp h) L ⟨n, true⟩ R)
  simp only [tag_alloc, ← hbp] at hal hn8 hn16 hlo hup hhead
  have hlt := hr.brk_lt
  have hst := hr.arena.aligned
  have hns : sizeField n = n := sizeField_free hn8 (by omega)
  have hna : sizeField (pack n 1) = n := sizeField_alloc hn8 (by omega)
  have hX : Rep h (L ++ [⟨n, true⟩] ++ R) := by simpa using hr
  have hle := mergedPtr_le h L n R
  have hend := le_mergedEnd h L n R
  rw [← hbp] at hle hend
  -- with both tags cleared the block is a free one that is not merged yet
  obtain ⟨⟨hcleared, hE⟩, -⟩ := hX.setTags (b := ⟨n, false⟩) (q := bp + n - 8) hbp
    (by simp only; omega) (by simp) hn16 (tag_free n) (by omega)
  simp only at hE
  simp (disch := omega) only [wp_bind, wp_getSize, wp_put, wp_ftrp, hdrp, WSIZE,
    DSIZE, sub32_eq, add32_eq, hhead, hna, hns, pack_zero, word_setWord, Event.Ok,
    setWord_memBrk, setWord_memStartBrk]
  refine ⟨by omega, by omega, by omega, by omega, ?_⟩
  refine (coalesce_spec hcleared hbp).mono (fun p h' hpost => ?_)
  exact ⟨hpost.1, hpost.2.1, (hE.mono (by omega) (by omega)).trans hpost.2.2⟩

/-- `mm_free` does what its body does up to the call of `coalesce`. -/
theorem wp_mmFree {G : Event → Prop} {h : Heap} {bp : Nat} {Q : Nat → Heap → Prop}
    (hbody : Wp G (do
      let size ← getSize (hdrp bp)
      put (hdrp bp) (pack size 0)
      put (← ftrp bp) (pack size 0)
      coalesce bp) h Q) :
    Wp G (mmFree bp) h (fun _ h' => ∃ q, Q q h') := by
  simp only [wp_bind] at hbody
  simp only [mmFree, wp_bind]
  refine hbody.mono (fun _ _ hbody => hbody.mono (fun _ _ hbody => ?_))
  refine hbody.mono (fun _ _ hbody => hbody.mono (fun _ _ hbody => ?_))
  exact hbody.mono (fun q _ hq => (wp_pure _).mpr ⟨q, hq⟩)

/-- `mm_free` clears the allocated bit of the block and merges. -/
theorem mmFree_spec {h : Heap} {L R : List Blk} {n bp : Nat}
    (hr : Rep h (L ++ ⟨n, true⟩ :: R)) (hbp : bp = firstBlkp h + span L) :
    Wp Event.Ok (mmFree bp) h (fun _ h' =>
      Rep h' (release L n R) ∧
        Edits (mergedPtr h L n R - 4) (mergedEnd h L n R - 4) h h') := by
  apply (wp_mmFree (freeCoalesce_spec hr hbp)).mono
  rintro _ h' ⟨q, hrep, -, hE⟩
  exact ⟨hrep, hE⟩

end MallocLab
