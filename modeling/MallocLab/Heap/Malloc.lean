import MallocLab.Heap.Place
import MallocLab.Heap.Extend
import MallocLab.Lib.FirstFit

set_option autoImplicit false

/-! # `mm_init` and `mm_malloc`

`mm_malloc` on a represented heap is `allocate` on its block list: first fit with the block
size of the request, growing by at least `CHUNKSIZE`. The block list and the returned offset
depend on nothing but the block list and the size, and the payloads of the blocks that were
allocated before are kept (`Keeps`).
-/

namespace MallocLab

open Logged Words Tiling BlockList

/-! ## Payloads that are kept -/

/-- The payloads of the blocks `xs` and the variables that no request changes are the same. -/
structure Keeps (xs : List (Nat × Blk)) (h h' : Heap) : Prop where
  start : h'.memStartBrk = h.memStartBrk
  max : h'.memMaxAddr = h.memMaxAddr
  listp : h'.heapListp = h.heapListp
  mem : ∀ x ∈ xs, ∀ y, x.1 ≤ y → y + 8 < x.1 + x.2.size → h'.mem y = h.mem y

theorem Keeps.refl (xs : List (Nat × Blk)) (h : Heap) : Keeps xs h h :=
  ⟨rfl, rfl, rfl, fun _ _ _ _ _ => rfl⟩

theorem Keeps.trans {xs : List (Nat × Blk)} {h h' h'' : Heap} (h1 : Keeps xs h h')
    (h2 : Keeps xs h' h'') : Keeps xs h h'' :=
  ⟨h2.start.trans h1.start, h2.max.trans h1.max, h2.listp.trans h1.listp,
    fun x hx y hlo hhi => (h2.mem x hx y hlo hhi).trans (h1.mem x hx y hlo hhi)⟩

theorem Keeps.mono {xs ys : List (Nat × Blk)} {h h' : Heap} (hK : Keeps xs h h')
    (hys : ∀ x ∈ ys, x ∈ xs) : Keeps ys h h' :=
  ⟨hK.start, hK.max, hK.listp, fun x hx => hK.mem x (hys x hx)⟩

/-- An edit keeps the payloads it is apart from. -/
theorem Edits.keeps {a e : Nat} {xs : List (Nat × Blk)} {h h' : Heap} (hE : Edits a e h h')
    (hxs : ∀ x ∈ xs, x.1 + x.2.size ≤ a + 8 ∨ e ≤ x.1) : Keeps xs h h' := by
  refine ⟨hE.start, hE.max, hE.listp, fun x hx y hlo hhi => hE.mem y ?_⟩
  have := hxs x hx
  omega

/-- An edit inside a free block keeps every allocated payload. -/
theorem Edits.keeps_free {a e c : Nat} {L R : List Blk} {h h' : Heap} (hE : Edits a e h h')
    (ha : firstBlkp h + span L ≤ a + 4) (he : e ≤ firstBlkp h + span L + c) :
    Keeps (allocs (firstBlkp h) (L ++ ⟨c, false⟩ :: R)) h h' := by
  refine hE.keeps (fun x hx => ?_)
  have := allocs_apart_free hx
  omega

/-- Growth keeps every allocated payload before it. -/
theorem Grows.keeps {a : Nat} {bs : List Blk} {h h' : Heap} (hG : Grows a h h')
    (ha : firstBlkp h + span bs ≤ a + 4) : Keeps (allocs (firstBlkp h) bs) h h' := by
  refine ⟨hG.start, hG.max, hG.listp, fun x hx y hlo hhi => hG.mem y ?_⟩
  have := (cell_bounds (mem_allocs.mp hx).1).2
  omega

/-! ## Requests on the block list -/

/-- The block size of a request: header and footer added, rounded up to 8. -/
def requestSize (size : Nat) : Nat := 8 * ((size + 15) / 8)

/-- The bytes the heap grows by when no free block is large enough. -/
def extension (size : Nat) : Nat := growth (max (requestSize size) CHUNKSIZE / 8)

/-- What `mm_malloc` does to the block list: the offset of the payload and the new list, or
nothing. -/
def allocate (size : Nat) (bs : List Blk) : Option (Nat × List Blk) :=
  if size = 0 then none
  else firstFit 16 (MAX_HEAP - 16) (extension size) (requestSize size) bs

theorem requestSize_mod (size : Nat) : requestSize size % 8 = 0 := by unfold requestSize; omega

theorem le_requestSize (size : Nat) : size + 8 ≤ requestSize size := by unfold requestSize; omega

theorem requestSize_le_extension (size : Nat) : requestSize size ≤ extension size := by
  unfold extension growth requestSize
  omega

theorem extension_ge (size : Nat) : 16 ≤ extension size := by
  unfold extension growth CHUNKSIZE
  omega

/-- The first block that is large enough is carved. -/
theorem allocate_found {size c : Nat} {L R : List Blk} (h1 : 1 ≤ size)
    (hac : requestSize size ≤ c) (hL : ∀ b ∈ L, b.mark = true ∨ b.size < requestSize size) :
    allocate size (L ++ ⟨c, false⟩ :: R)
      = some (span L, L ++ carve 16 (requestSize size) c ++ R) := by
  rw [allocate, if_neg (by omega), firstFit, splitFit_mid hac hL]

/-- Without one the last block grows, if there is room. -/
theorem allocate_none {size : Nat} {bs : List Blk} (h1 : 1 ≤ size)
    (hbs : ∀ b ∈ bs, b.mark = true ∨ b.size < requestSize size) :
    allocate size bs = if span bs + extension size ≤ MAX_HEAP - 16 then
      some (span (joinLeft bs (extension size)).1, (joinLeft bs (extension size)).1
        ++ carve 16 (requestSize size) (joinLeft bs (extension size)).2) else none := by
  rw [allocate, if_neg (by omega), firstFit, splitFit_none.mpr hbs]

/-- A served request adds one allocated block that has room for the payload. -/
theorem allocate_allocs {size o : Nat} {bs bs' : List Blk} (ha : allocate size bs = some (o, bs'))
    (hbs : SizesOk bs) (base : Nat) :
    ∃ s, size + 8 ≤ s ∧
      (∀ x, x ∈ allocs base bs' ↔ x = (base + o, ⟨s, true⟩) ∨ x ∈ allocs base bs) ∧
      ∀ x ∈ allocs base bs, x.1 ≠ base + o := by
  have hext := extension_ge size
  unfold allocate at ha
  split at ha
  · cases ha
  · obtain ⟨s, hs, hmem, hfresh⟩ := allocs_firstFit (requestSize_le_extension size) ha base
      hbs.pos (by omega)
    exact ⟨s, (le_requestSize size).trans hs, hmem, hfresh⟩

/-- A served request keeps a block list coalesced, with positive sizes. -/
theorem allocate_keeps {size o : Nat} {bs bs' : List Blk} (ha : allocate size bs = some (o, bs')) :
    (Coalesced bs → Coalesced bs') ∧ bs' ≠ [] ∧
      ((∀ b ∈ bs, 0 < b.size) → ∀ b ∈ bs', 0 < b.size) := by
  have hle := requestSize_le_extension size
  have hreq := le_requestSize size
  unfold allocate at ha
  split at ha
  · cases ha
  · exact ⟨coalesced_firstFit hle ha, firstFit_ne_nil hle ha,
      fun hpos => pos_firstFit hle ha hpos (by omega) (by omega)⟩

/-- The store never shrinks. -/
theorem span_allocate {size o : Nat} {bs bs' : List Blk} (ha : allocate size bs = some (o, bs')) :
    span bs ≤ span bs' := by
  rw [allocate] at ha
  by_cases h0 : size = 0
  · rw [if_pos h0] at ha
    cases ha
  · rw [if_neg h0] at ha
    obtain ⟨L, c, R, -, rfl, hac, hbs⟩ := firstFit_some (requestSize_le_extension size) ha
    have hcarve : span (L ++ carve 16 (requestSize size) c ++ R) = span (L ++ ⟨c, false⟩ :: R) := by
      simp [span_carve hac]
    rw [hcarve]
    rcases hbs with ⟨rfl, -⟩ | ⟨hbs, -⟩
    · exact le_refl _
    · rw [← hbs, span_release]
      omega

theorem allocate_pos {size : Nat} {bs : List Blk} {r : Nat × List Blk}
    (ha : allocate size bs = some r) : 1 ≤ size := by
  rcases Nat.eq_zero_or_pos size with rfl | h
  · cases ha
  · exact h

/-- Sizes below `2^32 - 23` are adjusted without wrapping around. -/
theorem adjust_eq {size : Nat} (h1 : 1 ≤ size) (hlt : size + 23 < 2 ^ 32) :
    adjust size = requestSize size := by
  unfold adjust requestSize DSIZE
  split
  · omega
  · have hadd : add32 size 8 = size + 8 := add32_eq (by omega)
    rw [hadd, add32_eq (by omega), mul32_eq (by omega)]

/-! ## `mm_init` -/

/-- The four words `mm_init` writes first are a heap with no block. -/
theorem rep_nil {h : Heap} (hA : Arena h) (hbrk : h.memBrk = h.memStartBrk + 16)
    (hlistp : h.heapListp = h.memStartBrk + 8) (hhead : h.word (h.memStartBrk + 4) = tag prologue)
    (hfoot : h.word (h.memStartBrk + 8) = tag prologue) (hepi : h.word (h.memStartBrk + 12) = 1) :
    Rep h [] := by
  have hmax := hA.maxAddr
  unfold MAX_HEAP at hmax
  refine ⟨hA, hlistp, hbrk, by omega, by simp [SizesOk], ?_, ?_⟩
  · intro x hx
    rw [List.mem_singleton.mp hx]
    show h.word (h.memStartBrk + 8 - 4) = tag prologue ∧
      h.word (h.memStartBrk + 8 + 8 - 8) = tag prologue
    exact ⟨hhead, hfoot⟩
  · rw [hbrk]
    exact hepi

/-- The heap with `heap_listp` set. -/
def Heap.setListp (h : Heap) (p : Nat) : Heap := { h with heapListp := p }

@[simp] theorem setListp_memStartBrk (h : Heap) (p : Nat) :
    (h.setListp p).memStartBrk = h.memStartBrk := by rfl
@[simp] theorem setListp_memBrk (h : Heap) (p : Nat) : (h.setListp p).memBrk = h.memBrk := by rfl
@[simp] theorem setListp_word (h : Heap) (p w : Nat) : (h.setListp p).word w = h.word w := by rfl

/-- The heap once `mm_init` has got its first 16 bytes at `p` and written the four words. -/
def Heap.initWords (h : Heap) (p : Nat) : Heap :=
  (((((((h.setBrk (p + 16)).setListp p).setWord p 0).setWord (p + 4) (pack 8 1)).setWord (p + 8)
    (pack 8 1)).setWord (p + 12) (pack 0 1)).setListp (p + 8))

theorem rep_initWords {h : Heap} (hA : Arena h) : Rep (h.initWords h.memStartBrk) [] := by
  have htag : pack 8 1 < 2 ^ 32 := by decide
  have hpro : tag prologue = pack 8 1 := rfl
  have hone : pack 0 1 = 1 := rfl
  have hstart : (h.initWords h.memStartBrk).memStartBrk = h.memStartBrk := rfl
  have hA' : Arena (h.initWords h.memStartBrk) := ⟨hA.aligned, hA.nonnull, hA.maxAddr, hA.fits⟩
  refine rep_nil hA' rfl rfl ?_ ?_ ?_
  all_goals
    rw [hstart]
    simp (disch := omega) only [Heap.initWords, setListp_word, word_setWord, word_setWord_ne, hpro,
      hone]

/-- **`mm_init`** in a fresh arena leaves one free block of `CHUNKSIZE` bytes. -/
theorem mmInit_spec {h : Heap} (hA : Arena h) (hbrk : h.memBrk = h.memStartBrk) :
    Rely Event.NoWrap Event.Ok mmInit h (fun r h' => r = 0 ∧ Rep h' [⟨4096, false⟩] ∧
      h'.memStartBrk = h.memStartBrk ∧ h'.memMaxAddr = h.memMaxAddr) := by
  have hst := hA.aligned
  have hfit := hA.fits
  have hmax := hA.maxAddr
  have hrep := rep_initWords hA
  unfold MAX_HEAP at hmax
  have hinc : (4 * (WSIZE : Int)).toNat = 16 := rfl
  rw [mmInit]
  apply Rely.bind (memSbrk_spec h _)
  rw [hinc, hbrk]
  generalize hs : h.memStartBrk = s at *
  rintro p h1 (⟨-, -, hno⟩ | ⟨rfl, rfl, -, -⟩)
  · unfold WSIZE at hno
    omega
  · have hstart : (h.initWords p).memStartBrk = p := hs
    refine Wp.bind_rely ((wp_modifies _ _).mpr ?_)
    rw [if_neg (by unfold FAILED; omega)]
    simp (disch := omega) only [WSIZE, DSIZE, add32_eq]
    -- a fresh arena has room for the first block
    have hext : Rely Event.NoWrap Event.Ok (extendHeap (CHUNKSIZE / 8)) (h.initWords p)
        (fun r h' => r ≠ NULL ∧ Rep h' [⟨4096, false⟩] ∧ h'.memStartBrk = p ∧
          h'.memMaxAddr = h.memMaxAddr) := by
      have hgrow : growth (CHUNKSIZE / 8) = 4096 := rfl
      refine (extendHeap_spec hrep (by decide) (by decide)).mono (fun r h' hpost => ?_)
      rw [hgrow] at hpost
      rcases hpost with ⟨-, -, hno⟩ | ⟨rfl, hrep', hG, -, -⟩
      · have hno' : h.memMaxAddr < p + 16 + 4096 := hno
        omega
      · have hptr : mergedPtr (h.initWords p) [] 4096 [] = p + 16 := congrArg (· + 16) hstart
        exact ⟨by rw [hptr, NULL]; omega, hrep', hG.start.trans hstart, hG.max⟩
    have hput : ∀ k, k % 4 = 0 → k + 4 ≤ 16 → Event.Ok (.put (p + k) h.memStartBrk (p + 16)) :=
      fun k hk4 hk => ⟨by omega, by omega, by omega⟩
    refine Wp.bind_rely ((wp_put _ _ _).mpr ⟨hput 0 (by omega) (by omega), ?_⟩)
    refine Wp.bind_rely ((wp_put _ _ _).mpr ⟨hput 4 (by omega) (by omega), ?_⟩)
    refine Wp.bind_rely ((wp_put _ _ _).mpr ⟨hput 8 (by omega) (by omega), ?_⟩)
    refine Wp.bind_rely ((wp_put _ _ _).mpr ⟨hput 12 (by omega) (by omega), ?_⟩)
    refine Wp.bind_rely ((wp_modifies _ _).mpr ?_)
    refine hext.bind (fun r h' hpost => ?_)
    rw [if_neg hpost.1]
    exact Rely.pure ⟨rfl, hpost.2⟩

/-! ## `mm_malloc` -/

/-- What a request leaves: everything as it was, or the block list of `allocate` with the
payloads of the other blocks kept. -/
def Served (h : Heap) (bs : List Blk) (size p : Nat) (h' : Heap) : Prop :=
  (allocate size bs = none ∧ p = NULL ∧ h' = h) ∨
    ∃ o bs', allocate size bs = some (o, bs') ∧ p = firstBlkp h + o ∧ Rep h' bs' ∧
      Keeps (allocs (firstBlkp h) bs) h h'

/-- The room for growth, in the block list and in the arena. -/
theorem Rep.room_iff {h : Heap} {bs : List Blk} (hr : Rep h bs) (n : Nat) :
    span bs + n ≤ MAX_HEAP - 16 ↔ h.memBrk + n ≤ h.memMaxAddr := by
  rw [hr.brk, hr.arena.maxAddr]
  unfold MAX_HEAP
  omega

theorem served_none {h : Heap} {bs : List Blk} {size : Nat} (ha : allocate size bs = none) :
    Served h bs size NULL h := Or.inl ⟨ha, rfl, rfl⟩

/-- Placing in a free block of the heap, or of the heap grown. -/
theorem place_free {h h1 : Heap} {bs L R : List Blk} {size c p : Nat}
    (hr : Rep h1 (L ++ ⟨c, false⟩ :: R)) (hp : p = firstBlkp h1 + span L)
    (hc : requestSize size ≤ c) (h1' : 1 ≤ size) (hstart : h1.memStartBrk = h.memStartBrk)
    (halloc : allocate size bs = some (span L, L ++ carve 16 (requestSize size) c ++ R))
    (hK : Keeps (allocs (firstBlkp h) bs) h h1)
    (hsame : allocs (firstBlkp h) bs = allocs (firstBlkp h) (L ++ ⟨c, false⟩ :: R)) :
    Wp Event.Ok (place p (requestSize size)) h1 (fun _ h' => Served h bs size p h') := by
  have h8 := requestSize_mod size
  have hle := le_requestSize size
  have hfirst : firstBlkp h1 = firstBlkp h := congrArg (· + 16) hstart
  have hal := (hr.block (cell_mid (firstBlkp h1) L ⟨c, false⟩ R)).lower
  refine (place_spec hr hp h8 (by omega) hc).mono (fun _ h' hpost => ?_)
  refine Or.inr ⟨_, _, halloc, by rw [hp, hfirst], hpost.1, hK.trans ?_⟩
  rw [hsame, ← hfirst]
  exact hpost.2.keeps_free (by omega) (by omega)

/-- Placing in the block that the heap has grown by, with the free block before it. -/
theorem place_grown {h h' : Heap} {bs : List Blk} {size : Nat} (h1 : 1 ≤ size)
    (hrep : Rep h' (release bs (extension size) []))
    (hG : Grows (mergedPtr h bs (extension size) [] - 4) h h')
    (halloc : allocate size bs = some (span (joinLeft bs (extension size)).1,
      (joinLeft bs (extension size)).1
        ++ carve 16 (requestSize size) (joinLeft bs (extension size)).2)) :
    Wp Event.Ok (place (mergedPtr h bs (extension size) []) (requestSize size)) h'
      (fun _ h'' => Served h bs size (mergedPtr h bs (extension size) []) h'') := by
  rw [← List.append_nil (_ ++ carve _ _ _)] at halloc
  rw [release_nil] at hrep
  have hfirst : firstBlkp h' = firstBlkp h := congrArg (· + 16) hG.start
  refine place_free hrep ?_ ?_ h1 hG.start halloc ?_ ?_
  · rw [hfirst]
    rfl
  · calc requestSize size ≤ extension size := requestSize_le_extension size
      _ ≤ (joinLeft bs (extension size)).2 := le_joinLeft bs _
  · rw [← allocs_joinLeft (firstBlkp h) bs (extension size)]
    apply hG.keeps
    show mergedPtr h bs (extension size) [] ≤ mergedPtr h bs (extension size) [] - 4 + 4
    omega
  · rw [allocs_append, allocs_free, allocs_nil, List.append_nil, allocs_joinLeft]

/-- **`mm_malloc`**, for the sizes that are adjusted without wrapping around. -/
theorem mmMalloc_spec {h : Heap} {bs : List Blk} {size : Nat} (hr : Rep h bs)
    (hlim : size + 23 < 2 ^ 32) :
    Rely Event.NoWrap Event.Ok (mmMalloc size) h (Served h bs size) := by
  rw [mmMalloc]
  by_cases h0 : size = 0
  · rw [if_pos h0]
    exact Rely.pure (served_none (if_pos h0))
  · have hpos : 0 < firstBlkp h := by unfold firstBlkp; omega
    rw [if_neg h0]
    show Rely _ _ (findFit (adjust size) >>= _) h _
    rw [adjust_eq (by omega) hlim]
    apply ((findFit_spec _ hr).rely).bind
    rintro p h1 ⟨rfl, rfl⟩
    rw [fitPtr]
    rcases hs : splitFit (requestSize size) bs with _ | ⟨L, c, R⟩
    · -- no free block is large enough: the heap must grow
      have h1' : 1 ≤ size := Nat.one_le_iff_ne_zero.mpr h0
      have hfit := allocate_none h1' (splitFit_none.mp hs)
      have hwords : 2 ≤ max (requestSize size) CHUNKSIZE / DSIZE ∧
          max (requestSize size) CHUNKSIZE / DSIZE + 1 < 2 ^ 29 := by
        unfold requestSize CHUNKSIZE DSIZE
        omega
      simp only
      rw [if_neg (by simp)]
      apply (extendHeap_spec hr hwords.1 hwords.2).bind
      rintro p h2 (⟨rfl, rfl, hno⟩ | ⟨rfl, hrep, hG, -, hle⟩)
      · rw [if_pos rfl]
        refine Rely.pure (served_none ?_)
        rw [hfit, if_neg]
        intro hle
        exact absurd ((hr.room_iff _).mp hle) (Nat.not_le.mpr hno)
      · have hne : mergedPtr h1 bs (growth (max (requestSize size) CHUNKSIZE / DSIZE)) [] ≠ NULL := by
          unfold mergedPtr NULL
          omega
        rw [if_neg hne]
        have halloc := hfit.trans (if_pos ((hr.room_iff _).mpr hle))
        have hplace := place_grown h1' hrep hG halloc
        exact Wp.rely ((wp_bind _ _ _).mpr (hplace.mono fun _ _ hs' => (wp_pure _).mpr hs'))
    · -- the first free block that is large enough
      obtain ⟨rfl, hac, hL⟩ := splitFit_some hs
      have hne : firstBlkp h1 + span L ≠ NULL := by unfold NULL; omega
      have halloc := allocate_found (R := R) (by omega) hac hL
      have hplace := place_free (h := h1) hr rfl hac (by omega) rfl halloc (Keeps.refl _ _) rfl
      simp only
      rw [if_pos hne]
      refine Wp.rely ((wp_bind _ _ _).mpr (hplace.mono (fun _ h' hserved => ?_)))
      exact (wp_pure _).mpr hserved

/-- Sizes from `2^32 - 15` on are adjusted to 0 or 8, which any free block would serve. -/
theorem adjust_wrap {size : Nat} (hlo : 2 ^ 32 - 15 ≤ size) (hlt : size < 2 ^ 32) :
    adjust size ≤ 8 := by
  unfold adjust DSIZE mul32 add32
  rw [if_neg (by omega)]
  omega

/-- With no free block and no room for a `CHUNKSIZE`, such a size is refused as well. -/
theorem mmMalloc_stuck {h : Heap} {bs : List Blk} {size : Nat} (hr : Rep h bs)
    (hlo : 2 ^ 32 - 15 ≤ size) (hlt : size < 2 ^ 32) (hfull : ∀ b ∈ bs, b.mark = true)
    (hno : h.memMaxAddr < h.memBrk + 4096) :
    Rely Event.NoWrap Event.Ok (mmMalloc size) h (Served h bs size) := by
  have hadj := adjust_wrap hlo hlt
  have hnone : ∀ a, splitFit a bs = none := fun a => splitFit_none.mpr (fun b hb => Or.inl (hfull b hb))
  have halloc : allocate size bs = none := by
    have hle := hr.brk_le
    have hfit := hr.arena.fits
    have hsize := calc size + 8
      _ ≤ requestSize size := le_requestSize size
      _ ≤ extension size := requestSize_le_extension size
    rw [allocate_none (by omega) (fun b hb => Or.inl (hfull b hb)), if_neg]
    rw [hr.room_iff]
    omega
  rw [mmMalloc, if_neg (by omega)]
  show Rely _ _ (findFit (adjust size) >>= _) h _
  apply ((findFit_spec _ hr).rely).bind
  rintro p h1 ⟨rfl, rfl⟩
  have hwords : max (adjust size) CHUNKSIZE / DSIZE = 512 := by
    unfold CHUNKSIZE DSIZE
    omega
  rw [fitPtr, hnone]
  simp only
  rw [if_neg (by simp), hwords]
  apply (extendHeap_spec hr (by omega) (by omega)).bind
  have hgrow : growth 512 = 4096 := rfl
  rw [hgrow]
  rintro p h2 (⟨rfl, rfl, -⟩ | ⟨-, -, -, -, hle⟩)
  · rw [if_pos rfl]
    exact Rely.pure (served_none halloc)
  · omega

end MallocLab
