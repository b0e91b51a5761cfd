import MallocLab.Basic.MM
import MallocLab.Lib.BlockList

set_option autoImplicit false

/-! # The heap as a block list

`Rep h bs` says that the raw words of the heap `h` encode the block list `bs`: after the
8-byte allocated prologue, `bs` is laid end to end up to the break, every block carries its
tag in its header and in its footer, and the last word of the heap is the epilogue.

The rule that every operation uses is `Rep.replace`: when memory changed only between the
header and the last word of some consecutive blocks, and new blocks of the same total size
are tagged there, the heap encodes the list with those blocks replaced. What lies inside the
replaced interval (stale tags of merged blocks among it) is not asked about.
-/

namespace MallocLab

open Logged Words Tiling BlockList

/-! ## Tag words -/

theorem sizeField_eq {w : Nat} (hw : w < 2 ^ 32) : sizeField w = 8 * (w / 8) := by
  apply Nat.eq_of_testBit_eq
  intro i
  have hmask : (0xFFFFFFF8 : Nat) = 2 ^ 3 * (2 ^ 29 - 1) := by norm_num
  have hdiv : 8 * (w / 8) = 2 ^ 3 * (w / 2 ^ 3) := by norm_num
  rw [sizeField, hmask, hdiv, Nat.testBit_and, Nat.testBit_two_pow_mul, Nat.testBit_two_pow_mul,
    Nat.testBit_two_pow_sub_one, Nat.testBit_div_two_pow]
  by_cases hi : 3 ≤ i
  · have hadd : i - 3 + 3 = i := by omega
    rw [hadd]
    by_cases hlt : i < 32
    · have : i - 3 < 29 := by omega
      simp [hi, this]
    · have hz : w.testBit i = false :=
        Nat.testBit_lt_two_pow (hw.trans_le (Nat.pow_le_pow_right (by norm_num) (by omega)))
      simp [hz]
  · simp [hi]

theorem allocField_eq (w : Nat) : allocField w = w % 2 := Nat.and_one_is_mod w

@[simp] theorem pack_zero (n : Nat) : pack n 0 = n := Nat.or_zero n

theorem pack_one {n : Nat} (h : n % 8 = 0) : pack n 1 = n + 1 := by
  obtain ⟨k, rfl⟩ : ∃ k, n = 2 ^ 3 * k := ⟨n / 8, by omega⟩
  exact (Nat.two_pow_add_eq_or_of_lt (by norm_num) k).symm

/-- The tag word of a block. -/
def tag (b : Blk) : Nat := pack b.size (if b.mark then 1 else 0)

@[simp] theorem tag_free (n : Nat) : tag ⟨n, false⟩ = n := pack_zero n

@[simp] theorem tag_alloc (n : Nat) : tag ⟨n, true⟩ = pack n 1 := rfl

theorem sizeField_free {n : Nat} (h8 : n % 8 = 0) (hlt : n < 2 ^ 32) : sizeField n = n := by
  rw [sizeField_eq hlt]
  omega

theorem sizeField_alloc {n : Nat} (h8 : n % 8 = 0) (hlt : n < 2 ^ 32) :
    sizeField (pack n 1) = n := by
  rw [pack_one h8, sizeField_eq (by omega)]
  omega

theorem allocField_free {n : Nat} (h8 : n % 8 = 0) : allocField n = 0 := by
  rw [allocField_eq]
  omega

theorem allocField_alloc {n : Nat} (h8 : n % 8 = 0) : allocField (pack n 1) = 1 := by
  rw [pack_one h8, allocField_eq]
  omega

theorem sizeField_tag {b : Blk} (h8 : b.size % 8 = 0) (hlt : b.size < 2 ^ 32) :
    sizeField (tag b) = b.size := by
  obtain ⟨n, _ | _⟩ := b
  · rw [tag_free]
    exact sizeField_free h8 hlt
  · exact sizeField_alloc h8 hlt

theorem allocField_tag {b : Blk} (h8 : b.size % 8 = 0) :
    allocField (tag b) = if b.mark then 1 else 0 := by
  obtain ⟨n, _ | _⟩ := b
  · rw [tag_free]
    exact allocField_free h8
  · exact allocField_alloc h8

/-! ## Edits of an interval -/

/-- `h'` is `h` but for the bytes of `[a, e)`. -/
structure Edits (a e : Nat) (h h' : Heap) : Prop where
  start : h'.memStartBrk = h.memStartBrk
  brk : h'.memBrk = h.memBrk
  max : h'.memMaxAddr = h.memMaxAddr
  listp : h'.heapListp = h.heapListp
  mem : AgreeOff a e h.mem h'.mem

theorem Edits.refl (a e : Nat) (h : Heap) : Edits a e h h :=
  ⟨rfl, rfl, rfl, rfl, AgreeOff.refl a e h.mem⟩

theorem Edits.trans {a e : Nat} {h h' h'' : Heap} (h1 : Edits a e h h')
    (h2 : Edits a e h' h'') : Edits a e h h'' :=
  ⟨h2.start.trans h1.start, h2.brk.trans h1.brk, h2.max.trans h1.max,
    h2.listp.trans h1.listp, h1.mem.trans h2.mem⟩

theorem Edits.mono {a e a' e' : Nat} {h h' : Heap} (hE : Edits a e h h') (ha : a' ≤ a)
    (he : e ≤ e') : Edits a' e' h h' :=
  ⟨hE.start, hE.brk, hE.max, hE.listp, hE.mem.mono ha he⟩

theorem Edits.setWord {a e p v : Nat} {h h' : Heap} (hE : Edits a e h h') (ha : a ≤ p)
    (he : p + 4 ≤ e) : Edits a e h (h'.setWord p v) :=
  ⟨hE.start, hE.brk, hE.max, hE.listp, hE.mem.storeWord ha he⟩

theorem Edits.word {a e w : Nat} {h h' : Heap} (hE : Edits a e h h')
    (hw : w + 4 ≤ a ∨ e ≤ w) : h'.word w = h.word w := hE.mem.loadWord hw

theorem Edits.arena {a e : Nat} {h h' : Heap} (hE : Edits a e h h') (hA : Arena h) :
    Arena h' :=
  ⟨by rw [hE.start]; exact hA.aligned, by rw [hE.start]; exact hA.nonnull,
    by rw [hE.max, hE.start]; exact hA.maxAddr, by rw [hE.max]; exact hA.fits⟩

/-! ## The representation -/

def prologue : Blk := ⟨DSIZE, true⟩

/-- Header and footer of the block `x.2` at the block pointer `x.1` hold its tag. -/
def Tagged (h : Heap) (x : Nat × Blk) : Prop :=
  h.word (x.1 - 4) = tag x.2 ∧ h.word (x.1 + x.2.size - 8) = tag x.2

/-- The sizes of blocks after the prologue. -/
def SizesOk (bs : List Blk) : Prop := ∀ b ∈ bs, b.size % 8 = 0 ∧ 16 ≤ b.size

/-- The block pointer of the first block after the prologue. -/
def firstBlkp (h : Heap) : Nat := h.memStartBrk + 16

/-- No block starts at the null address. -/
theorem firstBlkp_add_ne (h : Heap) (o : Nat) : firstBlkp h + o ≠ NULL := by
  unfold firstBlkp NULL
  omega

theorem ne_null_of_mem_allocs {h : Heap} {bs : List Blk} {x : Nat × Blk}
    (hx : x ∈ allocs (firstBlkp h) bs) : x.1 ≠ NULL := by
  have hle := (cell_bounds (mem_allocs.mp hx).1).1
  unfold firstBlkp at hle
  unfold NULL
  omega

/-- The heap `h` encodes the block list `bs`. -/
structure Rep (h : Heap) (bs : List Blk) : Prop where
  arena : Arena h
  listp : h.heapListp = h.memStartBrk + 8
  brk : h.memBrk = h.memStartBrk + 16 + span bs
  brk_le : h.memBrk ≤ h.memMaxAddr
  sizes : SizesOk bs
  tags : ∀ x ∈ cells (h.memStartBrk + 8) (prologue :: bs), Tagged h x
  epilogue : h.word (h.memBrk - 4) = 1

theorem sizesOk_append {L R : List Blk} : SizesOk (L ++ R) ↔ SizesOk L ∧ SizesOk R :=
  List.forall_mem_append

theorem sizesOk_cons {b : Blk} {R : List Blk} :
    SizesOk (b :: R) ↔ (b.size % 8 = 0 ∧ 16 ≤ b.size) ∧ SizesOk R := List.forall_mem_cons

theorem SizesOk.pos {bs : List Blk} (h : SizesOk bs) : ∀ b ∈ bs, 0 < b.size :=
  fun b hb => by have := h b hb; omega

theorem SizesOk.span {bs : List Blk} (h : SizesOk bs) : span bs % 8 = 0 := by
  induction bs with
  | nil => rfl
  | cons b bs ih =>
      obtain ⟨hb, hbs⟩ := sizesOk_cons.mp h
      have := ih hbs
      simp only [span_cons] at *
      omega

/-- The bounds and the tags of one block of a represented heap. -/
structure BlockAt (h : Heap) (bp : Nat) (b : Blk) : Prop where
  aligned : bp % 8 = 0
  size8 : b.size % 8 = 0
  size16 : 16 ≤ b.size
  lower : h.memStartBrk + 16 ≤ bp
  upper : bp + b.size ≤ h.memBrk
  header : h.word (bp - 4) = tag b
  footer : h.word (bp + b.size - 8) = tag b

theorem Rep.brk_lt {h : Heap} {bs : List Blk} (hr : Rep h bs) : h.memBrk < 2 ^ 32 :=
  hr.brk_le.trans_lt hr.arena.fits

theorem Rep.block {h : Heap} {bs : List Blk} (hr : Rep h bs) {x : Nat × Blk}
    (hx : x ∈ cells (firstBlkp h) bs) : BlockAt h x.1 x.2 := by
  obtain ⟨L, R, hbs, ho⟩ := cell_split hx
  have hb := cell_bounds hx
  have hs := hr.sizes x.2 (mem_of_mem_cells hx)
  have hL : span L % 8 = 0 := by
    have := hr.sizes
    rw [hbs] at this
    exact (sizesOk_append.mp this).1.span
  have hbrk := hr.brk
  have h8 := hr.arena.aligned
  have ht := hr.tags x (List.mem_cons_of_mem _ hx)
  unfold firstBlkp at *
  exact ⟨by omega, hs.1, hs.2, by omega, by omega, ht.1, ht.2⟩

/-- The blocks `bs` laid from `bp` up to the epilogue: what a walk over the heap meets. -/
structure Chain (h : Heap) (bp : Nat) (bs : List Blk) : Prop where
  aligned : bp % 8 = 0
  lower : h.memStartBrk + 8 ≤ bp
  ends : bp + span bs = h.memBrk
  upper : h.memBrk < 2 ^ 32
  tags : ∀ x ∈ cells bp bs, Tagged h x ∧ x.2.size % 8 = 0 ∧ 8 ≤ x.2.size
  epilogue : h.word (h.memBrk - 4) = 1

theorem Chain.head {h : Heap} {bp : Nat} {b : Blk} {bs : List Blk} (hc : Chain h bp (b :: bs)) :
    h.word (bp - 4) = tag b ∧ b.size % 8 = 0 ∧ 8 ≤ b.size ∧ bp + b.size ≤ h.memBrk := by
  obtain ⟨⟨hhead, -⟩, h8, hle⟩ := hc.tags (bp, b) List.mem_cons_self
  have hends := hc.ends
  rw [span_cons] at hends
  exact ⟨hhead, h8, hle, by omega⟩

theorem Chain.tail {h : Heap} {bp : Nat} {b : Blk} {bs : List Blk} (hc : Chain h bp (b :: bs)) :
    Chain h (bp + b.size) bs := by
  obtain ⟨-, h8, hle, -⟩ := hc.head
  have hal := hc.aligned
  have hlo := hc.lower
  have hends := hc.ends
  rw [span_cons] at hends
  exact ⟨by omega, by omega, by omega, hc.upper, fun x hx => hc.tags x (List.mem_cons_of_mem _ hx),
    hc.epilogue⟩

theorem Chain.drop {h : Heap} {bp : Nat} {L R : List Blk} (hc : Chain h bp (L ++ R)) :
    Chain h (bp + span L) R := by
  induction L generalizing bp with
  | nil => exact hc
  | cons b L ih =>
      rw [span_cons, ← Nat.add_assoc]
      exact ih hc.tail

/-- The walk that starts at the prologue. -/
theorem Rep.chain {h : Heap} {bs : List Blk} (hr : Rep h bs) :
    Chain h (h.memStartBrk + 8) (prologue :: bs) := by
  have h8 := hr.arena.aligned
  have hbrk := hr.brk
  refine ⟨by omega, Nat.le_refl _, ?_, hr.brk_lt, fun x hx => ⟨hr.tags x hx, ?_⟩, hr.epilogue⟩
  · rw [span_cons, hbrk]
    show h.memStartBrk + 8 + (8 + span bs) = h.memStartBrk + 16 + span bs
    omega
  · rcases List.mem_cons.mp (mem_of_mem_cells hx) with hp | hp
    · rw [hp]
      exact ⟨rfl, Nat.le_refl 8⟩
    · have := hr.sizes x.2 hp
      omega

theorem SizesOk.length {bs : List Blk} (h : SizesOk bs) : 16 * bs.length ≤ Tiling.span bs := by
  induction bs with
  | nil => exact Nat.le_refl 0
  | cons b bs ih =>
      obtain ⟨hb, hbs⟩ := sizesOk_cons.mp h
      have := ih hbs
      simp only [span_cons, List.length_cons] at *
      omega

/-- A walk of `2^32` steps has seen every block. -/
theorem Rep.length_lt {h : Heap} {bs : List Blk} (hr : Rep h bs) :
    (prologue :: bs).length < 2 ^ 32 := by
  have hlen := hr.sizes.length
  have hlt := hr.brk_lt
  have hbrk := hr.brk
  rw [List.length_cons]
  omega

/-- What the words before a block say: `p` is the block before it, the prologue when there is
none. It is merged with exactly when it is free. -/
theorem Rep.before {h : Heap} {L R : List Blk} (hr : Rep h (L ++ R)) :
    ∃ p : Blk, p.size % 8 = 0 ∧ h.memStartBrk + 8 + p.size ≤ firstBlkp h + span L ∧
      h.word (firstBlkp h + span L - 8) = tag p ∧
      h.word (firstBlkp h + span L - p.size - 4) = tag p ∧
      ((p.mark = true ∧ ∀ n, joinLeft L n = (L, n)) ∨
        (p.mark = false ∧ ∃ L', L = L' ++ [p] ∧ ∀ n, joinLeft L n = (L', n + p.size))) := by
  rcases List.eq_nil_or_concat' L with rfl | ⟨L', p, rfl⟩
  · -- the prologue
    obtain ⟨hhead, hfoot⟩ := hr.tags (h.memStartBrk + 8, prologue) List.mem_cons_self
    refine ⟨prologue, rfl, ?_, ?_, ?_, Or.inl ⟨rfl, fun n => rfl⟩⟩
    · simp [firstBlkp, prologue, DSIZE]
    · rw [← hfoot]
      rfl
    · rw [← hhead]
      congr 1
  · have hp : (firstBlkp h + span L', p) ∈ cells (firstBlkp h) (L' ++ [p] ++ R) := by
      rw [List.append_assoc]
      exact cell_mid _ L' p R
    obtain ⟨-, h8, h16, hlo, -, hhead, hfoot⟩ := hr.block hp
    simp only at h8 h16 hlo hhead hfoot
    have hspan : firstBlkp h + span (L' ++ [p]) = firstBlkp h + span L' + p.size := by
      simp [Nat.add_assoc]
    have hback : firstBlkp h + span L' + p.size - p.size - 4 = firstBlkp h + span L' - 4 := by
      omega
    rw [hspan]
    refine ⟨p, h8, by omega, hfoot, by rw [hback]; exact hhead, ?_⟩
    obtain ⟨c, _ | _⟩ := p
    · exact Or.inr ⟨rfl, L', rfl, fun n => by simp [joinLeft, joinRight]⟩
    · exact Or.inl ⟨rfl, fun n => by simp [joinLeft, joinRight]⟩

/-- What the header after the blocks `L` says: it is the epilogue's or a block's, and that
block is merged with exactly when it is free. -/
theorem Rep.after {h : Heap} {L R : List Blk} (hr : Rep h (L ++ R)) :
    (allocField (h.word (firstBlkp h + span L - 4)) = 1 ∧ ∀ n, joinRight n R = (n, R)) ∨
      ∃ c R', R = ⟨c, false⟩ :: R' ∧ BlockAt h (firstBlkp h + span L) ⟨c, false⟩ ∧
        ∀ n, joinRight n R = (n + c, R') := by
  rcases R with _ | ⟨⟨c, _ | _⟩, R'⟩
  · have hepi := hr.epilogue
    rw [hr.brk, List.append_nil] at hepi
    refine Or.inl ⟨?_, fun n => rfl⟩
    rw [firstBlkp, hepi]
    rfl
  · exact Or.inr ⟨c, R', rfl, hr.block (cell_mid _ L _ R'), fun n => rfl⟩
  · have hB := hr.block (cell_mid _ L ⟨c, true⟩ R')
    refine Or.inl ⟨?_, fun n => rfl⟩
    rw [hB.header]
    exact allocField_alloc hB.size8

theorem Tagged.congr {h h' : Heap} {x : Nat × Blk} (ht : Tagged h x)
    (hh : h'.word (x.1 - 4) = h.word (x.1 - 4))
    (hf : h'.word (x.1 + x.2.size - 8) = h.word (x.1 + x.2.size - 8)) : Tagged h' x :=
  ⟨hh.trans ht.1, hf.trans ht.2⟩

theorem mem_cells_three {o : Nat} {L X R : List Blk} {x : Nat × Blk} :
    x ∈ cells (o + 8) (prologue :: (L ++ X ++ R)) ↔
      x ∈ cells (o + 8) (prologue :: L) ∨ x ∈ cells (o + 16 + span L) X ∨
        x ∈ cells (o + 16 + span L + span X) R := by
  simp [prologue, DSIZE, Nat.add_assoc, or_assoc]

/-- **Replacing consecutive blocks.** -/
theorem Rep.replace {h h' : Heap} {L X Y R : List Blk} (hr : Rep h (L ++ X ++ R))
    (hE : Edits (firstBlkp h + span L - 4) (firstBlkp h + span L + span X - 4) h h')
    (hspan : span Y = span X) (hsizes : SizesOk Y)
    (htags : ∀ x ∈ cells (firstBlkp h + span L) Y, Tagged h' x) : Rep h' (L ++ Y ++ R) := by
  have hspan' : span (L ++ Y ++ R) = span (L ++ X ++ R) := by
    simp only [span_append]
    omega
  obtain ⟨hLX, hR⟩ := sizesOk_append.mp hr.sizes
  have hL := (sizesOk_append.mp hLX).1
  have hX := (sizesOk_append.mp hLX).2
  have hlen : span X % 8 = 0 := hX.span
  refine ⟨hE.arena hr.arena, by rw [hE.listp, hE.start, hr.listp], ?_, ?_, ?_, ?_, ?_⟩
  · rw [hE.brk, hE.start, hspan', hr.brk]
  · rw [hE.brk, hE.max]
    exact hr.brk_le
  · exact sizesOk_append.mpr ⟨sizesOk_append.mpr ⟨hL, hsizes⟩, hR⟩
  · -- blocks before and after the interval keep their words, the new ones are tagged
    rw [hE.start]
    intro x hx
    rcases mem_cells_three.mp hx with hx | hx | hx
    · have ht := hr.tags x (mem_cells_three.mpr (Or.inl hx))
      have hb := cell_bounds hx
      have hsz : 8 ≤ x.2.size := by
        rcases List.mem_cons.mp (mem_of_mem_cells hx) with hp | hp
        · rw [hp]
          exact Nat.le_refl 8
        · have := hL x.2 hp
          omega
      simp only [span_cons, prologue, DSIZE] at hb
      unfold firstBlkp at hE
      refine ht.congr (hE.word (Or.inl ?_)) (hE.word (Or.inl ?_)) <;> omega
    · exact htags x hx
    · rw [hspan] at hx
      have ht := hr.tags x (mem_cells_three.mpr (Or.inr (Or.inr hx)))
      have hb := cell_bounds hx
      have hsz := hR x.2 (mem_of_mem_cells hx)
      unfold firstBlkp at hE
      refine ht.congr (hE.word (Or.inr ?_)) (hE.word (Or.inr ?_)) <;> omega
  · -- the epilogue lies behind the interval
    rw [hE.brk, ← hr.epilogue]
    refine hE.word (Or.inr ?_)
    have := hr.brk
    simp only [firstBlkp, span_append] at *
    omega

/-- **One block in place of several.** The blocks `X` become the block `b` when the first
header word and the last footer word hold its tag. -/
theorem Rep.merge {h h' : Heap} {L X R : List Blk} {b : Blk} (hr : Rep h (L ++ X ++ R))
    (hE : Edits (firstBlkp h + span L - 4) (firstBlkp h + span L + span X - 4) h h')
    (hsize : b.size = span X) (h16 : 16 ≤ b.size)
    (hhead : h'.word (firstBlkp h + span L - 4) = tag b)
    (hfoot : h'.word (firstBlkp h + span L + b.size - 8) = tag b) :
    Rep h' (L ++ b :: R) := by
  have hX := (sizesOk_append.mp (sizesOk_append.mp hr.sizes).1).2.span
  have h := hr.replace (Y := [b]) hE ?_ ?_ ?_
  · rw [List.append_assoc] at h
    exact h
  · simp [hsize]
  · intro b' hb'
    rw [List.mem_singleton.mp hb', hsize]
    exact ⟨hX, hsize ▸ h16⟩
  · intro x hx
    rw [List.mem_singleton.mp hx]
    exact ⟨hhead, hfoot⟩

/-- **Writing both tags.** The blocks `X` become the block `b` when its tag is written to the
first header word and the last footer word, whichever comes first. -/
theorem Rep.setTags {h : Heap} {L X R : List Blk} {b : Blk} {p q v : Nat}
    (hr : Rep h (L ++ X ++ R)) (hp : p = firstBlkp h + span L) (hq : q + 8 = p + b.size)
    (hsize : b.size = span X) (h16 : 16 ≤ b.size) (hv : tag b = v) (hlt : v < 2 ^ 32) :
    (Rep ((h.setWord (p - 4) v).setWord q v) (L ++ b :: R) ∧
      Edits (p - 4) (p + b.size - 4) h ((h.setWord (p - 4) v).setWord q v)) ∧
    (Rep ((h.setWord q v).setWord (p - 4) v) (L ++ b :: R) ∧
      Edits (p - 4) (p + b.size - 4) h ((h.setWord q v).setWord (p - 4) v)) := by
  have h4 : 4 ≤ p := by
    unfold firstBlkp at hp
    omega
  have hfoot : p + b.size - 8 = q := by omega
  have hin : p - 4 ≤ q ∧ q + 4 ≤ p + b.size - 4 ∧ p - 4 + 4 ≤ p + b.size - 4 := by omega
  have happart : p - 4 + 4 ≤ q := by omega
  have hfront := ((Edits.refl (p - 4) (p + b.size - 4) h).setWord (v := v) (le_refl _) hin.2.2).setWord
    (v := v) hin.1 hin.2.1
  have hback := ((Edits.refl (p - 4) (p + b.size - 4) h).setWord (v := v) hin.1 hin.2.1).setWord
    (v := v) (le_refl _) hin.2.2
  subst hp
  refine ⟨⟨hr.merge (hsize ▸ hfront) hsize h16 ?_ ?_, hfront⟩,
    ⟨hr.merge (hsize ▸ hback) hsize h16 ?_ ?_, hback⟩⟩
  · rw [hv, word_setWord_ne (Or.inl happart), word_setWord hlt]
  · rw [hv, hfoot, word_setWord hlt]
  · rw [hv, word_setWord hlt]
  · rw [hv, hfoot, word_setWord_ne (Or.inr happart), word_setWord hlt]

end MallocLab
