import MallocLab.Lib.FirstFit

set_option autoImplicit false

/-! # How far a first-fit store grows

A first-fit store grows only when no free block has the units that are asked for. Two measures
bound what it is then:

* `held bs`, the total of its allocated blocks: between two allocated blocks a coalesced store
  has one free block at most, so a store where `a` units do not fit is not larger than `held bs`
  and one hole below `a` for each allocated block and one more (`span_le_held`);
* `front bs`, what lies before a free block at the end: a request moves it by its own size at
  most, and a free does not move it up (`front_firstFit`, `front_freeAt`).

So a store is as large as the blocks that are held at one time, or as all requests together,
whichever is less; it does not grow with the number of requests.
-/

namespace BlockList

open Tiling

/-! ## What is held -/

/-- The allocated blocks. -/
def heldBlocks (bs : List Blk) : List Blk := bs.filter (·.mark)

/-- Their total size. -/
def held (bs : List Blk) : Nat := span (heldBlocks bs)

theorem allocs_snd (o : Nat) (bs : List Blk) : (allocs o bs).map Prod.snd = heldBlocks bs := by
  induction bs generalizing o with
  | nil => rfl
  | cons b bs ih =>
      obtain ⟨n, _ | _⟩ := b
      · exact ih (o + n)
      · show (⟨n, true⟩ : Blk) :: (allocs (o + n) bs).map Prod.snd = ⟨n, true⟩ :: heldBlocks bs
        rw [ih]

theorem heldBlocks_free (n : Nat) (bs : List Blk) :
    heldBlocks (⟨n, false⟩ :: bs) = heldBlocks bs := rfl

theorem heldBlocks_alloc (n : Nat) (bs : List Blk) :
    heldBlocks (⟨n, true⟩ :: bs) = ⟨n, true⟩ :: heldBlocks bs := rfl

theorem held_le_span (bs : List Blk) : held bs ≤ span bs := by
  induction bs with
  | nil => exact le_refl _
  | cons b bs ih =>
      obtain ⟨n, _ | _⟩ := b
      · rw [held, heldBlocks_free, span_cons]
        exact ih.trans (Nat.le_add_left _ _)
      · rw [held, heldBlocks_alloc, span_cons, span_cons]
        exact Nat.add_le_add_left ih _

/-- Free blocks are below `a`, and no two of them are neighbours: one behind each allocated block,
and one in front. -/
theorem span_le_holes {a : Nat} {bs : List Blk} (hbs : Coalesced bs)
    (hno : ∀ b ∈ bs, b.mark = true ∨ b.size < a) :
    span bs ≤ held bs + (heldBlocks bs).length * (a - 1) +
      (if ∃ b ∈ bs.head?, b.mark = false then a - 1 else 0) := by
  induction bs with
  | nil => simp
  | cons b bs ih =>
      obtain ⟨hb, hno'⟩ := List.forall_mem_cons.mp hno
      have hrest := ih hbs.tail hno'
      rw [span_cons]
      cases hmark : b.mark with
      | true =>
          have hheld : heldBlocks (b :: bs) = b :: heldBlocks bs :=
            List.filter_cons_of_pos hmark
          have hif : (if ∃ b ∈ bs.head?, b.mark = false then a - 1 else 0) ≤ a - 1 := by
            split <;> omega
          rw [held, hheld, span_cons, List.length_cons, Nat.add_mul, Nat.one_mul]
          rw [held] at hrest
          omega
      | false =>
          have hheld : heldBlocks (b :: bs) = heldBlocks bs :=
            List.filter_cons_of_neg (by rw [hmark]; decide)
          -- behind a free block the list starts with an allocated one, or ends
          have hnext : ¬∃ c ∈ bs.head?, c.mark = false := by
            rintro ⟨c, hc, hfree⟩
            obtain ⟨bs', rfl⟩ := List.head?_eq_some_iff.mp hc
            rcases (List.isChain_cons_cons.mp hbs).1 with h | h
            · rw [hmark] at h
              cases h
            · rw [hfree] at h
              cases h
          have hhead : ∃ c ∈ (b :: bs).head?, c.mark = false := ⟨b, rfl, hmark⟩
          have hsmall : b.size < a := hb.resolve_left (by rw [hmark]; decide)
          rw [if_neg hnext] at hrest
          rw [held, hheld, if_pos hhead]
          rw [held] at hrest
          omega

/-- **Holes.** A coalesced store where `a` units do not fit. -/
theorem span_le_held {a : Nat} {bs : List Blk} (hbs : Coalesced bs) (hno : splitFit a bs = none) :
    span bs ≤ held bs + ((heldBlocks bs).length + 1) * (a - 1) := by
  have hle := span_le_holes hbs (splitFit_none.mp hno)
  have hif : (if ∃ b ∈ bs.head?, b.mark = false then a - 1 else 0) ≤ a - 1 := by
    split <;> omega
  calc span bs
      ≤ held bs + (heldBlocks bs).length * (a - 1) +
          (if ∃ b ∈ bs.head?, b.mark = false then a - 1 else 0) := hle
    _ ≤ held bs + (heldBlocks bs).length * (a - 1) + (a - 1) := Nat.add_le_add_left hif _
    _ = held bs + ((heldBlocks bs).length + 1) * (a - 1) := by ring

theorem carved_lt {m a c : Nat} (hm : 0 < m) (hac : a ≤ c) : carved m a c < a + m := by
  unfold carved
  split <;> omega

/-- The store that is carved has the cells that there were. -/
theorem allocs_firstFit_eq {m room n a o : Nat} {bs bs' : List Blk} (han : a ≤ n)
    (h : firstFit m room n a bs = some (o, bs')) (base : Nat) :
    ∃ L c R, o = span L ∧ a ≤ c ∧ bs' = L ++ carve m a c ++ R ∧
      allocs base (L ++ ⟨c, false⟩ :: R) = allocs base bs := by
  obtain ⟨L, c, R, ho, hbs', hac, ⟨rfl, -⟩ | ⟨hrel, -⟩⟩ := firstFit_some han h
  · exact ⟨L, c, R, ho, hac, hbs', rfl⟩
  · refine ⟨L, c, R, ho, hac, hbs', ?_⟩
    rw [← hrel, allocs_release]
    simp

/-- A served request adds one cell, of less than `a + m` units. -/
theorem allocs_firstFit_perm {m room n a o : Nat} {bs bs' : List Blk} (hm : 0 < m) (han : a ≤ n)
    (h : firstFit m room n a bs = some (o, bs')) (base : Nat) :
    ∃ s, a ≤ s ∧ s < a + m ∧
      (allocs base bs').Perm ((base + o, ⟨s, true⟩) :: allocs base bs) := by
  obtain ⟨L, c, R, rfl, hac, rfl, hsame⟩ := allocs_firstFit_eq han h base
  refine ⟨carved m a c, le_carved hac, carved_lt hm hac, ?_⟩
  rw [allocs_carve_mid hac, ← hsame, allocs_append, allocs_free]
  exact List.perm_middle

theorem held_firstFit {m room n a o : Nat} {bs bs' : List Blk} (hm : 0 < m) (han : a ≤ n)
    (h : firstFit m room n a bs = some (o, bs')) : held bs + a ≤ held bs' := by
  obtain ⟨s, hs, -, hperm⟩ := allocs_firstFit_perm hm han h 0
  have hblocks := hperm.map Prod.snd
  rw [allocs_snd, List.map_cons, allocs_snd] at hblocks
  have hsum : held bs' = s + held bs := (hblocks.map Tile.size).sum_eq
  omega

/-- A free takes its cell away. -/
theorem allocs_freeAt_perm {base p n : Nat} {bs : List Blk} (hpos : ∀ b ∈ bs, 0 < b.size)
    (hp : (p, ⟨n, true⟩) ∈ allocs base bs) :
    (allocs base bs).Perm ((p, ⟨n, true⟩) :: allocs base (freeAt (p - base) bs)) := by
  obtain ⟨L, R, rfl, rfl⟩ := cell_split (mem_allocs.mp hp).1
  rw [Nat.add_sub_cancel_left, freeAt_mid (fun c hc => hpos c (List.mem_append_left _ hc)),
    allocs_release, allocs_append, allocs_alloc]
  exact List.perm_middle

/-! ## Who lives where -/

/-- The allocated cells are those at the addresses of `xs`, none larger than `xs` says. -/
def Housed (base : Nat) (bs : List Blk) (xs : List (Nat × Nat)) : Prop :=
  ∃ cs, cs.Perm (allocs base bs) ∧ List.Forall₂ (fun x c => c.1 = x.1 ∧ c.2.size ≤ x.2) xs cs

theorem Housed.perm {base : Nat} {bs : List Blk} {xs ys : List (Nat × Nat)}
    (h : Housed base bs xs) (hp : ys.Perm xs) : Housed base bs ys := by
  obtain ⟨cs, hcs, hall⟩ := h
  obtain ⟨ds, hds, hperm⟩ := List.perm_comp_forall₂ hp hall
  exact ⟨ds, hperm.trans hcs, hds⟩

/-- A request adds one, which has what it asked for and less than `m` units more. -/
theorem Housed.add {m room n a o base : Nat} {bs bs' : List Blk} {xs : List (Nat × Nat)}
    (h : Housed base bs xs) (hm : 0 < m) (han : a ≤ n)
    (hfit : firstFit m room n a bs = some (o, bs')) :
    ∃ s, a ≤ s ∧ s < a + m ∧ (base + o, ⟨s, true⟩) ∈ allocs base bs' ∧
      ∀ k, s ≤ k → Housed base bs' ((base + o, k) :: xs) := by
  obtain ⟨cs, hcs, hall⟩ := h
  obtain ⟨s, hle, hlt, hperm⟩ := allocs_firstFit_perm hm han hfit base
  refine ⟨s, hle, hlt, hperm.symm.subset List.mem_cons_self, fun k hk => ?_⟩
  exact ⟨(base + o, ⟨s, true⟩) :: cs, (hcs.cons _).trans hperm.symm,
    List.Forall₂.cons ⟨rfl, hk⟩ hall⟩

/-- A free takes one away. -/
theorem Housed.drop {base p k : Nat} {bs : List Blk} {xs : List (Nat × Nat)}
    (h : Housed base bs ((p, k) :: xs)) (hpos : ∀ b ∈ bs, 0 < b.size) :
    Housed base (freeAt (p - base) bs) xs := by
  obtain ⟨cs, hcs, hall⟩ := h
  cases hall with
  | @cons _ c _ cs hc hall =>
      obtain ⟨q, n, mark⟩ := c
      obtain rfl : q = p := hc.1
      have hmem : (q, ⟨n, mark⟩) ∈ allocs base bs := hcs.subset List.mem_cons_self
      obtain rfl : mark = true := (mem_allocs.mp hmem).2
      have hperm := hcs.trans (allocs_freeAt_perm hpos hmem)
      exact ⟨cs, hperm.cons_inv, hall⟩

/-- What they hold together. -/
theorem Housed.held {base : Nat} {bs : List Blk} {xs : List (Nat × Nat)} (h : Housed base bs xs) :
    held bs ≤ (xs.map Prod.snd).sum ∧ (heldBlocks bs).length = xs.length := by
  obtain ⟨cs, hcs, hall⟩ := h
  have hblocks : (cs.map Prod.snd).Perm (heldBlocks bs) := by
    rw [← allocs_snd base]
    exact hcs.map _
  have hsum : span (cs.map Prod.snd) ≤ (xs.map Prod.snd).sum := by
    clear hcs hblocks
    induction hall with
    | nil => exact le_refl _
    | cons hc _ ih =>
        rw [List.map_cons, List.map_cons, span_cons, List.sum_cons]
        exact Nat.add_le_add hc.2 ih
  have hspan : span (cs.map Prod.snd) = BlockList.held bs :=
    ((hblocks.map Tile.size).sum_eq)
  rw [hspan] at hsum
  refine ⟨hsum, ?_⟩
  calc (heldBlocks bs).length
      = (cs.map Prod.snd).length := hblocks.length_eq.symm
    _ = xs.length := by rw [List.length_map, hall.length_eq]

/-! ## What lies before the last free block -/

/-- The size of the store without a free block at its end. -/
def front (bs : List Blk) : Nat := span (joinLeft bs 0).1

theorem front_concat_free (L : List Blk) (c : Nat) : front (L ++ [⟨c, false⟩]) = span L := by
  rw [front, joinLeft_free]

theorem front_concat_alloc (L : List Blk) (c : Nat) :
    front (L ++ [⟨c, true⟩]) = span L + c := by
  rw [front, joinLeft_alloc rfl]
  simp

theorem front_nil : front [] = 0 := rfl

theorem front_append (L : List Blk) {R : List Blk} (hR : R ≠ []) :
    front (L ++ R) = span L + front R := by
  obtain ⟨R', b, rfl⟩ := (List.eq_nil_or_concat R).resolve_left hR
  obtain ⟨c, _ | _⟩ := b
  · rw [List.concat_eq_append, ← List.append_assoc, front_concat_free, front_concat_free,
      span_append]
  · rw [List.concat_eq_append, ← List.append_assoc, front_concat_alloc, front_concat_alloc,
      span_append, Nat.add_assoc]

/-- Where `a` units do not fit, the free block at the end is below `a`. -/
theorem span_lt_front {a : Nat} {bs : List Blk} (ha : 0 < a) (hno : splitFit a bs = none) :
    span bs < front bs + a := by
  rcases List.eq_nil_or_concat bs with rfl | ⟨L, ⟨c, _ | _⟩, rfl⟩
  · rw [front_nil]
    simpa using ha
  · rw [List.concat_eq_append] at hno ⊢
    have hc := splitFit_none.mp hno ⟨c, false⟩ (by simp)
    rw [front_concat_free]
    simp only [Bool.false_eq_true, false_or] at hc
    simpa using hc
  · rw [List.concat_eq_append, front_concat_alloc]
    simpa using ha

/-- Carving a free block moves the front when the block is the last one. -/
theorem front_carve {m a c : Nat} (hm : 0 < m) (hac : a ≤ c) (L R : List Blk) :
    front (L ++ carve m a c ++ R) < front (L ++ ⟨c, false⟩ :: R) + a + m := by
  by_cases hR : R = []
  · subst hR
    rw [List.append_nil, front_concat_free]
    rcases carve_eq m a c with ⟨-, he, -⟩ | ⟨hsmall, he, hs⟩
    · have hsplit : L ++ carve m a c = L ++ [⟨carved m a c, true⟩] ++ [⟨c - a, false⟩] := by
        rw [he]
        simp
      have hlt := carved_lt hm hac
      rw [hsplit, front_concat_free]
      simp only [span_append, span_cons, span_nil]
      omega
    · rw [he, hs, front_concat_alloc]
      omega
  · have hcons : L ++ ⟨c, false⟩ :: R = L ++ [⟨c, false⟩] ++ R := by simp
    rw [front_append _ hR, hcons, front_append _ hR, span_append, span_carve hac]
    simp only [span_append, span_cons, span_nil]
    omega

/-- **A request** moves the front by less than `a + m`. -/
theorem front_firstFit {m room n a o : Nat} {bs bs' : List Blk} (hm : 0 < m) (han : a ≤ n)
    (h : firstFit m room n a bs = some (o, bs')) : front bs' < front bs + a + m := by
  obtain ⟨L, c, R, -, rfl, hac, ⟨rfl, -⟩ | ⟨hrel, -⟩⟩ := firstFit_some han h
  · exact front_carve hm hac L R
  · have hfront : front (L ++ ⟨c, false⟩ :: R) = front bs := by
      rw [← hrel, release_nil, front_concat_free]
      rcases joinLeft_eq bs n with ⟨L', d, rfl, hj⟩ | ⟨hlast, hj⟩
      · rw [hj, front_concat_free]
      · rw [hj]
        rcases List.eq_nil_or_concat bs with rfl | ⟨L', ⟨d, mark⟩, rfl⟩
        · rfl
        · rw [List.concat_eq_append] at hlast ⊢
          have hmark : mark = true := hlast L' ⟨d, mark⟩ rfl
          rw [hmark, front_concat_alloc]
          simp
    rw [← hfront]
    exact front_carve hm hac L R

theorem front_cons (b : Blk) {R : List Blk} (hR : R ≠ []) : front (b :: R) = b.size + front R := by
  have h := front_append [b] hR
  simpa using h

/-- **A free** does not move the front up. -/
theorem front_release (L : List Blk) (b : Blk) (R : List Blk) :
    front (release L b.size R) ≤ front (L ++ b :: R) := by
  rw [front_append L (List.cons_ne_nil b R)]
  have hleft := span_joinLeft L (joinRight b.size R).1
  have hmore := le_joinLeft L (joinRight b.size R).1
  rcases joinRight_eq b.size R with ⟨c, R', rfl, hj⟩ | ⟨-, hj⟩
  · rw [release, hj]
    rw [hj] at hleft hmore
    simp only at hleft hmore ⊢
    by_cases hR : R' = []
    · rw [hR, front_concat_free]
      omega
    · rw [front_append _ (List.cons_ne_nil _ R'), front_cons _ hR,
        front_cons b (List.cons_ne_nil _ R'), front_cons _ hR]
      simp only
      omega
  · rw [release, hj]
    rw [hj] at hleft hmore
    simp only at hleft hmore ⊢
    by_cases hR : R = []
    · rw [hR, front_concat_free]
      omega
    · rw [front_append _ (List.cons_ne_nil _ R), front_cons _ hR, front_cons b hR]
      simp only
      omega

theorem front_freeAt (o : Nat) (bs : List Blk) : front (freeAt o bs) ≤ front bs := by
  unfold freeAt
  rcases hs : splitAt o bs with _ | ⟨L, b, R⟩
  · exact le_refl _
  · rw [splitAt_eq hs]
    exact front_release L b R

/-! ## Growth -/

/-- **When a store grows.** A served request leaves the size as it was, or adds `n` units, when `a`
units did not fit. -/
theorem span_firstFit {m room n a o : Nat} {bs bs' : List Blk} (han : a ≤ n)
    (h : firstFit m room n a bs = some (o, bs')) :
    span bs' = span bs ∨ (span bs' = span bs + n ∧ splitFit a bs = none) := by
  obtain ⟨L, c, R, -, rfl, hac, ⟨rfl, -⟩ | ⟨hrel, -, hno⟩⟩ := firstFit_some han h
  · left
    simp [span_carve hac]
  · refine Or.inr ⟨?_, hno⟩
    have hspan := span_release bs n []
    rw [hrel] at hspan
    simp only [span_append, span_cons, span_nil, span_carve hac] at hspan ⊢
    omega

/-- A request is refused only when the store would have to grow beyond its room. -/
theorem firstFit_none {m room n a : Nat} {bs : List Blk} (h : firstFit m room n a bs = none) :
    splitFit a bs = none ∧ room < span bs + n := by
  rw [firstFit] at h
  rcases hs : splitFit a bs with _ | t
  · rw [hs] at h
    refine ⟨rfl, ?_⟩
    by_contra hroom
    simp only [if_pos (not_lt.mp hroom)] at h
    cases h
  · rw [hs] at h
    cases h

/-- **A bound is kept.** What bounds the store where `a` units do not fit, with the new units
added, bounds the store after the request; and if there is so much room, the request is served. -/
theorem firstFit_bounded {m room n a B : Nat} {bs : List Blk} (han : a ≤ n)
    (hB : splitFit a bs = none → span bs + n ≤ B) (hroom : B ≤ room) :
    ∃ o bs', firstFit m room n a bs = some (o, bs') ∧ span bs' ≤ max (span bs) B := by
  rcases hf : firstFit m room n a bs with _ | ⟨o, bs'⟩
  · obtain ⟨hno, hlt⟩ := firstFit_none hf
    have hle := hB hno
    omega
  · refine ⟨o, bs', rfl, ?_⟩
    rcases span_firstFit han hf with heq | ⟨heq, hno⟩
    · rw [heq]
      exact le_max_left _ _
    · rw [heq]
      exact (hB hno).trans (le_max_right _ _)

end BlockList
