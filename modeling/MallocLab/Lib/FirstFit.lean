import MallocLab.Lib.BlockList

set_option autoImplicit false

/-! # A first-fit store that can grow

The store of `Lib/BlockList.lean` as an allocator. `firstFit` serves a request from the first
free block that is large enough; when there is none it adds new units at the end and serves
the request from the last block. `freeAt` gives a block back. What a client relies on is
stated on the allocated cells: an allocation adds one cell that was not there, a free takes
one away, and no other cell moves or changes size.
-/

namespace BlockList

open Tiling

/-- Serve `a` units: from the first free block that has them, else from `n` new units, when
the store may grow so far. The position of the allocated block and the new list. -/
def firstFit (m room n a : Nat) (bs : List Blk) : Option (Nat × List Blk) :=
  match splitFit a bs with
  | some (L, c, R) => some (span L, L ++ carve m a c ++ R)
  | none =>
      if span bs + n ≤ room then
        some (span (joinLeft bs n).1, (joinLeft bs n).1 ++ carve m a (joinLeft bs n).2)
      else none

/-- Give back the block at `o`. -/
def freeAt (o : Nat) (bs : List Blk) : List Blk :=
  match splitAt o bs with
  | some (L, b, R) => release L b.size R
  | none => bs

theorem release_nil (bs : List Blk) (n : Nat) :
    release bs n [] = (joinLeft bs n).1 ++ [⟨(joinLeft bs n).2, false⟩] := rfl

theorem le_joinLeft (L : List Blk) (n : Nat) : n ≤ (joinLeft L n).2 := by
  rcases joinLeft_eq L n with ⟨L', c, rfl, hj⟩ | ⟨-, hj⟩
  · rw [hj]
    exact Nat.le_add_right n c
  · rw [hj]

/-- **How a request is served.** A free block of the store, grown if need be, is carved. -/
theorem firstFit_some {m room n a o : Nat} {bs bs' : List Blk} (han : a ≤ n)
    (h : firstFit m room n a bs = some (o, bs')) :
    ∃ L c R, o = span L ∧ bs' = L ++ carve m a c ++ R ∧ a ≤ c ∧
      ((bs = L ++ ⟨c, false⟩ :: R ∧ (splitFit a bs).isSome = true) ∨
        release bs n [] = L ++ ⟨c, false⟩ :: R ∧ span bs + n ≤ room ∧ splitFit a bs = none) := by
  rw [firstFit] at h
  rcases hs : splitFit a bs with _ | ⟨L, c, R⟩
  · rw [hs] at h
    by_cases hroom : span bs + n ≤ room
    · simp only [if_pos hroom] at h
      cases h
      refine ⟨_, (joinLeft bs n).2, [], rfl, by rw [List.append_nil], ?_,
        Or.inr ⟨rfl, hroom, rfl⟩⟩
      exact han.trans (le_joinLeft bs n)
    · simp only [if_neg hroom] at h
      cases h
  · rw [hs] at h
    cases h
    obtain ⟨hbs, hac, -⟩ := splitFit_some hs
    exact ⟨L, c, R, rfl, rfl, hac, Or.inl ⟨hbs, rfl⟩⟩

theorem freeAt_mid {L R : List Blk} {b : Blk} (hL : ∀ c ∈ L, 0 < c.size) :
    freeAt (span L) (L ++ b :: R) = release L b.size R := by
  rw [freeAt, splitAt_mid hL]

/-! ## The allocated cells -/

/-- Positions tell allocated cells of positive size apart. -/
theorem allocs_unique {o : Nat} {bs : List Blk} (hpos : ∀ b ∈ bs, 0 < b.size) {x y : Nat × Blk}
    (hx : x ∈ allocs o bs) (hy : y ∈ allocs o bs) (h : x.1 = y.1) : x = y := by
  have hx' := (mem_allocs.mp hx).1
  have hy' := (mem_allocs.mp hy).1
  exact cell_unique hx' hy' (hpos _ (mem_of_mem_cells hx')) (hpos _ (mem_of_mem_cells hy')) h

/-- An allocated cell is apart from a free block. -/
theorem allocs_apart_free {o c : Nat} {L R : List Blk} {x : Nat × Blk}
    (hx : x ∈ allocs o (L ++ ⟨c, false⟩ :: R)) :
    x.1 + x.2.size ≤ o + span L ∨ o + span L + c ≤ x.1 := by
  obtain ⟨hcell, hmark⟩ := mem_allocs.mp hx
  rcases cells_apart hcell (cell_mid o L ⟨c, false⟩ R) with heq | hle | hle
  · rw [heq] at hmark
    cases hmark
  · exact Or.inl hle
  · exact Or.inr hle

/-- Carving a free block adds one cell, at a position that no cell had. -/
theorem mem_allocs_carve {m a c o : Nat} (h : a ≤ c) (L R : List Blk) (x : Nat × Blk) :
    x ∈ allocs o (L ++ carve m a c ++ R) ↔
      x = (o + span L, ⟨carved m a c, true⟩) ∨ x ∈ allocs o (L ++ ⟨c, false⟩ :: R) := by
  rw [allocs_carve_mid h, allocs_append, allocs_free, List.mem_append, List.mem_cons,
    List.mem_append]
  tauto

/-- A released block is the one cell that is taken away. -/
theorem mem_allocs_release {o : Nat} {L R : List Blk} {n : Nat}
    (hpos : ∀ b ∈ L ++ ⟨n, true⟩ :: R, 0 < b.size) (x : Nat × Blk) :
    x ∈ allocs o (release L n R) ↔
      x ∈ allocs o (L ++ ⟨n, true⟩ :: R) ∧ x.1 ≠ o + span L := by
  have hmid : (o + span L, ⟨n, true⟩) ∈ allocs o (L ++ ⟨n, true⟩ :: R) :=
    mem_allocs.mpr ⟨cell_mid o L ⟨n, true⟩ R, rfl⟩
  rw [allocs_release]
  constructor
  · intro hx
    have hx' : x ∈ allocs o (L ++ ⟨n, true⟩ :: R) := by
      rw [allocs_append, allocs_alloc, List.mem_append, List.mem_cons]
      rcases List.mem_append.mp hx with h | h
      · exact Or.inl h
      · exact Or.inr (Or.inr h)
    refine ⟨hx', fun he => ?_⟩
    -- a cell of `L` ends before the released block, a cell of `R` starts after it
    have hn : 0 < n := hpos ⟨n, true⟩ (by simp)
    have hxpos := hpos x.2 (mem_of_mem_cells (mem_allocs.mp hx').1)
    rcases List.mem_append.mp hx with h | h
    · have := (cell_bounds (mem_allocs.mp h).1).2
      omega
    · have := (cell_bounds (mem_allocs.mp h).1).1
      omega
  · rintro ⟨hx, hne⟩
    rw [allocs_append, allocs_alloc, List.mem_append, List.mem_cons] at hx
    rw [List.mem_append]
    rcases hx with h | rfl | h
    · exact Or.inl h
    · exact absurd rfl hne
    · exact Or.inr h

/-- Freeing takes one allocated cell away. -/
theorem mem_freeAt {base p n : Nat} {bs : List Blk} (hpos : ∀ b ∈ bs, 0 < b.size)
    (hp : (p, ⟨n, true⟩) ∈ allocs base bs) (x : Nat × Blk) :
    x ∈ allocs base (freeAt (p - base) bs) ↔ x ∈ allocs base bs ∧ x.1 ≠ p := by
  obtain ⟨L, R, rfl, rfl⟩ := cell_split (mem_allocs.mp hp).1
  rw [Nat.add_sub_cancel_left, freeAt_mid (fun c hc => hpos c (List.mem_append_left _ hc))]
  exact mem_allocs_release hpos x

/-! ## The invariant over requests -/

theorem coalesced_freeAt {bs : List Blk} (o : Nat) (hbs : Coalesced bs) :
    Coalesced (freeAt o bs) := by
  unfold freeAt
  rcases hs : splitAt o bs with _ | ⟨L, b, R⟩
  · exact hbs
  · rw [splitAt_eq hs, coalesced_append] at hbs
    exact coalesced_release _ hbs.1 hbs.2.1.tail

theorem freeAt_ne_nil {bs : List Blk} (o : Nat) (hbs : bs ≠ []) : freeAt o bs ≠ [] := by
  unfold freeAt
  rcases splitAt o bs with _ | ⟨L, b, R⟩
  · exact hbs
  · exact release_ne_nil L b.size R

/-- Sizes stay positive. -/
theorem pos_firstFit {m room n a o : Nat} {bs bs' : List Blk} (han : a ≤ n)
    (h : firstFit m room n a bs = some (o, bs')) (hpos : ∀ b ∈ bs, 0 < b.size) (hm : 0 < m)
    (ha : 0 < a) : ∀ b ∈ bs', 0 < b.size := by
  obtain ⟨L, c, R, -, rfl, hac, hbs⟩ := firstFit_some han h
  have hall : ∀ b ∈ L ++ ⟨c, false⟩ :: R, 0 < b.size := by
    rcases hbs with ⟨rfl, -⟩ | ⟨hrel, -⟩
    · exact hpos
    · rw [← hrel]
      exact sizes_release (fun x y hx _ => Nat.add_pos_left hx y) hpos (by simp)
        (Nat.lt_of_lt_of_le ha han)
  intro b hb
  rcases List.mem_append.mp hb with hb | hb
  · rcases List.mem_append.mp hb with hb | hb
    · exact hall b (List.mem_append_left _ hb)
    · exact sizes_carve ha (Nat.lt_of_lt_of_le ha hac) (Nat.lt_of_lt_of_le hm) b hb
  · exact hall b (List.mem_append_right _ (List.mem_cons_of_mem _ hb))

/-- A served request leaves the store coalesced. -/
theorem coalesced_firstFit {m room n a o : Nat} {bs bs' : List Blk} (han : a ≤ n)
    (h : firstFit m room n a bs = some (o, bs')) (hbs : Coalesced bs) : Coalesced bs' := by
  obtain ⟨L, c, R, -, rfl, -, ⟨rfl, -⟩ | ⟨hrel, -⟩⟩ := firstFit_some han h
  · exact coalesced_carve hbs
  · exact coalesced_carve (hrel ▸ coalesced_release n hbs List.IsChain.nil)

/-- A served request adds one cell of at least `a` units, at a position that no cell had. -/
theorem allocs_firstFit {m room n a o : Nat} {bs bs' : List Blk} (han : a ≤ n)
    (h : firstFit m room n a bs = some (o, bs')) (base : Nat)
    (hpos : ∀ b ∈ bs, 0 < b.size) (hn : 0 < n) :
    ∃ s, a ≤ s ∧ (∀ x, x ∈ allocs base bs' ↔ x = (base + o, ⟨s, true⟩) ∨ x ∈ allocs base bs) ∧
      ∀ x ∈ allocs base bs, x.1 ≠ base + o := by
  obtain ⟨L, c, R, rfl, rfl, hac, hbs⟩ := firstFit_some han h
  have hold : allocs base bs = allocs base (L ++ ⟨c, false⟩ :: R) ∧ 0 < c ∧
      ∀ b ∈ L ++ ⟨c, false⟩ :: R, 0 < b.size := by
    rcases hbs with ⟨rfl, -⟩ | ⟨hrel, -⟩
    · exact ⟨rfl, hpos ⟨c, false⟩ (by simp), hpos⟩
    · have hsz := sizes_release (R := []) (n := n) (P := (0 < ·)) (fun x y hx _ => by omega) hpos
        (by simp) hn
      rw [← hrel]
      refine ⟨by rw [allocs_release]; simp, ?_, hsz⟩
      exact hsz ⟨c, false⟩ (by rw [hrel]; simp)
  refine ⟨carved m a c, le_carved hac, fun x => ?_, fun x hx he => ?_⟩
  · rw [hold.1]
    exact mem_allocs_carve hac L R x
  · rw [hold.1] at hx
    have hxpos := hold.2.2 x.2 (mem_of_mem_cells (mem_allocs.mp hx).1)
    have := allocs_apart_free hx
    omega

theorem firstFit_ne_nil {m room n a o : Nat} {bs bs' : List Blk} (han : a ≤ n)
    (h : firstFit m room n a bs = some (o, bs')) : bs' ≠ [] := by
  obtain ⟨L, c, R, -, rfl, -, -⟩ := firstFit_some han h
  rcases carve_eq m a c with ⟨-, he, -⟩ | ⟨-, he, -⟩ <;> rw [he] <;> simp

end BlockList
