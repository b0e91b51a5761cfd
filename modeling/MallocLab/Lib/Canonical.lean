import MallocLab.Lib.FirstFit

set_option autoImplicit false

/-! # The canonical form of a store

The free blocks of a coalesced list are the maximal gaps between its allocated cells, so the
list is determined by its length and its allocated cells (`coalesced_ext`). Edits that end in
coalesced lists are therefore compared by what they do to the allocated cells alone: in which
order blocks are given back does not matter (`freeAll_perm`), and giving back a block undoes
the request that it served (`freeAt_firstFit`).
-/

namespace BlockList

open Tiling

/-- Blocks of positive size start at different positions, in order. -/
theorem allocs_ordered {o : Nat} {bs : List Blk} (hpos : ∀ b ∈ bs, 0 < b.size) :
    (allocs o bs).Pairwise (fun x y => x.1 < y.1) := by
  have hcells : (allocs o bs).Pairwise (fun x y => x.1 + x.2.size ≤ y.1) :=
    (cells_ordered o bs).filter _
  refine hcells.imp_of_mem (fun {x y} hx _ hle => ?_)
  have := hpos x.2 (mem_of_mem_cells (mem_allocs.mp hx).1)
  omega

/-- The same allocated cells are the same list of cells. -/
theorem allocs_ext {o : Nat} {bs cs : List Blk} (hb : ∀ b ∈ bs, 0 < b.size)
    (hc : ∀ c ∈ cs, 0 < c.size) (h : ∀ x, x ∈ allocs o bs ↔ x ∈ allocs o cs) :
    allocs o bs = allocs o cs := by
  have hne : ∀ {l : List (Nat × Blk)}, l.Pairwise (fun x y => x.1 < y.1) → l.Nodup := by
    intro l hl
    refine hl.imp (fun {x y} hlt he => ?_)
    rw [he] at hlt
    exact Nat.lt_irrefl _ hlt
  have hperm := (List.perm_ext_iff_of_nodup (hne (allocs_ordered hb))
    (hne (allocs_ordered hc))).mpr h
  refine hperm.eq_of_pairwise (fun x y _ _ hxy hyx => ?_) (allocs_ordered hb) (allocs_ordered hc)
  exact absurd hxy (Nat.lt_asymm hyx)

theorem allocs_lower {o : Nat} {bs : List Blk} {x : Nat × Blk} (hx : x ∈ allocs o bs) : o ≤ x.1 :=
  (cell_bounds (mem_allocs.mp hx).1).1

/-- What follows a free block of a coalesced list is empty or starts with an allocated block. -/
theorem after_free {n : Nat} {bs : List Blk} (h : Coalesced (⟨n, false⟩ :: bs)) :
    bs = [] ∨ ∃ m bs', bs = ⟨m, true⟩ :: bs' := by
  rcases bs with _ | ⟨⟨m, _ | _⟩, bs'⟩
  · exact Or.inl rfl
  · have := (List.isChain_cons_cons.mp h).1
    simp at this
  · exact Or.inr ⟨m, bs', rfl⟩

/-- **Canonical form.** A coalesced list is determined by its length and its allocated cells. -/
theorem coalesced_ext {o : Nat} {bs cs : List Blk} (hb : Coalesced bs) (hc : Coalesced cs)
    (hbpos : ∀ b ∈ bs, 0 < b.size) (hcpos : ∀ c ∈ cs, 0 < c.size) (hspan : span bs = span cs)
    (h : allocs o bs = allocs o cs) : bs = cs := by
  induction bs generalizing o cs with
  | nil =>
      rcases cs with _ | ⟨c, cs⟩
      · rfl
      · have := hcpos c List.mem_cons_self
        rw [span_nil, span_cons] at hspan
        omega
  | cons b bs ih =>
      rcases cs with _ | ⟨c, cs⟩
      · have := hbpos b List.mem_cons_self
        rw [span_nil, span_cons] at hspan
        omega
      · have hbs := fun d hd => hbpos d (List.mem_cons_of_mem _ hd)
        have hcs := fun d hd => hcpos d (List.mem_cons_of_mem _ hd)
        have hb0 := hbpos b List.mem_cons_self
        have hc0 := hcpos c List.mem_cons_self
        obtain ⟨n, _ | _⟩ := b <;> obtain ⟨m, _ | _⟩ := c <;> simp only at hb0 hc0 <;>
          rw [span_cons, span_cons] at hspan <;> simp only at hspan
        · -- two free blocks end where the first allocated cell starts, or at the end
          have hnm : n = m := by
            rw [allocs_free, allocs_free] at h
            rcases after_free hb with rfl | ⟨i, bs', rfl⟩ <;>
              rcases after_free hc with rfl | ⟨j, cs', rfl⟩
            · simpa using hspan
            · cases h
            · cases h
            · rw [allocs_alloc, allocs_alloc] at h
              have := congrArg Prod.fst (List.cons.inj h).1
              simp only at this
              omega
          subst hnm
          have hsame : bs = cs := ih hb.tail hc.tail hbs hcs (by omega) h
          rw [hsame]
        · -- an allocated cell at the start is not one behind a free block
          have hmem : (o, ⟨m, true⟩) ∈ allocs (o + n) bs := by
            rw [← allocs_free, h, allocs_alloc]
            exact List.mem_cons_self
          have := allocs_lower hmem
          omega
        · have hmem : (o, ⟨n, true⟩) ∈ allocs (o + m) cs := by
            rw [← allocs_free, ← h, allocs_alloc]
            exact List.mem_cons_self
          have := allocs_lower hmem
          omega
        · rw [allocs_alloc, allocs_alloc] at h
          obtain ⟨hhead, htail⟩ := List.cons.inj h
          cases hhead
          have hsame : bs = cs := ih hb.tail hc.tail hbs hcs (by omega) htail
          rw [hsame]

/-! ## Giving back several blocks -/

theorem span_freeAt (o : Nat) (bs : List Blk) : span (freeAt o bs) = span bs := by
  unfold freeAt
  rcases hs : splitAt o bs with _ | ⟨L, b, R⟩
  · rfl
  · show span (release L b.size R) = span bs
    rw [span_release, splitAt_eq hs, span_append, span_cons, Nat.add_assoc]

theorem pos_freeAt {bs : List Blk} (o : Nat) (hpos : ∀ b ∈ bs, 0 < b.size) :
    ∀ b ∈ freeAt o bs, 0 < b.size := by
  unfold freeAt
  rcases hs : splitAt o bs with _ | ⟨L, b, R⟩
  · exact hpos
  · rw [splitAt_eq hs] at hpos
    refine sizes_release (fun x y hx _ => Nat.add_pos_left hx y) ?_ ?_ ?_
    · exact fun d hd => hpos d (List.mem_append_left _ hd)
    · exact fun d hd => hpos d (List.mem_append_right _ (List.mem_cons_of_mem _ hd))
    · exact hpos b (List.mem_append_right _ List.mem_cons_self)

/-- Give back the blocks at the positions `ps`, one after the other. -/
def freeAll (base : Nat) (bs : List Blk) (ps : List Nat) : List Blk :=
  ps.foldl (fun bs p => freeAt (p - base) bs) bs

/-- What is left after giving back several blocks. -/
theorem freeAll_spec {base : Nat} {bs : List Blk} {ps : List Nat} (hbs : Coalesced bs)
    (hpos : ∀ b ∈ bs, 0 < b.size) (hnd : ps.Nodup)
    (hps : ∀ p ∈ ps, ∃ n, (p, ⟨n, true⟩) ∈ allocs base bs) :
    Coalesced (freeAll base bs ps) ∧ (∀ b ∈ freeAll base bs ps, 0 < b.size) ∧
      span (freeAll base bs ps) = span bs ∧
      ∀ x, x ∈ allocs base (freeAll base bs ps) ↔ x ∈ allocs base bs ∧ x.1 ∉ ps := by
  induction ps generalizing bs with
  | nil => exact ⟨hbs, hpos, rfl, fun x => by simp [freeAll]⟩
  | cons p ps ih =>
      obtain ⟨hp, hnd⟩ := List.nodup_cons.mp hnd
      obtain ⟨n, hn⟩ := hps p List.mem_cons_self
      have hmem := mem_freeAt hpos hn
      have hps' : ∀ q ∈ ps, ∃ m, (q, ⟨m, true⟩) ∈ allocs base (freeAt (p - base) bs) := by
        intro q hq
        obtain ⟨m, hm⟩ := hps q (List.mem_cons_of_mem _ hq)
        exact ⟨m, (hmem _).mpr ⟨hm, fun he => hp (he ▸ hq)⟩⟩
      obtain ⟨h1, h2, h3, h4⟩ := ih (coalesced_freeAt _ hbs) (pos_freeAt _ hpos) hnd hps'
      refine ⟨h1, h2, h3.trans (span_freeAt _ bs), fun x => ?_⟩
      show x ∈ allocs base (freeAll base (freeAt (p - base) bs) ps) ↔ _
      rw [h4 x, hmem x, List.mem_cons, not_or, and_assoc]

/-- **The order of frees does not matter.** -/
theorem freeAll_perm {base : Nat} {bs : List Blk} {ps qs : List Nat} (hbs : Coalesced bs)
    (hpos : ∀ b ∈ bs, 0 < b.size) (hnd : ps.Nodup)
    (hps : ∀ p ∈ ps, ∃ n, (p, ⟨n, true⟩) ∈ allocs base bs) (hperm : ps.Perm qs) :
    freeAll base bs ps = freeAll base bs qs := by
  obtain ⟨h1, h2, h3, h4⟩ := freeAll_spec hbs hpos hnd hps
  obtain ⟨k1, k2, k3, k4⟩ := freeAll_spec hbs hpos (hperm.nodup_iff.mp hnd)
    (fun q hq => hps q (hperm.mem_iff.mpr hq))
  refine coalesced_ext (o := base) h1 k1 h2 k2 (h3.trans k3.symm) (allocs_ext h2 k2 (fun x => ?_))
  rw [h4 x, k4 x, hperm.mem_iff]

/-! ## Giving back what was just served -/

/-- A carved block that is given back is the free block it was carved from. -/
theorem freeAt_carve {m a c : Nat} {L R : List Blk} (hac : a ≤ c) (ha : 0 < a) (hm : 0 < m)
    (h : Coalesced (L ++ ⟨c, false⟩ :: R)) (hpos : ∀ b ∈ L ++ ⟨c, false⟩ :: R, 0 < b.size) :
    freeAt (span L) (L ++ carve m a c ++ R) = L ++ ⟨c, false⟩ :: R := by
  have hpos' : ∀ b ∈ L ++ carve m a c ++ R, 0 < b.size := by
    intro b hb
    rcases List.mem_append.mp hb with hb | hb
    · rcases List.mem_append.mp hb with hb | hb
      · exact hpos b (List.mem_append_left _ hb)
      · exact sizes_carve ha (Nat.lt_of_lt_of_le ha hac) (Nat.lt_of_lt_of_le hm) b hb
    · exact hpos b (List.mem_append_right _ (List.mem_cons_of_mem _ hb))
  have hmem := mem_allocs_carve (m := m) (o := 0) hac L R
  have hcell : (span L, ⟨carved m a c, true⟩) ∈ allocs 0 (L ++ carve m a c ++ R) :=
    (hmem _).mpr (Or.inl (by rw [Nat.zero_add]))
  have hfree := mem_freeAt hpos' hcell
  rw [Nat.sub_zero] at hfree
  refine coalesced_ext (o := 0) (coalesced_freeAt _ (coalesced_carve h)) h (pos_freeAt _ hpos')
    hpos ?_ (allocs_ext (pos_freeAt _ hpos') hpos (fun x => ?_))
  · rw [span_freeAt, span_append, span_append, span_carve hac, span_append, span_cons, Nat.add_assoc]
  · rw [hfree x, hmem x]
    constructor
    · rintro ⟨rfl | hx, hne⟩
      · exact absurd (Nat.zero_add _) hne
      · exact hx
    · intro hx
      refine ⟨Or.inr hx, fun he => ?_⟩
      -- no allocated cell starts where the free block lies
      have hxpos := hpos x.2 (mem_of_mem_cells (mem_allocs.mp hx).1)
      have hcpos := hpos ⟨c, false⟩ (by simp)
      have := allocs_apart_free hx
      simp only at hcpos
      omega

/-- **Giving back what was just served** leaves the store as it was, or as it was with the new
units at its end when it grew. -/
theorem freeAt_firstFit {m room n a o : Nat} {bs bs' : List Blk} (han : a ≤ n) (ha : 0 < a)
    (hm : 0 < m) (h : firstFit m room n a bs = some (o, bs')) (hbs : Coalesced bs)
    (hpos : ∀ b ∈ bs, 0 < b.size) :
    freeAt o bs' = if (splitFit a bs).isSome then bs else release bs n [] := by
  obtain ⟨L, c, R, rfl, rfl, hac, ⟨rfl, hsome⟩ | ⟨hrel, -, hnone⟩⟩ := firstFit_some han h
  · rw [if_pos hsome]
    exact freeAt_carve hac ha hm hbs hpos
  · -- the store has grown, and is carved with its new units
    have hco := coalesced_release n hbs List.IsChain.nil
    have hsz := sizes_release (R := []) (n := n) (P := (0 < ·))
      (fun x y hx _ => Nat.add_pos_left hx y) hpos (by simp) (Nat.lt_of_lt_of_le ha han)
    rw [hrel] at hco hsz
    rw [freeAt_carve hac ha hm hco hsz, hnone, hrel]
    rfl

end BlockList
