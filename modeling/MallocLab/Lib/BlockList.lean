import MallocLab.Lib.Tiling

set_option autoImplicit false

/-! # Block lists: first fit, splitting and merging

A store divided into blocks is a list of blocks, each free or allocated, laid end to end
(`Lib/Tiling.lean`). Three edits are all that a first-fit allocator with immediate merging
does to it:

* `splitFit a` finds the first free block of size at least `a`;
* `carve m a c` turns a free block of size `c` into an allocated block of size `a` and a free
  remainder, or into one allocated block when the remainder would be smaller than `m`;
* `release L n R` puts a free block of size `n` between `L` and `R` and merges it with the
  free neighbours it has there.

No two neighbours are free in a `Coalesced` list, and the edits keep it so. The allocated
cells (`allocs`) are what the edits must not disturb; each edit adds or removes one.
-/

namespace BlockList

open Tiling

/-- A block; its mark says whether it is allocated. -/
abbrev Blk : Type := Tile Bool

/-- The allocated blocks with their positions. -/
def allocs (o : Nat) (bs : List Blk) : List (Nat × Blk) := (cells o bs).filter (·.2.mark)

/-- No two neighbours are free. -/
def Coalesced (bs : List Blk) : Prop :=
  bs.IsChain (fun a b => a.mark = true ∨ b.mark = true)

/-! ## The edits -/

def carve (m a c : Nat) : List Blk :=
  if m ≤ c - a then [⟨a, true⟩, ⟨c - a, false⟩] else [⟨c, true⟩]

/-- The size of the block that `carve` allocates. -/
def carved (m a c : Nat) : Nat := if m ≤ c - a then a else c

def splitFit (a : Nat) : List Blk → Option (List Blk × Nat × List Blk)
  | [] => none
  | b :: bs =>
      if b.mark = false ∧ a ≤ b.size then some ([], b.size, bs)
      else (splitFit a bs).map (fun t => (b :: t.1, t.2))

/-- Merge a free block of size `n` with a free first block of `R`. -/
def joinRight (n : Nat) : List Blk → Nat × List Blk
  | ⟨c, false⟩ :: R => (n + c, R)
  | R => (n, R)

/-- Merge a free block of size `n` with a free last block of `L`. -/
def joinLeft (L : List Blk) (n : Nat) : List Blk × Nat :=
  ((joinRight n L.reverse).2.reverse, (joinRight n L.reverse).1)

def release (L : List Blk) (n : Nat) (R : List Blk) : List Blk :=
  (joinLeft L (joinRight n R).1).1
    ++ ⟨(joinLeft L (joinRight n R).1).2, false⟩ :: (joinRight n R).2

/-! ## Allocated cells -/

@[simp] theorem allocs_nil (o : Nat) : allocs o [] = [] := rfl

@[simp] theorem allocs_free (o n : Nat) (bs : List Blk) :
    allocs o (⟨n, false⟩ :: bs) = allocs (o + n) bs := rfl

@[simp] theorem allocs_alloc (o n : Nat) (bs : List Blk) :
    allocs o (⟨n, true⟩ :: bs) = (o, ⟨n, true⟩) :: allocs (o + n) bs := rfl

@[simp] theorem allocs_append (o : Nat) (L R : List Blk) :
    allocs o (L ++ R) = allocs o L ++ allocs (o + span L) R := by
  simp [allocs]

theorem mem_allocs {o : Nat} {bs : List Blk} {x : Nat × Blk} :
    x ∈ allocs o bs ↔ x ∈ cells o bs ∧ x.2.mark = true := List.mem_filter

/-! ## First fit -/

/-- The block found is free and large enough, and none before it is. -/
theorem splitFit_some {a : Nat} {bs L R : List Blk} {c : Nat}
    (h : splitFit a bs = some (L, c, R)) :
    bs = L ++ ⟨c, false⟩ :: R ∧ a ≤ c ∧ ∀ b ∈ L, b.mark = true ∨ b.size < a := by
  induction bs generalizing L with
  | nil => cases h
  | cons b bs ih =>
      rw [splitFit] at h
      -- the block is taken, or the search goes on behind it
      by_cases hb : b.mark = false ∧ a ≤ b.size
      · rw [if_pos hb] at h
        cases h
        obtain ⟨n, _ | _⟩ := b
        · exact ⟨rfl, hb.2, by simp⟩
        · cases hb.1
      · rw [if_neg hb] at h
        obtain ⟨⟨L', c', R'⟩, h', heq⟩ := Option.map_eq_some_iff.mp h
        cases heq
        obtain ⟨rfl, hle, hL⟩ := ih h'
        refine ⟨rfl, hle, ?_⟩
        intro d hd
        rcases List.mem_cons.mp hd with rfl | hd
        · cases hd' : d.mark with
          | true => exact Or.inl rfl
          | false => exact Or.inr (by simp only [hd', true_and] at hb; omega)
        · exact hL d hd

theorem splitFit_mid {a c : Nat} {L R : List Blk} (hac : a ≤ c)
    (hL : ∀ b ∈ L, b.mark = true ∨ b.size < a) :
    splitFit a (L ++ ⟨c, false⟩ :: R) = some (L, c, R) := by
  induction L with
  | nil => exact if_pos ⟨rfl, hac⟩
  | cons b L ih =>
      obtain ⟨hb, hL⟩ := List.forall_mem_cons.mp hL
      have hskip : ¬(b.mark = false ∧ a ≤ b.size) := by
        rintro ⟨hmark, hle⟩
        rcases hb with hb | hb
        · rw [hmark] at hb
          cases hb
        · omega
      rw [List.cons_append, splitFit, if_neg hskip, ih hL]
      rfl

theorem splitFit_none {a : Nat} {bs : List Blk} :
    splitFit a bs = none ↔ ∀ b ∈ bs, b.mark = true ∨ b.size < a := by
  induction bs with
  | nil => simp [splitFit]
  | cons b bs ih =>
      rw [splitFit]
      by_cases hb : b.mark = false ∧ a ≤ b.size
      · rw [if_pos hb]
        simp only [reduceCtorEq, List.mem_cons, false_iff, not_forall]
        refine ⟨b, Or.inl rfl, ?_⟩
        simp only [hb.1, Bool.false_eq_true, false_or]
        omega
      · rw [if_neg hb, Option.map_eq_none_iff, ih, List.forall_mem_cons]
        refine ⟨fun h => ⟨?_, h⟩, fun h => h.2⟩
        cases hd : b.mark with
        | true => exact Or.inl rfl
        | false => exact Or.inr (by simp only [hd, true_and] at hb; omega)

/-! ## Carving -/

theorem carve_eq (m a c : Nat) :
    (m ≤ c - a ∧ carve m a c = [⟨carved m a c, true⟩, ⟨c - a, false⟩] ∧ carved m a c = a) ∨
      (¬m ≤ c - a ∧ carve m a c = [⟨carved m a c, true⟩] ∧ carved m a c = c) := by
  by_cases h : m ≤ c - a
  · exact Or.inl ⟨h, by simp [carve, carved, h], if_pos h⟩
  · exact Or.inr ⟨h, by simp [carve, carved, h], if_neg h⟩

theorem le_carved {m a c : Nat} (h : a ≤ c) : a ≤ carved m a c := by
  unfold carved
  split
  · exact Nat.le_refl a
  · exact h

theorem span_carve {m a c : Nat} (h : a ≤ c) : span (carve m a c) = c := by
  rcases carve_eq m a c with ⟨-, he, hc⟩ | ⟨-, he, hc⟩
  · rw [he, hc]
    simp
    omega
  · rw [he, hc]
    simp

theorem allocs_carve (m a c o : Nat) :
    allocs o (carve m a c) = [(o, ⟨carved m a c, true⟩)] := by
  rcases carve_eq m a c with ⟨-, he, hc⟩ | ⟨-, he, hc⟩ <;> rw [he] <;> rfl

/-- Carving a free block adds one allocated cell. -/
theorem allocs_carve_mid {m a c o : Nat} (h : a ≤ c) (L R : List Blk) :
    allocs o (L ++ carve m a c ++ R)
      = allocs o L ++ (o + span L, ⟨carved m a c, true⟩) :: allocs (o + span L + c) R := by
  rw [List.append_assoc, allocs_append, allocs_append, allocs_carve, span_carve h]
  rfl

/-! ## Merging -/

theorem joinRight_eq (n : Nat) (R : List Blk) :
    (∃ c R', R = ⟨c, false⟩ :: R' ∧ joinRight n R = (n + c, R')) ∨
      ((∀ b R', R = b :: R' → b.mark = true) ∧ joinRight n R = (n, R)) := by
  rcases R with _ | ⟨⟨c, _ | _⟩, R'⟩
  · exact Or.inr ⟨fun b R' h => (nomatch h), rfl⟩
  · exact Or.inl ⟨c, R', rfl, rfl⟩
  · refine Or.inr ⟨fun b R'' h => ?_, rfl⟩
    cases h
    rfl

theorem joinLeft_eq (L : List Blk) (n : Nat) :
    (∃ L' c, L = L' ++ [⟨c, false⟩] ∧ joinLeft L n = (L', n + c)) ∨
      ((∀ L' b, L = L' ++ [b] → b.mark = true) ∧ joinLeft L n = (L, n)) := by
  rcases joinRight_eq n L.reverse with ⟨c, R', hR, hj⟩ | ⟨hR, hj⟩
  · refine Or.inl ⟨R'.reverse, c, ?_, ?_⟩
    · rw [← List.reverse_reverse L, hR, List.reverse_cons]
    · simp [joinLeft, hj]
  · refine Or.inr ⟨fun L' b hL => hR b L'.reverse ?_, ?_⟩
    · rw [hL, List.reverse_append]
      rfl
    · simp [joinLeft, hj]

theorem joinLeft_free (L : List Blk) (c n : Nat) :
    joinLeft (L ++ [⟨c, false⟩]) n = (L, n + c) := by
  simp [joinLeft, joinRight]

theorem joinLeft_alloc {L : List Blk} {b : Blk} (hb : b.mark = true) (n : Nat) :
    joinLeft (L ++ [b]) n = (L ++ [b], n) := by
  obtain ⟨c, _ | _⟩ := b
  · cases hb
  · simp [joinLeft, joinRight]

theorem span_joinLeft (L : List Blk) (n : Nat) :
    span (joinLeft L n).1 + (joinLeft L n).2 = span L + n := by
  rcases joinLeft_eq L n with ⟨L', c, rfl, hj⟩ | ⟨-, hj⟩
  · rw [hj]
    simp
    omega
  · rw [hj]

theorem span_joinRight (n : Nat) (R : List Blk) :
    (joinRight n R).1 + span (joinRight n R).2 = n + span R := by
  rcases joinRight_eq n R with ⟨c, R', rfl, hj⟩ | ⟨-, hj⟩
  · rw [hj]
    simp
    omega
  · rw [hj]

theorem span_release (L : List Blk) (n : Nat) (R : List Blk) :
    span (release L n R) = span L + n + span R := by
  have h1 := span_joinLeft L (joinRight n R).1
  have h2 := span_joinRight n R
  simp only [release, span_append, span_cons] at *
  omega

theorem release_ne_nil (L : List Blk) (n : Nat) (R : List Blk) : release L n R ≠ [] := by
  simp [release]

theorem allocs_joinLeft (o : Nat) (L : List Blk) (n : Nat) :
    allocs o (joinLeft L n).1 = allocs o L := by
  rcases joinLeft_eq L n with ⟨L', c, rfl, hj⟩ | ⟨-, hj⟩
  · rw [hj]
    simp
  · rw [hj]

theorem allocs_joinRight (o n : Nat) (R : List Blk) :
    allocs (o + (joinRight n R).1) (joinRight n R).2 = allocs (o + n) R := by
  rcases joinRight_eq n R with ⟨c, R', rfl, hj⟩ | ⟨-, hj⟩
  · rw [hj]
    simp [Nat.add_assoc]
  · rw [hj]

/-- Merging touches no allocated cell. -/
theorem allocs_release (o : Nat) (L : List Blk) (n : Nat) (R : List Blk) :
    allocs o (release L n R) = allocs o L ++ allocs (o + span L + n) R := by
  have hs := span_joinLeft L (joinRight n R).1
  have h2 := allocs_joinRight (o + span L) n R
  rw [release, allocs_append, allocs_free, allocs_joinLeft, ← h2]
  congr 2
  omega

/-! ## Properties of all sizes -/

section Sizes

variable {P : Nat → Prop}

theorem sizes_carve {m a c : Nat} (ha : P a) (hc : P c) (hr : m ≤ c - a → P (c - a)) :
    ∀ b ∈ carve m a c, P b.size := by
  intro b hb
  rcases carve_eq m a c with ⟨hm, he, hs⟩ | ⟨-, he, hs⟩
  · rw [he, hs] at hb
    rcases List.mem_cons.mp hb with rfl | hb
    · exact ha
    · rw [List.mem_singleton.mp hb]
      exact hr hm
  · rw [he, hs] at hb
    rw [List.mem_singleton.mp hb]
    exact hc

theorem sizes_joinLeft {L : List Blk} {n : Nat} (hP : ∀ x y, P x → P y → P (x + y))
    (hL : ∀ b ∈ L, P b.size) (hn : P n) :
    (∀ b ∈ (joinLeft L n).1, P b.size) ∧ P (joinLeft L n).2 := by
  rcases joinLeft_eq L n with ⟨L', c, rfl, hj⟩ | ⟨-, hj⟩
  · rw [hj]
    refine ⟨fun b hb => hL b (List.mem_append_left _ hb), hP _ _ hn ?_⟩
    exact hL ⟨c, false⟩ (by simp)
  · rw [hj]
    exact ⟨hL, hn⟩

theorem sizes_joinRight {R : List Blk} {n : Nat} (hP : ∀ x y, P x → P y → P (x + y))
    (hR : ∀ b ∈ R, P b.size) (hn : P n) :
    P (joinRight n R).1 ∧ ∀ b ∈ (joinRight n R).2, P b.size := by
  rcases joinRight_eq n R with ⟨c, R', rfl, hj⟩ | ⟨-, hj⟩
  · rw [hj]
    refine ⟨hP _ _ hn (hR ⟨c, false⟩ (by simp)), fun b hb => hR b (List.mem_cons_of_mem _ hb)⟩
  · rw [hj]
    exact ⟨hn, hR⟩

theorem sizes_release {L R : List Blk} {n : Nat} (hP : ∀ x y, P x → P y → P (x + y))
    (hL : ∀ b ∈ L, P b.size) (hR : ∀ b ∈ R, P b.size) (hn : P n) :
    ∀ b ∈ release L n R, P b.size := by
  obtain ⟨h1, h2⟩ := sizes_joinRight hP hR hn
  obtain ⟨h3, h4⟩ := sizes_joinLeft hP hL h1
  intro b hb
  rcases List.mem_append.mp hb with hb | hb
  · exact h3 b hb
  · rcases List.mem_cons.mp hb with rfl | hb
    · exact h4
    · exact h2 b hb

end Sizes

/-! ## No two neighbours are free -/

theorem coalesced_append {L R : List Blk} :
    Coalesced (L ++ R) ↔ Coalesced L ∧ Coalesced R ∧
      ∀ a ∈ L.getLast?, ∀ b ∈ R.head?, a.mark = true ∨ b.mark = true :=
  List.isChain_append

/-- An allocated block joins two coalesced lists. -/
theorem coalesced_mid_alloc {L R : List Blk} {n : Nat} :
    Coalesced (L ++ ⟨n, true⟩ :: R) ↔ Coalesced L ∧ Coalesced R := by
  rw [coalesced_append]
  constructor
  · rintro ⟨hL, hR, -⟩
    exact ⟨hL, hR.tail⟩
  · rintro ⟨hL, hR⟩
    refine ⟨hL, ?_, ?_⟩
    · exact List.isChain_cons.mpr ⟨fun _ _ => Or.inl rfl, hR⟩
    · intro a _ b hb
      rw [List.head?_cons, Option.mem_some_iff] at hb
      exact Or.inr (by rw [← hb])

/-- A free block joins two coalesced lists when both neighbours are allocated. -/
theorem coalesced_mid_free {L R : List Blk} {n : Nat} :
    Coalesced (L ++ ⟨n, false⟩ :: R) ↔ Coalesced L ∧ Coalesced R ∧
      (∀ a ∈ L.getLast?, a.mark = true) ∧ ∀ b ∈ R.head?, b.mark = true := by
  rw [coalesced_append]
  constructor
  · rintro ⟨hL, hR, h⟩
    have hR' := List.isChain_cons.mp hR
    refine ⟨hL, hR'.2, fun a ha => ?_, fun b hb => ?_⟩
    · simpa using h a ha ⟨n, false⟩ rfl
    · simpa using hR'.1 b hb
  · rintro ⟨hL, hR, hl, hr⟩
    refine ⟨hL, List.isChain_cons.mpr ⟨fun b hb => Or.inr (hr b hb), hR⟩, fun a ha b hb => ?_⟩
    exact Or.inl (hl a ha)

/-- Carving keeps a list coalesced: the block after the free one was allocated. -/
theorem coalesced_carve {m a c : Nat} {L R : List Blk} (h : Coalesced (L ++ ⟨c, false⟩ :: R)) :
    Coalesced (L ++ carve m a c ++ R) := by
  obtain ⟨hL, hR, hl, hr⟩ := coalesced_mid_free.mp h
  rcases carve_eq m a c with ⟨-, he, -⟩ | ⟨-, he, -⟩
  · rw [he, List.append_assoc]
    refine coalesced_mid_alloc.mpr ⟨hL, ?_⟩
    exact (coalesced_mid_free (L := [])).mpr ⟨List.IsChain.nil, hR, by simp, hr⟩
  · rw [he, List.append_assoc]
    exact coalesced_mid_alloc.mpr ⟨hL, hR⟩

theorem joinLeft_last {L : List Blk} (n : Nat) (hL : Coalesced L) :
    Coalesced (joinLeft L n).1 ∧ ∀ a ∈ (joinLeft L n).1.getLast?, a.mark = true := by
  rcases joinLeft_eq L n with ⟨L', c, rfl, hj⟩ | ⟨hlast, hj⟩
  · obtain ⟨h1, -, h2, -⟩ := coalesced_mid_free.mp hL
    rw [hj]
    exact ⟨h1, h2⟩
  · rw [hj]
    refine ⟨hL, fun a ha => ?_⟩
    obtain ⟨L', hL'⟩ := List.getLast?_eq_some_iff.mp ha
    exact hlast L' a hL'

theorem joinRight_head {R : List Blk} (n : Nat) (hR : Coalesced R) :
    Coalesced (joinRight n R).2 ∧ ∀ b ∈ (joinRight n R).2.head?, b.mark = true := by
  rcases joinRight_eq n R with ⟨c, R', rfl, hj⟩ | ⟨hhead, hj⟩
  · obtain ⟨-, h1, -, h2⟩ := (coalesced_mid_free (L := [])).mp hR
    rw [hj]
    exact ⟨h1, h2⟩
  · rw [hj]
    refine ⟨hR, fun b hb => ?_⟩
    obtain ⟨R', hR'⟩ := List.head?_eq_some_iff.mp hb
    exact hhead b R' hR'

/-- **Merging restores the invariant** wherever the free block is put. -/
theorem coalesced_release {L R : List Blk} (n : Nat) (hL : Coalesced L) (hR : Coalesced R) :
    Coalesced (release L n R) := by
  obtain ⟨h1, h2⟩ := joinRight_head n hR
  obtain ⟨h3, h4⟩ := joinLeft_last (joinRight n R).1 hL
  exact coalesced_mid_free.mpr ⟨h3, h1, h4, h2⟩

/-- With nothing allocated a coalesced list is empty or one free block. -/
theorem coalesced_free {bs : List Blk} (h : Coalesced bs) (hfree : ∀ b ∈ bs, b.mark = false) :
    bs = [] ∨ bs = [⟨span bs, false⟩] := by
  rcases bs with _ | ⟨⟨n, a⟩, _ | ⟨c, bs⟩⟩
  · exact Or.inl rfl
  · have := hfree ⟨n, a⟩ (by simp)
    simp only at this
    exact Or.inr (by simp [this])
  · have h1 := hfree ⟨n, a⟩ (by simp)
    have h2 := hfree c (by simp)
    have := (List.isChain_cons_cons.mp h).1
    rw [h1, h2] at this
    simp at this

end BlockList
