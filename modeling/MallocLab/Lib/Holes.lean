import MallocLab.Lib.FirstFit

set_option autoImplicit false

/-! # Holes that are lost

First fit uses a hole again only for a request that it is large enough for. While all holes are
too small, a store works like a stack: every request is served from its end (`firstFit_shut`).
So when blocks are allocated in pairs and the second of each pair is freed (`pairs`, `holes`),
each block that was kept has a hole behind it, and larger requests leave all of these holes.
-/

namespace BlockList

open Tiling

/-! ## The end of a store -/

/-- A free block of `c` units, or none. -/
def rest (c : Nat) : List Blk := if c = 0 then [] else [⟨c, false⟩]

theorem rest_pos {c : Nat} (h : 0 < c) : rest c = [⟨c, false⟩] := if_neg (by omega)

@[simp] theorem span_rest (c : Nat) : span (rest c) = c := by
  by_cases h : c = 0
  · rw [rest, if_pos h, h]
    rfl
  · rw [rest, if_neg h]
    simp

/-- Carving leaves the end, or none. -/
theorem carve_rest {m : Nat} (hm : 0 < m) (a c : Nat) :
    carve m a c = ⟨carved m a c, true⟩ :: rest (c - carved m a c) := by
  rcases carve_eq m a c with ⟨hle, he, hs⟩ | ⟨-, he, hs⟩
  · rw [he, hs, rest_pos (by omega)]
  · rw [he, hs, Nat.sub_self]
    rfl

/-- Below `a` units all free blocks, and the last block is allocated. -/
structure Shut (a : Nat) (L : List Blk) : Prop where
  small : ∀ b ∈ L, b.mark = true ∨ b.size < a
  last : ∀ L' b, L = L' ++ [b] → b.mark = true

theorem shut_of_marked {L : List Blk} (h : ∀ b ∈ L, b.mark = true) (a : Nat) : Shut a L := by
  refine ⟨fun b hb => Or.inl (h b hb), fun L' b hL => h b ?_⟩
  rw [hL]
  exact List.mem_append_right _ (List.mem_singleton_self b)

theorem Shut.mono {a a' : Nat} {L : List Blk} (hL : Shut a L) (h : a ≤ a') : Shut a' L :=
  ⟨fun b hb => (hL.small b hb).imp_right fun hlt => lt_of_lt_of_le hlt h, hL.last⟩

theorem Shut.concat {a : Nat} {L : List Blk} (hL : ∀ b ∈ L, b.mark = true ∨ b.size < a) (s : Nat) :
    Shut a (L ++ [⟨s, true⟩]) := by
  constructor
  · intro b hb
    rcases List.mem_append.mp hb with hb | hb
    · exact hL b hb
    · rw [List.mem_singleton.mp hb]
      exact Or.inl rfl
  · intro L' b h
    cases (List.append_inj' h rfl).2
    rfl

/-- New units join the end. -/
theorem joinLeft_rest {L : List Blk} (hL : ∀ L' b, L = L' ++ [b] → b.mark = true) (c n : Nat) :
    joinLeft (L ++ rest c) n = (L, n + c) := by
  by_cases h : c = 0
  · rw [rest, if_pos h, h, List.append_nil]
    rcases joinLeft_eq L n with ⟨L', d, hd, -⟩ | ⟨-, hj⟩
    · have hmark := hL L' ⟨d, false⟩ hd
      cases hmark
    · exact hj
  · rw [rest, if_neg h, joinLeft_free]

/-- **A store without holes for the request** serves it from its end. -/
theorem firstFit_shut {m room n a c o : Nat} {L bs' : List Blk} (hm : 0 < m) (ha : 0 < a)
    (han : a ≤ n) (hL : Shut a L) (h : firstFit m room n a (L ++ rest c) = some (o, bs')) :
    o = span L ∧ ∃ s c', a ≤ s ∧ s < a + m ∧ bs' = L ++ ⟨s, true⟩ :: rest c' := by
  have hcarve : ∀ d, a ≤ d → ∃ s c', a ≤ s ∧ s < a + m ∧
      L ++ carve m a d = L ++ ⟨s, true⟩ :: rest c' := by
    intro d had
    refine ⟨carved m a d, d - carved m a d, le_carved had, ?_, by rw [carve_rest hm]⟩
    unfold carved
    split <;> omega
  rw [firstFit] at h
  by_cases hac : a ≤ c
  · rw [rest_pos (by omega), splitFit_mid hac hL.small] at h
    cases h
    rw [List.append_nil]
    exact ⟨rfl, hcarve c hac⟩
  · have hnone : splitFit a (L ++ rest c) = none := by
      refine splitFit_none.mpr (fun b hb => ?_)
      rcases List.mem_append.mp hb with hb | hb
      · exact hL.small b hb
      · unfold rest at hb
        split at hb
        · cases hb
        · rw [List.mem_singleton.mp hb]
          exact Or.inr (not_le.mp hac)
    rw [hnone, joinLeft_rest hL.last] at h
    by_cases hroom : span (L ++ rest c) + n ≤ room
    · simp only [if_pos hroom] at h
      cases h
      exact ⟨rfl, hcarve (n + c) (by omega)⟩
    · simp only [if_neg hroom] at h
      cases h

/-- A block between two allocated ones becomes a hole. -/
theorem release_between (L : List Blk) (x n y : Nat) (R : List Blk) :
    release (L ++ [⟨x, true⟩]) n (⟨y, true⟩ :: R)
      = L ++ [⟨x, true⟩] ++ ⟨n, false⟩ :: ⟨y, true⟩ :: R := by
  rw [release]
  show (joinLeft (L ++ [⟨x, true⟩]) n).1 ++
    ⟨(joinLeft (L ++ [⟨x, true⟩]) n).2, false⟩ :: ⟨y, true⟩ :: R = _
  rw [joinLeft_alloc rfl]

/-- The last block joins the end. -/
theorem release_last (L : List Blk) (x n c : Nat) (hn : 0 < n) :
    release (L ++ [⟨x, true⟩]) n (rest c) = L ++ [⟨x, true⟩] ++ rest (n + c) := by
  have hjoin : joinRight n (rest c) = (n + c, []) := by
    by_cases h : c = 0
    · rw [rest, if_pos h, h]
      rfl
    · rw [rest, if_neg h]
      rfl
  rw [release, hjoin, joinLeft_alloc rfl, rest_pos (by omega)]

/-! ## Pairs of blocks -/

/-- Both blocks of each pair are allocated. -/
def pairs (ps : List (Nat × Nat)) : List Blk := ps.flatMap (fun p => [⟨p.1, true⟩, ⟨p.2, true⟩])

/-- Behind the first block of each pair there is a hole. -/
def holes (ps : List (Nat × Nat)) : List Blk := ps.flatMap (fun p => [⟨p.1, true⟩, ⟨p.2, false⟩])

theorem pairs_cons (p : Nat × Nat) (ps : List (Nat × Nat)) :
    pairs (p :: ps) = ⟨p.1, true⟩ :: ⟨p.2, true⟩ :: pairs ps := rfl

theorem marked_pairs (ps : List (Nat × Nat)) : ∀ b ∈ pairs ps, b.mark = true := by
  intro b hb
  obtain ⟨p, -, hb⟩ := List.mem_flatMap.mp hb
  rcases List.mem_cons.mp hb with rfl | hb
  · rfl
  · rw [List.mem_singleton.mp hb]

theorem pairs_append (ps qs : List (Nat × Nat)) : pairs (ps ++ qs) = pairs ps ++ pairs qs :=
  List.flatMap_append

theorem holes_append (ps qs : List (Nat × Nat)) : holes (ps ++ qs) = holes ps ++ holes qs :=
  List.flatMap_append

theorem span_holes (ps : List (Nat × Nat)) : span (holes ps) = span (pairs ps) := by
  induction ps with
  | nil => rfl
  | cons p ps ih =>
      have hcons : holes (p :: ps) = ⟨p.1, true⟩ :: ⟨p.2, false⟩ :: holes ps := rfl
      rw [hcons, pairs_cons]
      simp [ih]

theorem le_span_pairs {a₁ a₂ : Nat} {ps : List (Nat × Nat)} (h : ∀ p ∈ ps, a₁ ≤ p.1 ∧ a₂ ≤ p.2) :
    ps.length * (a₁ + a₂) ≤ span (pairs ps) := by
  induction ps with
  | nil => simp
  | cons p ps ih =>
      obtain ⟨⟨h1, h2⟩, hrest⟩ := List.forall_mem_cons.mp h
      have hle := ih hrest
      rw [pairs_cons, List.length_cons, Nat.add_mul]
      simp only [span_cons]
      omega

/-- Where the second block of each pair is. -/
def seconds : Nat → List (Nat × Nat) → List Nat
  | _, [] => []
  | o, p :: ps => (o + p.1) :: seconds (o + p.1 + p.2) ps

theorem seconds_append (o : Nat) (ps qs : List (Nat × Nat)) :
    seconds o (ps ++ qs) = seconds o ps ++ seconds (o + span (pairs ps)) qs := by
  induction ps generalizing o with
  | nil => simp [seconds, pairs]
  | cons p ps ih =>
      rw [List.cons_append, seconds, seconds, ih, pairs_cons]
      simp [Nat.add_assoc]

theorem length_seconds (o : Nat) (ps : List (Nat × Nat)) : (seconds o ps).length = ps.length := by
  induction ps generalizing o with
  | nil => rfl
  | cons p ps ih => rw [seconds, List.length_cons, List.length_cons, ih]

/-- No hole has `a` units. -/
theorem small_holes {a : Nat} {ps : List (Nat × Nat)} (h : ∀ p ∈ ps, p.2 < a) :
    ∀ b ∈ holes ps, b.mark = true ∨ b.size < a := by
  intro b hb
  obtain ⟨p, hp, hb⟩ := List.mem_flatMap.mp hb
  rcases List.mem_cons.mp hb with rfl | hb
  · exact Or.inl rfl
  · rw [List.mem_singleton.mp hb]
    exact Or.inr (h p hp)

section Free

variable {qs : List (Nat × Nat)} {p : Nat × Nat}

theorem pos_holes (hqs : ∀ q ∈ qs, 0 < q.1 ∧ 0 < q.2) : ∀ b ∈ holes qs, 0 < b.size := by
  intro b hb
  obtain ⟨q, hq, hb⟩ := List.mem_flatMap.mp hb
  rcases List.mem_cons.mp hb with rfl | hb
  · exact (hqs q hq).1
  · rw [List.mem_singleton.mp hb]
    exact (hqs q hq).2

/-- What lies before the second block of the next pair. -/
theorem split_pair (ps : List (Nat × Nat)) (c : Nat) :
    holes qs ++ pairs (p :: ps) ++ rest c
      = (holes qs ++ [⟨p.1, true⟩]) ++ ⟨p.2, true⟩ :: (pairs ps ++ rest c) := by
  rw [pairs_cons]
  simp

theorem freeAt_second (hqs : ∀ q ∈ qs, 0 < q.1 ∧ 0 < q.2) (hp : 0 < p.1)
    (ps : List (Nat × Nat)) (c : Nat) :
    freeAt (span (pairs qs) + p.1) (holes qs ++ pairs (p :: ps) ++ rest c)
      = release (holes qs ++ [⟨p.1, true⟩]) p.2 (pairs ps ++ rest c) := by
  have hpos : ∀ b ∈ holes qs ++ [⟨p.1, true⟩], 0 < b.size := by
    intro b hb
    rcases List.mem_append.mp hb with hb | hb
    · exact pos_holes hqs b hb
    · rw [List.mem_singleton.mp hb]
      exact hp
  have hspan : span (pairs qs) + p.1 = span (holes qs ++ [⟨p.1, true⟩]) := by
    rw [← span_holes]
    simp
  rw [split_pair, hspan, freeAt_mid hpos]

/-- **A free between pairs** leaves a hole. -/
theorem freeAt_hole (hqs : ∀ q ∈ qs, 0 < q.1 ∧ 0 < q.2) (hp : 0 < p.1)
    (q : Nat × Nat) (ps : List (Nat × Nat)) (c : Nat) :
    freeAt (span (pairs qs) + p.1) (holes qs ++ pairs (p :: q :: ps) ++ rest c)
      = holes (qs ++ [p]) ++ pairs (q :: ps) ++ rest c := by
  rw [freeAt_second hqs hp, pairs_cons, List.cons_append, release_between, holes_append]
  simp [holes]

theorem freeAt_end (hqs : ∀ q ∈ qs, 0 < q.1 ∧ 0 < q.2) (hp : 0 < p.1)
    (hp2 : 0 < p.2) (c : Nat) :
    freeAt (span (pairs qs) + p.1) (holes qs ++ pairs [p] ++ rest c)
      = holes qs ++ [⟨p.1, true⟩] ++ rest (p.2 + c) := by
  rw [freeAt_second hqs hp]
  exact release_last _ _ _ _ hp2

end Free

end BlockList
