import MallocLab.Driver.Capacity
import MallocLab.Driver.HighWater

set_option autoImplicit false

/-! # The coalescing traces

A round of `gen_coalescing.pl` allocates two blocks, frees them and allocates one of the size of
both. Since neighbours are merged, the heap is one free block after each round, and from the
second round on it is large enough for the next one. So the first round decides: if it is served,
so are all the others, in the same heap.
-/

namespace MallocLab

open Words Tiling BlockList

/-! ## Runs of the store -/

theorem serveAll_cons {t t' : Store} {op : TraceOp} {ops : List TraceOp} :
    t.serveAll (op :: ops) = some t' ↔ ∃ t1, t.serve op = some t1 ∧ t1.serveAll ops = some t' := by
  rw [Store.serveAll]
  cases t.serve op with
  | none => simp
  | some t1 => simp

section Runs

variable {t t' : Store} {ids : List Nat} {done ops : List TraceOp} {op : TraceOp} {numIds : Nat}

/-- A heap does not shrink. -/
theorem Peopled.span_serve (hP : Peopled t ids done) (hop : op.Legal numIds ids)
    (h : t.serve op = some t') : span t.blocks ≤ span t'.blocks := by
  have hfit : ∀ {n o : Nat} {bs : List Blk}, allocate n t.blocks = some (o, bs) →
      span t.blocks ≤ span bs := by
    intro n o bs ha
    rw [allocate_eq (allocate_pos ha)] at ha
    rcases span_firstFit (requestSize_le_extension n) ha with hs | ⟨hs, -⟩
    · exact hs.ge
    · omega
  rcases legal_cases hop with ⟨htype, -⟩ | ⟨htype, hsize, hid, -⟩ | ⟨htype, hid, -⟩
  · rw [serve_alloc htype] at h
    obtain ⟨⟨o, bs⟩, ha, rfl⟩ := Option.map_eq_some_iff.mp h
    exact hfit ha
  · obtain ⟨n, hn⟩ := (hP.same _).mp hid
    obtain ⟨p, hname, hp⟩ := hP.named _ hn
    rw [serve_realloc htype (toSize_bounds hsize).1 hname hp] at h
    obtain ⟨⟨o, bs⟩, ha, rfl⟩ := Option.map_eq_some_iff.mp h
    exact (hfit ha).trans (span_freeAt _ _).ge
  · obtain ⟨n, hn⟩ := (hP.same _).mp hid
    obtain ⟨p, hname, hp⟩ := hP.named _ hn
    rw [serve_free htype hname] at h
    cases h
    exact (span_freeAt _ _).ge

/-- **A run of the store** keeps its account, and its heap does not shrink. -/
theorem Peopled.after (hP : Peopled t ids done) (hops : LegalFrom numIds ids ops)
    (h : t.serveAll ops = some t') :
    Peopled t' (idsAfter ids ops) (done ++ ops) ∧ span t.blocks ≤ span t'.blocks := by
  induction ops generalizing t ids done with
  | nil =>
      cases h
      rw [List.append_nil]
      exact ⟨hP, le_refl _⟩
  | cons op ops ih =>
      obtain ⟨t1, hserve, hrest⟩ := serveAll_cons.mp h
      obtain ⟨hP', hspan⟩ := ih (hP.serve hops.1 hserve) hops.2 hrest
      rw [List.append_assoc] at hP'
      exact ⟨hP', (hP.span_serve hops.1 hserve).trans hspan⟩

/-- **No live blocks, no holes.** The heap is one free block. -/
theorem Peopled.alone (hP : Peopled t ids done) (hnone : liveSizes done = []) :
    t.blocks = [⟨span t.blocks, false⟩] := by
  have hfree : ∀ b ∈ t.blocks, b.mark = false := by
    have hhoused := hP.housed
    rw [hnone] at hhoused
    have hlen := hhoused.held.2
    have hnil : heldBlocks t.blocks = [] := List.eq_nil_of_length_eq_zero hlen
    intro b hb
    cases hmark : b.mark with
    | false => rfl
    | true => exact absurd hmark (List.filter_eq_nil_iff.mp hnil b hb)
  exact (coalesced_free hP.coalesced hfree).resolve_left hP.nonempty

end Runs

/-! ## Requests that fit -/

theorem toSize_natCast {n : Nat} (hlt : n < 2 ^ 31) : toSize (n : Int) = n := by
  unfold toSize
  omega

/-- A request for which there is a free block is served without more memory. -/
theorem serve_fits (t : Store) (id : Nat) {n : Nat} (h1 : 1 ≤ n) (hlt : n < 2 ^ 31)
    (hfit : ∃ b ∈ t.blocks, b.mark = false ∧ requestSize n ≤ b.size) :
    ∃ p t', t.serve (.a id n) = some t' ∧ t'.names = Function.update t.names id (some p) ∧
      span t'.blocks = span t.blocks := by
  have hsome : splitFit (requestSize n) t.blocks ≠ none := by
    intro hnone
    obtain ⟨b, hb, hmark, hle⟩ := hfit
    rcases splitFit_none.mp hnone b hb with h | h
    · rw [hmark] at h
      cases h
    · omega
  have hserve : t.serve (.a id n) = (allocate n t.blocks).map
      (fun r => ⟨r.2, Function.update t.names id (some (16 + r.1))⟩) := by
    rw [serve_alloc rfl]
    show (allocate (toSize (n : Int)) t.blocks).map _ = _
    rw [toSize_natCast hlt]
    rfl
  cases ha : allocate n t.blocks with
  | none =>
      rw [allocate_eq h1] at ha
      exact absurd (firstFit_none ha).1 hsome
  | some r =>
      rw [ha] at hserve
      refine ⟨16 + r.1, _, hserve, rfl, ?_⟩
      rw [allocate_eq h1] at ha
      rcases span_firstFit (requestSize_le_extension n) ha with hs | ⟨-, hno⟩
      · exact hs
      · exact absurd hno hsome

theorem serve_f {t : Store} {id p : Nat} (hname : t.names id = some p) :
    ∃ t', t.serve (.f id) = some t' ∧ t'.names = Function.update t.names id none ∧
      span t'.blocks = span t.blocks :=
  ⟨_, serve_free rfl hname, rfl, span_freeAt _ _⟩

/-! ## Rounds -/

section Coalescing

variable {blkSize : Nat}

/-- The body of the loop. -/
def coalescingRound (blkSize i : Nat) : List TraceOp :=
  [.a (3 * i) blkSize, .a (3 * i + 1) blkSize, .f (3 * i), .f (3 * i + 1),
    .a (3 * i + 2) (2 * blkSize), .f (3 * i + 2)]

theorem coalescingOps_succ (blkSize n : Nat) :
    coalescingOps blkSize (n + 1) = coalescingOps blkSize n ++ coalescingRound blkSize n := by
  rw [coalescingOps, coalescingOps, List.range_succ, List.flatMap_append, List.flatMap_singleton]
  rfl

theorem requestSize_two_mul (n : Nat) : requestSize (2 * n) ≤ 2 * requestSize n := by
  unfold requestSize
  omega

/-- The first block of a round leaves room for the second. -/
theorem round_first {t : Store} {i N : Nat} (h1 : 1 ≤ blkSize) (hlt : blkSize < 2 ^ 31)
    (hN : t.blocks = [⟨N, false⟩]) (hlarge : 2 * requestSize blkSize ≤ N) :
    ∃ t', t.serve (.a i blkSize) = some t' ∧ t'.names = Function.update t.names i (some 16) ∧
      t'.blocks = [⟨requestSize blkSize, true⟩, ⟨N - requestSize blkSize, false⟩] := by
  have h16 : 16 ≤ requestSize blkSize := by
    unfold requestSize
    omega
  have hfit : splitFit (requestSize blkSize) t.blocks = some ([], N, []) := by
    rw [hN]
    exact if_pos ⟨rfl, by simp only; omega⟩
  have ha : allocate blkSize t.blocks
      = some (0, [⟨requestSize blkSize, true⟩, ⟨N - requestSize blkSize, false⟩]) := by
    rw [allocate_eq h1, firstFit, hfit]
    simp only [span_nil, List.nil_append, List.append_nil]
    rw [carve, if_pos (by omega)]
  refine ⟨⟨_, Function.update t.names i (some (16 + 0))⟩, ?_, rfl, rfl⟩
  rw [serve_alloc rfl]
  show (allocate (toSize (blkSize : Int)) t.blocks).map _ = _
  rw [toSize_natCast hlt, ha]
  rfl

/-- One free block that is twice what a block takes is enough for a round. -/
theorem round_fits {t : Store} {n N : Nat} (h1 : 1 ≤ blkSize) (hlt : 2 * blkSize < 2 ^ 31)
    (hserved : served (coalescingOps blkSize n) = some t) (hN : t.blocks = [⟨N, false⟩])
    (hlarge : 2 * requestSize blkSize ≤ N) :
    ∃ t', served (coalescingOps blkSize (n + 1)) = some t' ∧ span t'.blocks = N := by
  have hlegal : LegalFrom (3 * (n + 1)) [] (coalescingOps blkSize (n + 1)) :=
    (coalescing_leads h1 hlt).legal.1
  have hrequest := requestSize_two_mul blkSize
  obtain ⟨t1, hserve, hnames1, hblocks1⟩ := round_first (i := 3 * n) h1 (by omega) hN hlarge
  obtain ⟨p2, t2, hserve2, hnames2, hspan2⟩ := serve_fits t1 (3 * n + 1) h1 (by omega)
    ⟨⟨N - requestSize blkSize, false⟩, by rw [hblocks1]; simp, rfl, by simp only; omega⟩
  have hname1 : t2.names (3 * n) = some 16 := by
    rw [hnames2, Function.update_of_ne (by omega), hnames1, Function.update_self]
  obtain ⟨t3, hserve3, hnames3, hspan3⟩ := serve_f hname1
  have hname2 : t3.names (3 * n + 1) = some p2 := by
    rw [hnames3, Function.update_of_ne (by omega), hnames2, Function.update_self]
  obtain ⟨t4, hserve4, -, hspan4⟩ := serve_f hname2
  have hspan : span t4.blocks = N := by
    rw [hspan4, hspan3, hspan2, hblocks1]
    simp
    omega
  -- with all blocks freed, the heap is one free block
  have hserved4 : served (coalescingOps blkSize n ++ (coalescingRound blkSize n).take 4)
      = some t4 := by
    rw [served, serveAll_append, ← served, hserved]
    exact serveAll_cons.mpr ⟨_, hserve, serveAll_cons.mpr ⟨t2, hserve2,
      serveAll_cons.mpr ⟨t3, hserve3, serveAll_cons.mpr ⟨t4, hserve4, rfl⟩⟩⟩⟩
  have hsplit : coalescingOps blkSize (n + 1)
      = coalescingOps blkSize n ++ (coalescingRound blkSize n).take 4
        ++ (coalescingRound blkSize n).drop 4 := by
    rw [coalescingOps_succ, List.append_assoc, List.take_append_drop]
  have hone : t4.blocks = [⟨span t4.blocks, false⟩] := by
    rw [hsplit, legalFrom_append] at hlegal
    refine (peopled_initial.after hlegal.1 hserved4).1.alone ?_
    have hdone : liveSizes (coalescingOps blkSize n) = [] := coalescing_carries.liveSizes.2
    rw [List.nil_append, liveSizes, List.foldl_append, ← liveSizes, hdone]
    simp [coalescingRound, TraceOp.resize, TraceOp.a, TraceOp.f]
  rw [hspan] at hone
  obtain ⟨p5, t5, hserve5, hnames5, hspan5⟩ := serve_fits t4 (3 * n + 2) (by omega) hlt
    ⟨⟨N, false⟩, by rw [hone]; exact List.mem_singleton_self _, rfl, hrequest.trans hlarge⟩
  have hname5 : t5.names (3 * n + 2) = some p5 := by rw [hnames5, Function.update_self]
  obtain ⟨t6, hserve6, -, hspan6⟩ := serve_f hname5
  refine ⟨t6, ?_, by rw [hspan6, hspan5, hspan]⟩
  rw [hsplit, served, serveAll_append, ← served, hserved4]
  exact serveAll_cons.mpr ⟨t5, hserve5, serveAll_cons.mpr ⟨t6, hserve6, rfl⟩⟩

/-- What a round leaves is large enough for the next one. -/
theorem round_leaves {t : Store} (h1 : 1 ≤ blkSize) (hlt : 2 * blkSize < 2 ^ 31)
    (hserved : served (coalescingOps blkSize 1) = some t) :
    2 * requestSize blkSize ≤ span t.blocks := by
  have hlegal : LegalFrom (3 * 1) [] (coalescingOps blkSize 1) := (coalescing_leads h1 hlt).legal.1
  have hgrow : ∀ {s s' : Store} {id : Nat}, s.serve (.a id blkSize) = some s' →
      held s.blocks + requestSize blkSize ≤ held s'.blocks := by
    intro s s' id h
    rw [serve_alloc rfl] at h
    obtain ⟨⟨o, bs⟩, ha, rfl⟩ := Option.map_eq_some_iff.mp h
    have hsize : toSize (TraceOp.a id blkSize).size = blkSize := toSize_natCast (by omega)
    rw [hsize, allocate_eq h1] at ha
    exact held_firstFit (by norm_num) (requestSize_le_extension _) ha
  obtain ⟨t1, hserve1, hrest⟩ := serveAll_cons.mp hserved
  obtain ⟨t2, hserve2, hrest⟩ := serveAll_cons.mp hrest
  have hP1 := peopled_initial.serve hlegal.1 hserve1
  have hP2 := hP1.serve hlegal.2.1 hserve2
  calc 2 * requestSize blkSize
      ≤ held t2.blocks := by
        have hheld1 := hgrow hserve1
        have hheld2 := hgrow hserve2
        omega
    _ ≤ span t2.blocks := held_le_span _
    _ ≤ span t.blocks := (hP2.after hlegal.2.2 hrest).2

/-- **The first round decides** what becomes of all the others. -/
theorem coalescing_steady {n : Nat} (h1 : 1 ≤ blkSize) (hlt : 2 * blkSize < 2 ^ 31) (hn : 1 ≤ n) :
    (served (coalescingOps blkSize n)).map Store.heapsize
      = (served (coalescingOps blkSize 1)).map Store.heapsize := by
  cases hfirst : served (coalescingOps blkSize 1) with
  | none =>
      obtain ⟨k, rfl⟩ := Nat.exists_eq_add_of_le hn
      have hprefix : ∃ ops, coalescingOps blkSize (1 + k) = coalescingOps blkSize 1 ++ ops := by
        rw [coalescingOps, List.range_add, List.flatMap_append]
        exact ⟨_, rfl⟩
      obtain ⟨ops, hops⟩ := hprefix
      rw [hops, served, serveAll_append, ← served, hfirst]
      rfl
  | some t =>
      have hround : ∃ t', served (coalescingOps blkSize n) = some t' ∧
          span t'.blocks = span t.blocks := by
        induction n, hn using Nat.le_induction with
        | base => exact ⟨t, hfirst, rfl⟩
        | succ n hn ih =>
            obtain ⟨t', hserved, hspan⟩ := ih
            have hlegal : LegalFrom (3 * n) [] (coalescingOps blkSize n) :=
              (coalescing_leads h1 hlt).legal.1
            have hone := (peopled_initial.after hlegal hserved).1.alone coalescing_carries.liveSizes.2
            rw [hspan] at hone
            exact round_fits h1 hlt hserved hone (round_leaves h1 hlt hfirst)
      obtain ⟨t', hserved, hspan⟩ := hround
      rw [hserved]
      show some (16 + span t'.blocks) = some (16 + span t.blocks)
      rw [hspan]

theorem coalescing_sizes (n : Nat) : ∀ op ∈ coalescingOps blkSize n, op.type ≠ .free →
    op.size ≤ ((2 * blkSize : Nat) : Int) := by
  intro op hop htype
  obtain ⟨i, -, hop⟩ := List.mem_flatMap.mp hop
  simp only [List.mem_cons, List.not_mem_nil, or_false] at hop
  rcases hop with rfl | rfl | rfl | rfl | rfl | rfl
  · exact Int.ofNat_le.mpr (by omega)
  · exact Int.ofNat_le.mpr (by omega)
  · exact absurd rfl htype
  · exact absurd rfl htype
  · exact le_refl _
  · exact absurd rfl htype

/-- **The utilization of a coalescing trace** does not depend on the number of its rounds, nor
does the memory that it needs: from any arenas, a run of `n` rounds fails as one round does, or
comes to the same ratio with a heap of the same size. -/
theorem coalescing_utilization {n : Nat} {u v : Util} (h1 : 1 ≤ blkSize)
    (hlt : 2 * blkSize < 2 ^ 31) (hn : 1 ≤ n) (hu : ArenaFor (2 * blkSize) u.heap)
    (hv : ArenaFor (2 * blkSize) v.heap) :
    ∃ q q' u' v', (evalMmUtil ⟨3 * n, coalescingOps blkSize n⟩).out u = some (q, u') ∧
      (evalMmUtil ⟨3, coalescingOps blkSize 1⟩).out v = some (q', v') ∧
      (((∃ e, q = .error e) ∧ ∃ e, q' = .error e) ∨
        (q = q' ∧ memHeapsize u'.heap = memHeapsize v'.heap ∧
          q = .ok (((2 * blkSize : Nat) : ℚ) / (memHeapsize u'.heap : ℚ)))) := by
  have hsteady := coalescing_steady h1 hlt hn
  have hlegal : ∀ k, Trace.Legal ⟨3 * k, coalescingOps blkSize k⟩ :=
    fun k => (coalescing_leads h1 hlt).legal.1
  obtain ⟨hno, e, u', hout⟩ | ⟨t, u', ht, hsize, hout⟩ :=
    evalMmUtil_served hu (hlegal n) (coalescing_sizes n)
  · obtain ⟨hno', e', v', hout'⟩ | ⟨t', v', ht', -⟩ :=
      evalMmUtil_served hv (hlegal 1) (coalescing_sizes 1)
    · exact ⟨_, _, u', v', hout, hout', Or.inl ⟨⟨e, rfl⟩, e', rfl⟩⟩
    · rw [hno, ht'] at hsteady
      cases hsteady
  · obtain ⟨hno', -⟩ | ⟨t', v', ht', hsize', hout'⟩ :=
      evalMmUtil_served hv (hlegal 1) (coalescing_sizes 1)
    · rw [ht, hno'] at hsteady
      cases hsteady
    · rw [ht, ht'] at hsteady
      have hsame : t.heapsize = t'.heapsize := Option.some.inj hsteady
      rw [highWater_coalescing hn] at hout
      rw [highWater_coalescing (le_refl 1), ← hsame] at hout'
      refine ⟨_, _, u', v', hout, hout', Or.inr ⟨rfl, ?_, ?_⟩⟩
      · rw [hsize, hsize', hsame]
      · rw [hsize]
        rfl

end Coalescing

/-- `gen_coalescing.pl` uses its heap almost entirely. -/
theorem coalescing_utilization_sample : ∃ q q' u' v',
    (evalMmUtil ⟨3 * 2400, coalescingOps 4095 2400⟩).out sampleUtil = some (q, u') ∧
      (evalMmUtil ⟨3, coalescingOps 4095 1⟩).out sampleUtil = some (q', v') ∧
      (((∃ e, q = .error e) ∧ ∃ e, q' = .error e) ∨
        (q = q' ∧ memHeapsize u'.heap = memHeapsize v'.heap ∧
          q = .ok (((2 * 4095 : Nat) : ℚ) / (memHeapsize u'.heap : ℚ)))) :=
  coalescing_utilization (by decide) (by decide) (by decide)
    ⟨sampleHeap_arena, by decide, Or.inl (by decide)⟩
    ⟨sampleHeap_arena, by decide, Or.inl (by decide)⟩

example : (served (coalescingOps 4095 1)).map Store.heapsize = some 8224 := by decide

end MallocLab
