import MallocLab.Driver.Steady
import MallocLab.Lib.Holes

set_option autoImplicit false

/-! # The binary traces

`gen_binary.pl` allocates pairs of blocks, frees the second of each pair, and asks for blocks of
the size of both. First fit cannot use the holes again: each one has an allocated block on either
side and is too small. So the heap grows by what the third loop asks for, and every hole but the
last is lost. With what the requests need at most, this bounds the utilization on both sides.
-/

namespace MallocLab

open Commands Words Tiling BlockList

/-! ## Requests behind a store without holes -/

theorem run_serve (t : Store) (ops : List TraceOp) : run Store.serve t ops = t.serveAll ops := by
  induction ops generalizing t with
  | nil => rfl
  | cons op ops ih =>
      rw [run, Store.serveAll]
      cases t.serve op with
      | none => rfl
      | some t' => exact ih t'

/-- From a store in `A`, the requests lead to one in `B`, if they are served. -/
def Turns (A : Store → Prop) (ops : List TraceOp) (B : Store → Prop) : Prop :=
  Triple Store.serve (fun _ => True) A ops B

theorem Turns.serveAll {A B : Store → Prop} {ops : List TraceOp} (h : Turns A ops B) {t t' : Store}
    (hA : A t) (hserve : t.serveAll ops = some t') : B t' :=
  (h t hA).2 t' (by rw [run_serve, hserve])

theorem Turns.one {A B : Store → Prop} {op : TraceOp}
    (h : ∀ t t', A t → t.serve op = some t' → B t') : Turns A [op] B :=
  Triple.cons (fun _ _ => trivial) h (Triple.nil fun _ hB => ⟨trivial, hB⟩)

theorem serve_a {t t' : Store} {id n : Nat} (h1 : 1 ≤ n) (hlt : n < 2 ^ 31)
    (h : t.serve (.a id n) = some t') :
    ∃ o, firstFit 16 (MAX_HEAP - 16) (extension n) (requestSize n) t.blocks = some (o, t'.blocks) ∧
      t'.names = Function.update t.names id (some (16 + o)) := by
  rw [serve_alloc rfl] at h
  obtain ⟨⟨o, bs⟩, ha, rfl⟩ := Option.map_eq_some_iff.mp h
  have hsize : toSize (TraceOp.a id n).size = n := toSize_natCast hlt
  rw [hsize, allocate_eq h1] at ha
  exact ⟨o, ha, rfl⟩

/-- A request that no hole is large enough for is served from the end. -/
theorem serve_shut {t t' : Store} {id n c : Nat} {L : List Blk} (h1 : 1 ≤ n) (hlt : n < 2 ^ 31)
    (hblocks : t.blocks = L ++ rest c) (hL : Shut (requestSize n) L)
    (h : t.serve (.a id n) = some t') :
    t'.names = Function.update t.names id (some (16 + span L)) ∧
      ∃ s c', requestSize n ≤ s ∧ s < requestSize n + 16 ∧
        t'.blocks = L ++ ⟨s, true⟩ :: rest c' := by
  obtain ⟨o, hfit, hnames⟩ := serve_a h1 hlt h
  have hpos : 0 < requestSize n := by
    have hle := le_requestSize n
    omega
  rw [hblocks] at hfit
  obtain ⟨rfl, hblocks'⟩ := firstFit_shut (by norm_num) hpos (requestSize_le_extension n) hL hfit
  exact ⟨hnames, hblocks'⟩

/-- A free that is served gives back the block that its id names. -/
theorem serve_f_inv {t t' : Store} {op : TraceOp} (htype : op.type = .free)
    (h : t.serve op = some t') :
    ∃ p, t.names op.index = some p ∧
      t' = ⟨freeAt (p - 16) t.blocks, Function.update t.names op.index none⟩ := by
  cases hname : t.names op.index with
  | none =>
      have hreq : op.req = .free op.index := by rw [TraceOp.req, htype]
      rw [Store.serve, hreq, Req.call, hname] at h
      cases h
  | some p =>
      rw [serve_free htype hname] at h
      cases h
      exact ⟨p, rfl, rfl⟩

theorem span_frees {t t' : Store} {ops : List TraceOp} (hfrees : ∀ op ∈ ops, op.type = .free)
    (h : t.serveAll ops = some t') : span t'.blocks = span t.blocks := by
  induction ops generalizing t with
  | nil =>
      cases h
      rfl
  | cons op ops ih =>
      obtain ⟨hop, hrest⟩ := List.forall_mem_cons.mp hfrees
      obtain ⟨t1, hserve, hserved⟩ := serveAll_cons.mp h
      obtain ⟨p, -, rfl⟩ := serve_f_inv hop hserve
      rw [ih hrest hserved]
      exact span_freeAt _ _

/-! ## The three loops -/

/-- The store while pairs are allocated and then freed by half: holes in the pairs `qs`, and the
pairs `ps` whose second blocks have their ids. -/
structure Checkered (a₁ a₂ : Nat) (t : Store) (qs ps : List (Nat × Nat)) (c : Nat) : Prop where
  blocks : t.blocks = holes qs ++ pairs ps ++ rest c
  sizes : ∀ p ∈ qs ++ ps, a₁ ≤ p.1 ∧ a₂ ≤ p.2 ∧ p.2 < a₂ + 16
  names : ∀ j o, (seconds (span (pairs qs)) ps)[j]? = some o →
    t.names (2 * (qs.length + j) + 1) = some (16 + o)

/-- `m` bytes lie in front of the end, and no hole among them has `a` bytes. -/
def Behind (a m : Nat) (t : Store) : Prop :=
  ∃ L c, t.blocks = L ++ rest c ∧ Shut a L ∧ m ≤ span L

theorem Behind.mono {a a' m : Nat} {t : Store} (h : Behind a m t) (ha : a ≤ a') : Behind a' m t := by
  obtain ⟨L, c, hblocks, hL, hm⟩ := h
  exact ⟨L, c, hblocks, hL.mono ha, hm⟩

section Binary

variable {blkSize1 blkSize2 : Nat}

/-- One more pair. -/
theorem Checkered.pair {t t1 t2 : Store} {ps : List (Nat × Nat)} {c : Nat}
    (h1 : 1 ≤ blkSize1 ∧ blkSize1 < 2 ^ 31) (h2 : 1 ≤ blkSize2 ∧ blkSize2 < 2 ^ 31)
    (h : Checkered (requestSize blkSize1) (requestSize blkSize2) t [] ps c)
    (hserve1 : t.serve (.a (2 * ps.length) blkSize1) = some t1)
    (hserve2 : t1.serve (.a (2 * ps.length + 1) blkSize2) = some t2) :
    ∃ p c', Checkered (requestSize blkSize1) (requestSize blkSize2) t2 [] (ps ++ [p]) c' := by
  have hmarked := marked_pairs ps
  obtain ⟨hnames1, x, c1, hx, -, hblocks1⟩ := serve_shut h1.1 h1.2 h.blocks
    (shut_of_marked hmarked _) hserve1
  have hblocks1' : t1.blocks = (pairs ps ++ [⟨x, true⟩]) ++ rest c1 := by
    rw [hblocks1]
    simp [holes]
  obtain ⟨hnames2, y, c2, hy, hlt, hblocks2⟩ := serve_shut h2.1 h2.2 hblocks1'
    (Shut.concat (fun b hb => Or.inl (hmarked b hb)) x) hserve2
  refine ⟨(x, y), c2, ?_, ?_, ?_⟩
  · rw [hblocks2, pairs_append]
    simp [pairs, holes]
  · intro p hp
    rcases List.mem_append.mp hp with hp | hp
    · exact absurd hp List.not_mem_nil
    rcases List.mem_append.mp hp with hp | hp
    · exact h.sizes p (List.mem_append_right _ hp)
    · rw [List.mem_singleton.mp hp]
      exact ⟨hx, hy, hlt⟩
  · intro j o hj
    rw [seconds_append, List.getElem?_append, length_seconds] at hj
    rw [hnames2, hnames1]
    split at hj
    · next hlt =>
        rw [Function.update_of_ne (by simp; omega), Function.update_of_ne (by simp; omega)]
        exact h.names j o hj
    · next hle =>
        obtain ⟨hzero, ho⟩ : j - ps.length = 0 ∧ span (pairs ps) + x = o := by
          cases hd : j - ps.length with
          | zero =>
              rw [hd] at hj
              simpa [seconds, pairs] using hj
          | succ k =>
              rw [hd] at hj
              cases hj
        obtain rfl : j = ps.length := by omega
        rw [List.length_nil, Nat.zero_add, Function.update_self, ← ho]
        simp

/-- The first loop builds a stack of pairs. -/
theorem pairs_turns (h1 : 1 ≤ blkSize1 ∧ blkSize1 < 2 ^ 31) (h2 : 1 ≤ blkSize2 ∧ blkSize2 < 2 ^ 31)
    (n : Nat) :
    Turns (fun t => t = Store.initial)
      ((List.range n).flatMap (fun i => [.a (2 * i) blkSize1, .a (2 * i + 1) blkSize2]))
      (fun t => ∃ ps c, ps.length = n ∧
        Checkered (requestSize blkSize1) (requestSize blkSize2) t [] ps c) := by
  refine Triple.weaken (Triple.loop (I := fun i t => ∃ ps c, ps.length = i ∧
    Checkered (requestSize blkSize1) (requestSize blkSize2) t [] ps c) (fun _ _ => trivial)
    fun i _ => ?_) ?_ (fun _ h => h)
  swap
  · rintro t rfl
    refine ⟨[], 4096, rfl, rfl, fun p hp => absurd hp List.not_mem_nil, fun j o hj => ?_⟩
    cases hj
  refine Triple.cons (B := fun t1 => ∃ t ps c, ps.length = i ∧
    Checkered (requestSize blkSize1) (requestSize blkSize2) t [] ps c ∧
    t.serve (.a (2 * i) blkSize1) = some t1) (fun _ _ => trivial) ?_ (Turns.one ?_)
  · rintro t t1 ⟨ps, c, hlen, hC⟩ hserve
    exact ⟨t, ps, c, hlen, hC, hserve⟩
  · rintro t1 t2 ⟨t, ps, c, rfl, hC, hserve1⟩ hserve2
    obtain ⟨p, c', hC'⟩ := hC.pair h1 h2 hserve1 hserve2
    exact ⟨ps ++ [p], c', by simp, hC'⟩

/-- The next free. -/
theorem Checkered.free {a₁ a₂ : Nat} {t t1 : Store} {qs ps : List (Nat × Nat)} {p : Nat × Nat}
    {c : Nat} (h : Checkered a₁ a₂ t qs (p :: ps) c)
    (hserve : t.serve (.f (2 * qs.length + 1)) = some t1) :
    t1.blocks = freeAt (span (pairs qs) + p.1) (holes qs ++ pairs (p :: ps) ++ rest c) ∧
      t1.names = Function.update t.names (2 * qs.length + 1) none := by
  obtain ⟨o, hname, rfl⟩ := serve_f_inv rfl hserve
  have hfirst := h.names 0 (span (pairs qs) + p.1) rfl
  have ho : o = 16 + (span (pairs qs) + p.1) := Option.some.inj (hname.symm.trans hfirst)
  refine ⟨?_, rfl⟩
  show freeAt (o - 16) t.blocks = _
  rw [ho, Nat.add_sub_cancel_left, h.blocks]

/-- The second loop leaves a hole behind each block but the last, which is followed by the end. -/
theorem Checkered.halved {a₁ a₂ : Nat} (ha : 0 < a₁ ∧ 0 < a₂) {t t' : Store}
    {qs ps : List (Nat × Nat)} {p : Nat × Nat} {c : Nat} (h : Checkered a₁ a₂ t qs (p :: ps) c)
    (hserve : t.serveAll ((List.range' qs.length (ps.length + 1)).map (fun i => .f (2 * i + 1)))
      = some t') :
    Behind (a₂ + 16) ((qs.length + ps.length) * (a₁ + a₂) + a₁) t' := by
  have hqs : ∀ q ∈ qs, a₁ ≤ q.1 ∧ a₂ ≤ q.2 ∧ q.2 < a₂ + 16 :=
    fun q hq => h.sizes q (List.mem_append_left _ hq)
  have hpos : ∀ q ∈ qs, 0 < q.1 ∧ 0 < q.2 := by
    intro q hq
    obtain ⟨hq1, hq2, -⟩ := hqs q hq
    exact ⟨by omega, by omega⟩
  obtain ⟨hp1, hp2, -⟩ := h.sizes p (List.mem_append_right _ List.mem_cons_self)
  induction ps generalizing t qs p with
  | nil =>
      obtain ⟨t1, hfree, hrest⟩ := serveAll_cons.mp hserve
      obtain rfl : t1 = t' := Option.some.inj hrest
      refine ⟨holes qs ++ [⟨p.1, true⟩], p.2 + c, ?_, ?_, ?_⟩
      · rw [(h.free hfree).1, freeAt_end hpos (by omega) (by omega)]
      · exact Shut.concat (small_holes fun q hq => (hqs q hq).2.2) p.1
      · have hle := le_span_pairs (fun q hq => ⟨(hqs q hq).1, (hqs q hq).2.1⟩)
        simp only [List.length_nil, Nat.add_zero, span_append, span_holes, span_cons, span_nil]
        omega
  | cons q ps ih =>
      obtain ⟨t1, hfree, hrest⟩ := serveAll_cons.mp hserve
      obtain ⟨hblocks, hnames⟩ := h.free hfree
      rw [freeAt_hole hpos (by omega)] at hblocks
      have hsizes : ∀ r ∈ (qs ++ [p]) ++ q :: ps, a₁ ≤ r.1 ∧ a₂ ≤ r.2 ∧ r.2 < a₂ + 16 := by
        intro r hr
        rw [List.append_assoc] at hr
        exact h.sizes r hr
      have hC : Checkered a₁ a₂ t1 (qs ++ [p]) (q :: ps) c := by
        refine ⟨hblocks, hsizes, fun j o hj => ?_⟩
        -- the blocks that are left have the ids behind this one
        have hold : (seconds (span (pairs qs)) (p :: q :: ps))[j + 1]? = some o := by
          rw [pairs_append, span_append, pairs_cons] at hj
          simp only [span_cons, pairs, List.flatMap_nil, span_nil, Nat.add_zero] at hj
          rw [seconds, List.getElem?_cons_succ, Nat.add_assoc]
          exact hj
        have hname := h.names (j + 1) o hold
        rw [hnames, Function.update_of_ne (by simp; omega), List.length_append,
          List.length_singleton, Nat.add_assoc, Nat.add_comm 1 j]
        exact hname
      have hpos' : ∀ r ∈ qs ++ [p], a₁ ≤ r.1 ∧ a₂ ≤ r.2 ∧ r.2 < a₂ + 16 :=
        fun r hr => hsizes r (List.mem_append_left _ hr)
      have hq := hsizes q (List.mem_append_right _ List.mem_cons_self)
      have hlen : (qs ++ [p]).length = qs.length + 1 := by simp
      have hdone := ih hC (by rw [hlen]; exact hrest) hpos' (fun r hr => by
        obtain ⟨hr1, hr2, -⟩ := hpos' r hr
        exact ⟨by omega, by omega⟩) hq.1 hq.2.1
      rw [hlen, Nat.add_right_comm] at hdone
      rw [List.length_cons, ← Nat.add_assoc]
      exact hdone

/-- The third loop asks for blocks that no hole can hold. -/
theorem large_turns {a m n : Nat} (id size : Nat) (h1 : 1 ≤ size) (hlt : size < 2 ^ 31)
    (ha : a ≤ requestSize size) :
    Turns (Behind a m) ((List.range n).flatMap (fun i => [.a (id + i) size]))
      (Behind (requestSize size) (m + n * requestSize size)) := by
  refine Triple.weaken (Triple.loop (I := fun i => Behind (requestSize size)
    (m + i * requestSize size)) (fun _ _ => trivial) fun i _ => ?_) (fun t h => ?_) (fun _ h => h)
  swap
  · rw [Nat.zero_mul, Nat.add_zero]
    exact h.mono ha
  refine Turns.one ?_
  rintro t t' ⟨L, c, hblocks, hL, hm⟩ hserve
  obtain ⟨-, s, c', hs, -, hblocks'⟩ := serve_shut h1 hlt hblocks hL hserve
  refine ⟨L ++ [⟨s, true⟩], c', by rw [hblocks']; simp, Shut.concat hL.small s, ?_⟩
  rw [Nat.add_mul, Nat.one_mul]
  simp
  omega

/-- **Every hole but the last is lost.** When `gen_binary.pl` is served, its heap holds the blocks
of its first loop with all that was freed in between, and the blocks of its third loop. -/
theorem binary_span {n : Nat} {frees : List TraceOp} {t : Store}
    (h1 : 1 ≤ blkSize1) (h2 : 1 ≤ blkSize2) (hsum : blkSize1 + blkSize2 < 2 ^ 31) (hn : 1 ≤ n)
    (hgap : requestSize blkSize2 + 16 ≤ requestSize (blkSize1 + blkSize2))
    (hfrees : ∀ op ∈ frees, op.type = .free)
    (hserved : served (binaryOps blkSize1 blkSize2 n ++ frees) = some t) :
    n * (requestSize blkSize1 + requestSize blkSize2 + requestSize (blkSize1 + blkSize2))
      ≤ span t.blocks + requestSize blkSize2 := by
  have hpos : 0 < requestSize blkSize1 ∧ 0 < requestSize blkSize2 := by
    have hle1 := le_requestSize blkSize1
    have hle2 := le_requestSize blkSize2
    exact ⟨by omega, by omega⟩
  rw [served, serveAll_append] at hserved
  obtain ⟨t3, hserved3, hserved⟩ := Option.bind_eq_some_iff.mp hserved
  rw [binaryOps, serveAll_append, serveAll_append] at hserved3
  obtain ⟨t2, hserved2, hserved3⟩ := Option.bind_eq_some_iff.mp hserved3
  obtain ⟨t1, hserved1, hserved2⟩ := Option.bind_eq_some_iff.mp hserved2
  obtain ⟨ps, c, hlen, hC⟩ := (pairs_turns ⟨h1, by omega⟩ ⟨h2, by omega⟩ n).serveAll rfl hserved1
  obtain ⟨p, ps, rfl⟩ : ∃ p ps', ps = p :: ps' := by
    cases ps with
    | nil => simp at hlen; omega
    | cons p ps' => exact ⟨p, ps', rfl⟩
  have hloop : (List.range n).flatMap (fun i => [TraceOp.f (2 * i + 1)])
      = (List.range' 0 (ps.length + 1)).map (fun i => .f (2 * i + 1)) := by
    rw [← List.map_eq_flatMap, List.range_eq_range', ← hlen, List.length_cons]
  have hhalved : Behind _ _ t2 := hC.halved hpos (by
    rw [List.length_nil, ← hloop]
    exact hserved2)
  have hlarge := (large_turns (n := n) (2 * n) (blkSize1 + blkSize2) (by omega) hsum hgap).serveAll
    hhalved hserved3
  obtain ⟨L, c3, hblocks, -, hle⟩ := hlarge
  have hspan : span L ≤ span t.blocks := by
    rw [span_frees hfrees hserved, hblocks, span_append]
    exact Nat.le_add_right _ _
  have hcount : n = ps.length + 1 := hlen.symm
  rw [List.length_nil, Nat.zero_add] at hle
  calc n * (requestSize blkSize1 + requestSize blkSize2 + requestSize (blkSize1 + blkSize2))
      = ps.length * (requestSize blkSize1 + requestSize blkSize2) + requestSize blkSize1
          + n * requestSize (blkSize1 + blkSize2) + requestSize blkSize2 := by
        rw [hcount]
        ring
    _ ≤ span t.blocks + requestSize blkSize2 := Nat.add_le_add_right (hle.trans hspan) _

/-! ## The utilization -/

/-- What the requests ask for, with 23 bytes more for each. -/
def asked (ops : List TraceOp) : Int :=
  ((ops.filter (·.type ≠ .free)).map (fun op => op.size + 23)).sum

theorem asked_append (ops₁ ops₂ : List TraceOp) : asked (ops₁ ++ ops₂) = asked ops₁ + asked ops₂ := by
  rw [asked, List.filter_append, List.map_append, List.sum_append]
  rfl

theorem asked_loop {body : Nat → List TraceOp} {k : Int} (h : ∀ i, asked (body i) = k) (n : Nat) :
    asked ((List.range n).flatMap body) = n * k := by
  induction n with
  | zero => simp [asked]
  | succ n ih =>
      rw [List.range_succ, List.flatMap_append, List.flatMap_singleton, asked_append, ih, h]
      push_cast
      ring

theorem asked_frees {ops : List TraceOp} (hfrees : ∀ op ∈ ops, op.type = .free) : asked ops = 0 := by
  have hnil : ops.filter (·.type ≠ .free) = [] := by
    refine List.filter_eq_nil_iff.mpr (fun op hop => ?_)
    rw [hfrees op hop]
    decide
  rw [asked, hnil]
  rfl

theorem asked_binary (n : Nat) :
    asked (binaryOps blkSize1 blkSize2 n) = ((n * (2 * blkSize1 + 2 * blkSize2 + 69) : Nat) : Int) := by
  rw [binaryOps, asked_append, asked_append,
    asked_loop (k := (blkSize1 + 23 : Int) + (blkSize2 + 23 : Int)) (fun i => ?_),
    asked_loop (k := 0) (fun i => rfl),
    asked_loop (k := ((blkSize1 + blkSize2 : Nat) : Int) + 23) (fun i => ?_)]
  · push_cast
    ring
  · simp [asked, TraceOp.a]
  · simp [asked, TraceOp.a]

theorem binary_sizes (n : Nat) : ∀ op ∈ binaryOps blkSize1 blkSize2 n, op.type ≠ .free →
    op.size ≤ ((blkSize1 + blkSize2 : Nat) : Int) := by
  intro op hop htype
  rcases List.mem_append.mp hop with hop | hop
  · rcases List.mem_append.mp hop with hop | hop
    · obtain ⟨i, -, hop⟩ := List.mem_flatMap.mp hop
      simp only [List.mem_cons, List.not_mem_nil, or_false] at hop
      rcases hop with rfl | rfl
      · exact Int.ofNat_le.mpr (Nat.le_add_right _ _)
      · exact Int.ofNat_le.mpr (Nat.le_add_left _ _)
    · obtain ⟨i, -, hop⟩ := List.mem_flatMap.mp hop
      rw [List.mem_singleton.mp hop] at htype
      exact absurd rfl htype
  · obtain ⟨i, -, hop⟩ := List.mem_flatMap.mp hop
    rw [List.mem_singleton.mp hop]
    exact le_refl _

/-- Frees that are put behind a trace have no size to bound. -/
theorem sizes_with_frees {S : Nat} {ops frees : List TraceOp}
    (hops : ∀ op ∈ ops, op.type ≠ .free → op.size ≤ (S : Int))
    (hfrees : ∀ op ∈ frees, op.type = .free) :
    ∀ op ∈ ops ++ frees, op.type ≠ .free → op.size ≤ (S : Int) := by
  intro op hop htype
  rcases List.mem_append.mp hop with hop | hop
  · exact hops op hop htype
  · exact absurd (hfrees op hop) htype

/-- What the requests together ask for has room. -/
theorem served_binary {n numIds : Nat} {frees : List TraceOp}
    (hfrees : ∀ op ∈ frees, op.type = .free)
    (hlegal : Trace.Legal ⟨numIds, binaryOps blkSize1 blkSize2 n ++ frees⟩)
    (hfit : n * (2 * blkSize1 + 2 * blkSize2 + 69) + max (blkSize1 + blkSize2 + 15) CHUNKSIZE + DSIZE
      ≤ MAX_HEAP - 16) :
    ∃ t, served (binaryOps blkSize1 blkSize2 n ++ frees) = some t ∧
      t.heapsize ≤ 16 + max CHUNKSIZE (n * (2 * blkSize1 + 2 * blkSize2 + 69)
        + max (blkSize1 + blkSize2 + 15) CHUNKSIZE + DSIZE) := by
  have hasked : asked (binaryOps blkSize1 blkSize2 n ++ frees)
      ≤ ((n * (2 * blkSize1 + 2 * blkSize2 + 69) : Nat) : Int) := by
    rw [asked_append, asked_frees hfrees, Int.add_zero, asked_binary]
  exact served_within hlegal hfit (fun pre op hpre htype =>
    need_le_volume hlegal (sizes_with_frees (binary_sizes n) hfrees) hasked hpre htype)

/-- **The utilization of a binary trace**, and of its balanced version, on both sides: the holes
are lost, and nothing else is but the headers and what the last growth left over. -/
theorem binary_utilization {n numIds : Nat} {frees : List TraceOp} {u : Util}
    (h1 : 1 ≤ blkSize1) (h2 : 1 ≤ blkSize2) (hsum : blkSize1 + blkSize2 < 2 ^ 31) (hn : 1 ≤ n)
    (hgap : requestSize blkSize2 + 16 ≤ requestSize (blkSize1 + blkSize2))
    (hfrees : ∀ op ∈ frees, op.type = .free)
    (hlegal : Trace.Legal ⟨numIds, binaryOps blkSize1 blkSize2 n ++ frees⟩)
    (hfit : n * (2 * blkSize1 + 2 * blkSize2 + 69) + max (blkSize1 + blkSize2 + 15) CHUNKSIZE + DSIZE
      ≤ MAX_HEAP - 16) (hu : ArenaFor (blkSize1 + blkSize2) u.heap) :
    ∃ ratio u', (evalMmUtil ⟨numIds, binaryOps blkSize1 blkSize2 n ++ frees⟩).out u
        = some (.ok ratio, u') ∧
      ((n * (2 * blkSize1 + blkSize2) : Nat) : ℚ)
          / ((16 + max CHUNKSIZE (n * (2 * blkSize1 + 2 * blkSize2 + 69)
            + max (blkSize1 + blkSize2 + 15) CHUNKSIZE + DSIZE) : Nat) : ℚ) ≤ ratio ∧
      ratio ≤ ((n * (2 * blkSize1 + blkSize2) : Nat) : ℚ)
          / ((16 + n * (requestSize blkSize1 + requestSize blkSize2
            + requestSize (blkSize1 + blkSize2)) - requestSize blkSize2 : Nat) : ℚ) := by
  have hsizes : ∀ op ∈ binaryOps blkSize1 blkSize2 n ++ frees, op.type ≠ .free →
      op.size ≤ ((blkSize1 + blkSize2 : Nat) : Int) := sizes_with_frees (binary_sizes n) hfrees
  obtain ⟨t, hserved, hupper⟩ := served_binary hfrees hlegal hfit
  have hlower := binary_span h1 h2 hsum hn hgap hfrees hserved
  obtain ⟨hno, -⟩ | ⟨t', u', ht', -, hout⟩ := evalMmUtil_served hu hlegal hsizes
  · rw [hserved] at hno
    cases hno
  obtain rfl : t = t' := Option.some.inj (hserved.symm.trans ht')
  rw [highWater_binary hfrees] at hout
  have hnonneg : (0 : ℚ) ≤ ((n * (2 * blkSize1 + blkSize2) : Nat) : ℚ) := Nat.cast_nonneg _
  have hheap : 0 < t.heapsize := by
    show 0 < 16 + span t.blocks
    omega
  refine ⟨_, u', hout, ?_, ?_⟩
  · exact div_le_div_of_nonneg_left hnonneg (by exact_mod_cast hheap) (by exact_mod_cast hupper)
  · apply div_le_div_of_nonneg_left hnonneg
    · have hone : requestSize blkSize2 ≤ n * (requestSize blkSize1 + requestSize blkSize2
          + requestSize (blkSize1 + blkSize2)) := by
        calc requestSize blkSize2
            ≤ 1 * (requestSize blkSize1 + requestSize blkSize2
                + requestSize (blkSize1 + blkSize2)) := by omega
          _ ≤ n * (requestSize blkSize1 + requestSize blkSize2
                + requestSize (blkSize1 + blkSize2)) := Nat.mul_le_mul_right _ hn
      exact_mod_cast (show 0 < _ by omega)
    · have hle : 16 + n * (requestSize blkSize1 + requestSize blkSize2
          + requestSize (blkSize1 + blkSize2)) - requestSize blkSize2 ≤ t.heapsize := by
        show _ ≤ 16 + span t.blocks
        omega
      exact_mod_cast hle

end Binary

theorem binary_legal {blkSize1 blkSize2 n : Nat} (h1 : 1 ≤ blkSize1) (h2 : 1 ≤ blkSize2)
    (hsum : blkSize1 + blkSize2 < 2 ^ 31) :
    Trace.Legal ⟨3 * n, binaryOps blkSize1 blkSize2 n ++ []⟩ := by
  rw [List.append_nil]
  exact (binary_leads h1 h2 hsum).legal.1

set_option maxRecDepth 20000 in
/-- `gen_binary.pl` comes to between 52 and 55 percent. -/
theorem binary_utilization_sample : ∃ ratio u',
    (evalMmUtil ⟨3 * 2000, binaryOps 64 448 2000 ++ []⟩).out sampleUtil = some (.ok ratio, u') ∧
      52 / 100 ≤ ratio ∧ ratio ≤ 55 / 100 := by
  obtain ⟨ratio, u', hout, hlow, hhigh⟩ := @binary_utilization 64 448 2000 (3 * 2000) [] sampleUtil
    (by decide) (by decide) (by decide) (by decide) (by decide)
    (fun op hop => absurd hop List.not_mem_nil)
    (@binary_legal 64 448 2000 (by decide) (by decide) (by decide)) (by decide)
    ⟨sampleHeap_arena, by decide, Or.inl (by decide)⟩
  refine ⟨ratio, u', hout, le_trans ?_ hlow, hhigh.trans ?_⟩
  · norm_num [CHUNKSIZE, DSIZE]
  · norm_num [requestSize]

end MallocLab
