import MallocLab.Driver.Speed
import MallocLab.Traces.Load

set_option autoImplicit false

/-! # The scripts that print regular traces (`gen_binary.pl`, `gen_coalescing.pl`, `gen_realloc.pl`)

Three of the scripts come in two versions that differ in their numbers only, and each prints its
header and then the requests of its loops. That the traces are legal is shown by rules for lists
of requests, with the set of the allocated ids before and after (`Leads`); so each loop needs one
invariant. The traces are then loaded from the files that are printed.
-/

namespace MallocLab

open Past Text

/-! ## The scripts -/

def TraceOp.a (seq size : Nat) : TraceOp := ⟨.alloc, seq, size⟩
def TraceOp.r (seq size : Nat) : TraceOp := ⟨.realloc, seq, size⟩
def TraceOp.f (seq : Nat) : TraceOp := ⟨.free, seq, 0⟩

theorem type_a (seq size : Nat) : (TraceOp.a seq size).type ≠ .free := by
  intro h
  cases h

/-- What the loops of `gen_binary.pl` print. -/
def binaryOps (blkSize1 blkSize2 numIters : Nat) : List TraceOp :=
  (List.range numIters).flatMap (fun i =>
      let seq1 := 2 * i
      let seq2 := 2 * i + 1
      [.a seq1 blkSize1, .a seq2 blkSize2])
    ++ (List.range numIters).flatMap (fun i =>
      let fseq := 2 * i + 1
      [.f fseq])
    ++ (List.range numIters).flatMap (fun i =>
      let aseq := 2 * numIters + i
      [.a aseq (blkSize1 + blkSize2)])

def genBinary (blkSize1 blkSize2 numIters : Nat) : List String :=
  let blkSize12 := blkSize1 + blkSize2
  let suggestedHeapSize := (blkSize1 + blkSize2 + blkSize12) * numIters + 100
  let numBlocks := 3 * numIters
  let numOps := 4 * numIters
  [toString suggestedHeapSize, toString numBlocks, toString numOps, "1"]
    ++ (binaryOps blkSize1 blkSize2 numIters).map TraceOp.line

/-- `gen_binary.pl` -/
def genBinaryScript : List String := genBinary 64 (512 - 64) 2000

/-- `gen_binary2.pl` -/
def genBinary2Script : List String := genBinary 16 (128 - 16) 4000

/-- What the loop of `gen_coalescing.pl` prints. -/
def coalescingOps (blkSize numIters : Nat) : List TraceOp :=
  (List.range numIters).flatMap (fun i =>
    let blk1 := 3 * i
    let blk2 := blk1 + 1
    let blk3 := blk1 + 2
    [.a blk1 blkSize, .a blk2 blkSize, .f blk1, .f blk2, .a blk3 (2 * blkSize), .f blk3])

def genCoalescing (blkSize numIters : Nat) : List String :=
  let suggestedHeapSize := 2 * blkSize * numIters + 100
  let numBlocks := 3 * numIters
  let numOps := 6 * numIters
  [toString suggestedHeapSize, toString numBlocks, toString numOps, "1"]
    ++ (coalescingOps blkSize numIters).map TraceOp.line

/-- `gen_coalescing.pl` -/
def genCoalescingScript : List String := genCoalescing 4095 2400

/-- The loop of `gen_realloc.pl` from a round on, with its variables `$blk` and `$realloc_size`, and
the two lines after it. -/
def reallocLoop (sizeIncrement mallocSize : Nat) : Nat → Nat → Nat → List TraceOp
  | 0, blk, _ => [.f blk, .f 0]
  | left + 1, blk, reallocSize =>
      let blk := blk + 1
      let reallocSize := reallocSize + sizeIncrement
      let prevblk := blk - 1
      [.r 0 reallocSize, .a blk mallocSize, .f prevblk]
        ++ reallocLoop sizeIncrement mallocSize left blk reallocSize

def reallocOps (reallocSize sizeIncrement mallocSize numIters : Nat) : List TraceOp :=
  [.a 0 reallocSize, .a 1 mallocSize]
    ++ reallocLoop sizeIncrement mallocSize (numIters - 1) 1 reallocSize

def genReallocFile (suggestedHeapSize reallocSize sizeIncrement mallocSize numIters : Nat) :
    List String :=
  let numBlocks := numIters + 1
  let numOps := 3 * numIters + 1
  [toString suggestedHeapSize, toString numBlocks, toString numOps, "1"]
    ++ (reallocOps reallocSize sizeIncrement mallocSize numIters).map TraceOp.line

/-- `gen_realloc.pl`. In the suggested size it says `num_iters` without the `$`, which is the word
itself, and counts as 0. The stray `print` before `close` prints nothing. -/
def genReallocScript : List String :=
  genReallocFile (0 * (512 + 128 * 2) + 100) 512 128 128 4800

/-- `gen_realloc2.pl` -/
def genRealloc2Script : List String :=
  genReallocFile (4092 + 5 * (4800 - 1) + 16 * 4800 + 100) 4092 5 16 4800

/-! ## Rules for requests -/

/-- From any list of the ids in `A`, the requests are legal and leave the ids in `B`. -/
def Leads (numIds : Nat) (A : Set Nat) (ops : List TraceOp) (B : Set Nat) : Prop :=
  ∀ ids : List Nat, (∀ id, id ∈ ids ↔ id ∈ A) →
    LegalFrom numIds ids ops ∧ ∀ id, id ∈ idsAfter ids ops ↔ id ∈ B

theorem idsAfter_cons (ids : List Nat) (op : TraceOp) (ops : List TraceOp) :
    idsAfter ids (op :: ops) = idsAfter (op.after ids) ops := rfl

theorem idsAfter_append (ids : List Nat) (ops₁ ops₂ : List TraceOp) :
    idsAfter ids (ops₁ ++ ops₂) = idsAfter (idsAfter ids ops₁) ops₂ := List.foldl_append

theorem legalFrom_append {numIds : Nat} {ids : List Nat} {ops₁ ops₂ : List TraceOp} :
    LegalFrom numIds ids (ops₁ ++ ops₂)
      ↔ LegalFrom numIds ids ops₁ ∧ LegalFrom numIds (idsAfter ids ops₁) ops₂ := by
  induction ops₁ generalizing ids with
  | nil => exact ⟨fun h => ⟨trivial, h⟩, And.right⟩
  | cons op ops₁ ih =>
      rw [List.cons_append, LegalFrom, LegalFrom, ih, and_assoc]
      rfl

section Rules

variable {numIds : Nat} {A B C : Set Nat} {id size : Nat}

theorem Leads.nil : Leads numIds A [] A := fun _ hids => ⟨trivial, hids⟩

theorem Leads.congr {A' B' : Set Nat} {ops : List TraceOp}
    (h : Leads numIds A ops B) (hA : ∀ id, id ∈ A' ↔ id ∈ A) (hB : ∀ id, id ∈ B ↔ id ∈ B') :
    Leads numIds A' ops B' := by
  intro ids hids
  obtain ⟨hlegal, hafter⟩ := h ids (fun id => (hids id).trans (hA id))
  exact ⟨hlegal, fun id => (hafter id).trans (hB id)⟩

/-- **The sequencing rule.** -/
theorem Leads.append {ops₁ ops₂ : List TraceOp} (h₁ : Leads numIds A ops₁ B)
    (h₂ : Leads numIds B ops₂ C) : Leads numIds A (ops₁ ++ ops₂) C := by
  intro ids hids
  obtain ⟨hlegal₁, hids₁⟩ := h₁ ids hids
  obtain ⟨hlegal₂, hids₂⟩ := h₂ _ hids₁
  rw [legalFrom_append, idsAfter_append]
  exact ⟨⟨hlegal₁, hlegal₂⟩, hids₂⟩

/-- One more request in front. -/
theorem Leads.cons {op : TraceOp} {ops : List TraceOp} (h₁ : Leads numIds A [op] B)
    (h₂ : Leads numIds B ops C) : Leads numIds A (op :: ops) C := h₁.append h₂

theorem Leads.alloc (hid : id < numIds) (hfresh : id ∉ A) (h1 : 1 ≤ size) (hlt : size < 2 ^ 31)
    (hB : ∀ j, j ∈ B ↔ j = id ∨ j ∈ A) : Leads numIds A [.a id size] B := by
  intro ids hids
  refine ⟨⟨⟨hid, ⟨?_, ?_⟩, fun hmem => hfresh ((hids id).mp hmem)⟩, trivial⟩, fun j => ?_⟩
  · exact Int.ofNat_le.mpr h1
  · exact Int.ofNat_lt.mpr hlt
  · show j ∈ id :: ids ↔ j ∈ B
    rw [List.mem_cons, hids, hB]

theorem Leads.realloc (hid : id < numIds) (hmem : id ∈ A) (h1 : 1 ≤ size) (hlt : size < 2 ^ 31) :
    Leads numIds A [.r id size] A := by
  intro ids hids
  refine ⟨⟨⟨hid, ⟨?_, ?_⟩, (hids id).mpr hmem⟩, trivial⟩, hids⟩
  · exact Int.ofNat_le.mpr h1
  · exact Int.ofNat_lt.mpr hlt

theorem Leads.free (hid : id < numIds) (hmem : id ∈ A) (hB : ∀ j, j ∈ B ↔ j ∈ A ∧ j ≠ id) :
    Leads numIds A [.f id] B := by
  intro ids hids
  refine ⟨⟨⟨hid, (hids id).mpr hmem⟩, trivial⟩, fun j => ?_⟩
  show j ∈ ids.filter (· ≠ id) ↔ j ∈ B
  rw [List.mem_filter, hids, hB, decide_eq_true_iff]

/-- **The loop rule**, with an invariant for each round. -/
theorem Leads.loop {I : Nat → Set Nat} {body : Nat → List TraceOp} {n : Nat}
    (h : ∀ i < n, Leads numIds (I i) (body i) (I (i + 1))) :
    Leads numIds (I 0) ((List.range n).flatMap body) (I n) := by
  induction n with
  | zero => exact Leads.nil
  | succ n ih =>
      rw [List.range_succ, List.flatMap_append, List.flatMap_singleton]
      exact (ih fun i hi => h i (Nat.lt_succ_of_lt hi)).append (h n (Nat.lt_succ_self n))

/-- A trace that leads from no ids to some is legal. -/
theorem Leads.legal {ops : List TraceOp} (h : Leads numIds ∅ ops B) :
    Trace.Legal ⟨numIds, ops⟩ ∧ ∀ id, id ∈ idsAfter [] ops ↔ id ∈ B :=
  h [] (fun _ => Iff.intro (fun hid => absurd hid List.not_mem_nil) (fun hid => absurd hid id))

end Rules

/-! ## Balanced versions -/

/-- Frees of all the ids. -/
theorem Leads.frees {numIds : Nat} {js : List Nat} (hnd : js.Nodup) (hlt : ∀ j ∈ js, j < numIds) :
    Leads numIds { j | j ∈ js } (js.map TraceOp.f) ∅ := by
  induction js with
  | nil =>
      intro ids hids
      exact ⟨trivial, fun id => (hids id).trans (by simp)⟩
  | cons j js ih =>
      rw [List.nodup_cons] at hnd
      refine Leads.cons (Leads.free (hlt j List.mem_cons_self) List.mem_cons_self ?_)
        (ih hnd.2 (fun i hi => hlt i (List.mem_cons_of_mem _ hi)))
      intro i
      show i ∈ js ↔ i ∈ j :: js ∧ i ≠ j
      rw [List.mem_cons]
      constructor
      · intro hi
        exact ⟨Or.inr hi, fun he => hnd.1 (he ▸ hi)⟩
      · rintro ⟨hi, hne⟩
        exact hi.resolve_left hne

/-- The ids that are allocated are those that the lines have allocated. -/
theorem idsAfter_allocated {ids : List Nat} {done : List String} {ops : List TraceOp}
    (hids : ∀ j, j ∈ ids ↔ Allocated done (toString j)) (hsizes : ∀ op ∈ ops, op.SizeOk) (j : Nat) :
    j ∈ idsAfter ids ops ↔ Allocated (done ++ ops.map TraceOp.line) (toString j) := by
  induction ops generalizing ids done with
  | nil =>
      rw [List.map_nil, List.append_nil]
      exact hids j
  | cons op ops ih =>
      obtain ⟨hop, hrest⟩ := List.forall_mem_cons.mp hsizes
      have hsaid : Says op.line op := (says_line hop).mpr rfl
      have happend : done ++ (op :: ops).map TraceOp.line
          = done ++ [op.line] ++ ops.map TraceOp.line := by simp
      rw [idsAfter_cons, happend]
      exact ih (fun i => hsaid.allocated hids i) hrest

/-- An id in the lines of a trace is a number. -/
theorem allocated_number {ops : List TraceOp} {id : String}
    (hid : Allocated (ops.map TraceOp.line) id) : toString (number id) = id := by
  obtain ⟨line, hline, hreq⟩ := Since.exists_mem hid
  obtain ⟨op, -, rfl⟩ := List.mem_map.mp hline
  have hw := words_traceOp_line op
  have hindex : id = toString op.index := by
    cases htype : op.type with
    | alloc =>
        rw [htype] at hw
        exact ((requests_iff hw _ _).mp hreq).2
    | realloc =>
        rw [htype] at hw
        exact ((requests_iff hw _ _).mp hreq).2
    | free =>
        rw [htype] at hw
        exact ((requests_iff hw _ _).mp hreq).2
  rw [hindex, number_toString]

theorem idsAfter_lt {numIds : Nat} {ids : List Nat} {ops : List TraceOp}
    (hops : LegalFrom numIds ids ops) (hids : ∀ id ∈ ids, id < numIds) :
    ∀ id ∈ idsAfter ids ops, id < numIds := by
  induction ops generalizing ids with
  | nil => exact hids
  | cons op ops ih =>
      refine ih hops.2 (fun id hid => ?_)
      rcases legal_cases hops.1 with ⟨-, -, -, hafter⟩ | ⟨-, -, -, hafter⟩ | ⟨-, -, hafter⟩
      · rw [hafter] at hid
        rcases List.mem_cons.mp hid with rfl | hid
        · exact hops.1.1
        · exact hids id hid
      · rw [hafter] at hid
        exact hids id hid
      · rw [hafter] at hid
        exact hids id (List.mem_filter.mp hid).1

theorem idsAfter_nodup {numIds : Nat} {ids : List Nat} {ops : List TraceOp}
    (hops : LegalFrom numIds ids ops) (hids : ids.Nodup) : (idsAfter ids ops).Nodup := by
  induction ops generalizing ids with
  | nil => exact hids
  | cons op ops ih =>
      refine ih hops.2 ?_
      rcases legal_cases hops.1 with ⟨-, -, hnew, hafter⟩ | ⟨-, -, -, hafter⟩ | ⟨-, -, hafter⟩
      · rw [hafter]
        exact List.nodup_cons.mpr ⟨hnew, hids⟩
      · rw [hafter]
        exact hids
      · rw [hafter]
        exact hids.filter _

/-- A trace leaves no more ids than there are. -/
theorem Trace.Legal.length_idsAfter {trace : Trace} (hlegal : trace.Legal) :
    (idsAfter [] trace.ops).length ≤ trace.numIds := by
  have hsub : idsAfter [] trace.ops ⊆ List.range trace.numIds := fun j hj => List.mem_range.mpr
    (idsAfter_lt hlegal (fun id hid => absurd hid List.not_mem_nil) j hj)
  have hshort := ((idsAfter_nodup hlegal List.nodup_nil).subperm hsub).length_le
  rwa [List.length_range] at hshort

/-- A legal trace leads to the ids that it leaves. -/
theorem Trace.Legal.leads {trace : Trace} (hlegal : trace.Legal) :
    Leads trace.numIds ∅ trace.ops { id | id ∈ idsAfter [] trace.ops } := by
  intro ids hids
  obtain rfl : ids = [] := List.eq_nil_iff_forall_not_mem.mpr (fun id hid => (hids id).mp hid)
  exact ⟨hlegal, fun _ => Iff.rfl⟩

/-- **Balancing a trace.** What `checktrace.pl` prints for a legal trace is the trace with a free
for each id that is left. It is legal, it leaves no id, and the driver loads it. -/
theorem balanced_file {trace : Trace} (hlegal : trace.Legal) (hids : trace.numIds < 2 ^ 31)
    (h1 h4 : String) :
    ∃ js : List Nat, js.Nodup ∧ (∀ j, j ∈ js ↔ j ∈ idsAfter [] trace.ops) ∧
      checktrace false (trace.file h1 h4)
        = .ok (Trace.file h1 h4 ⟨trace.numIds, trace.ops ++ js.map TraceOp.f⟩) ∧
      Trace.Legal ⟨trace.numIds, trace.ops ++ js.map TraceOp.f⟩ ∧
      idsAfter [] (trace.ops ++ js.map TraceOp.f) = [] := by
  have hW := hlegal.written hids
  have hafter := idsAfter_allocated allocated_nil hW.sizes
  obtain ⟨ids, hnd, hmem, -, hout⟩ := checktrace_ok h1 (toString trace.numIds)
    (toString trace.ops.length) h4 (fun line hline => Or.inl (hW.lines line hline).1)
    (written_consistent hlegal hids)
  obtain ⟨js, rfl⟩ : ∃ js : List Nat, js.map toString = ids := by
    refine ⟨ids.map number, ?_⟩
    rw [List.map_map]
    refine (List.map_congr_left fun id hid => ?_).trans (List.map_id _)
    exact allocated_number ((hmem id).mp hid)
  have hjs : ∀ j, j ∈ js ↔ j ∈ idsAfter [] trace.ops := by
    intro j
    rw [hafter j, List.nil_append, ← hmem, List.mem_map]
    constructor
    · exact fun hj => ⟨j, hj, rfl⟩
    · rintro ⟨i, hi, he⟩
      rw [← toString_inj.mp he]
      exact hi
  have hjsnd : js.Nodup := List.Nodup.of_map toString hnd
  have hsmall : ∀ j ∈ js, j < trace.numIds := fun j hj =>
    idsAfter_lt hlegal (fun id hid => absurd hid List.not_mem_nil) j ((hjs j).mp hj)
  have hleads : Leads trace.numIds ∅ (trace.ops ++ js.map TraceOp.f) ∅ := by
    refine Leads.append hlegal.leads ((Leads.frees hjsnd hsmall).congr ?_ (fun _ => Iff.rfl))
    exact fun id => (hjs id).symm
  refine ⟨js, hjsnd, hjs, ?_, hleads.legal.1, ?_⟩
  · have hlines : (js.map toString).map ("f " ++ ·) = (js.map TraceOp.f).map TraceOp.line := by
      rw [List.map_map, List.map_map]
      rfl
    rw [hW.kept, number_toString, hlines] at hout
    rw [Trace.file, hout, Trace.file, List.map_append, List.length_append, List.length_map,
      List.length_map]
    rfl
  · exact List.eq_nil_iff_forall_not_mem.mpr (fun id hid => (hleads.legal.2 id).mp hid)

theorem after_plain (ids : List Nat) (op : TraceOp) : op.plain.after ids = op.after ids := by
  obtain ⟨type, index, size⟩ := op
  cases type <;> rfl

theorem idsAfter_plain {ids : List Nat} {ops ops' : List TraceOp}
    (h : ops'.map TraceOp.plain = ops.map TraceOp.plain) : idsAfter ids ops' = idsAfter ids ops := by
  have hmap : ∀ (ids : List Nat) (ops : List TraceOp),
      idsAfter ids (ops.map TraceOp.plain) = idsAfter ids ops := by
    intro ids ops
    induction ops generalizing ids with
    | nil => rfl
    | cons op ops ih => rw [List.map_cons, idsAfter_cons, idsAfter_cons, after_plain, ih]
  rw [← hmap ids ops', h, hmap ids ops]

/-- The balanced version of a trace can be written and loaded when the trace can. -/
theorem balanced_written {trace : Trace} (hlegal : trace.Legal) (htight : trace.Tight)
    (hids : trace.numIds < 2 ^ 30)
    (hlen : 12 * (trace.ops.length + (idsAfter [] trace.ops).length) < 2 ^ 32) (h1 h4 : String) :
    ∃ js : List Nat, js.Nodup ∧ (∀ j, j ∈ js ↔ j ∈ idsAfter [] trace.ops) ∧
      checktrace false (trace.file h1 h4)
        = .ok (Trace.file h1 h4 ⟨trace.numIds, trace.ops ++ js.map TraceOp.f⟩) ∧
      Trace.Legal ⟨trace.numIds, trace.ops ++ js.map TraceOp.f⟩ ∧
      Trace.Tight ⟨trace.numIds, trace.ops ++ js.map TraceOp.f⟩ ∧
      12 * (trace.ops ++ js.map TraceOp.f).length < 2 ^ 32 ∧
      idsAfter [] (trace.ops ++ js.map TraceOp.f) = [] := by
  obtain ⟨js, hjsnd, hjs, hout, hlegal', hend⟩ := balanced_file hlegal (by omega) h1 h4
  refine ⟨js, hjsnd, hjs, hout, hlegal', ?_, ?_, hend⟩
  · obtain ⟨op, hop, htype, hlast⟩ := htight
    exact ⟨op, List.mem_append_left _ hop, htype, hlast⟩
  · have hshort := (hjsnd.subperm (fun j hj => (hjs j).mp hj)).length_le
    rw [List.length_append, List.length_map]
    omega

/-- **From a trace to its balanced version.** What `checktrace.pl` prints for a file with a legal
trace is loaded by the driver: as the same requests, and one free for each id that is left. -/
theorem balanced_loads {trace : Trace} (hlegal : trace.Legal) (htight : trace.Tight)
    (hids : trace.numIds < 2 ^ 30)
    (hlen : 12 * (trace.ops.length + (idsAfter [] trace.ops).length) < 2 ^ 32) {h1 h4 : String}
    (hheader : IsNumber h1 ∧ IsNumber h4) (r : Reader) :
    ∃ (js : List Nat) (out : List String) (trace' : Trace) (r' : Reader), js.Nodup ∧
      (∀ j, j ∈ js ↔ j ∈ idsAfter [] trace.ops) ∧
      checktrace false (trace.file h1 h4) = .ok out ∧
      (loadTrace out).out r = some (.ok trace', r') ∧ trace'.Legal ∧
      trace'.numIds = trace.numIds ∧
      trace'.ops.map TraceOp.plain = (trace.ops ++ js.map TraceOp.f).map TraceOp.plain ∧
      idsAfter [] trace'.ops = [] := by
  obtain ⟨js, hjsnd, hjs, hout, hlegal', htight', hlen', hend⟩ :=
    balanced_written hlegal htight hids hlen h1 h4
  obtain ⟨trace', r', hload, hlegal'', hnum, hplain⟩ :=
    written_loads hlegal' htight' hids hlen' hheader r
  refine ⟨js, _, trace', r', hjsnd, hjs, hout, hload, hlegal'', hnum, hplain, ?_⟩
  rw [idsAfter_plain hplain]
  exact hend

/-! ## The traces are legal -/

section Scripts

variable {numIters : Nat}

/-- `gen_binary.pl` allocates pairs, frees the second of each, and allocates blocks of the size of
both. -/
theorem binary_leads {blkSize1 blkSize2 : Nat} (h1 : 1 ≤ blkSize1) (h2 : 1 ≤ blkSize2)
    (hsum : blkSize1 + blkSize2 < 2 ^ 31) :
    Leads (3 * numIters) ∅ (binaryOps blkSize1 blkSize2 numIters)
      { id | (id < 2 * numIters ∧ id % 2 = 0) ∨ (2 * numIters ≤ id ∧ id < 3 * numIters) } := by
  have hpairs : Leads (3 * numIters) { id | id < 2 * 0 }
      ((List.range numIters).flatMap (fun i => [.a (2 * i) blkSize1, .a (2 * i + 1) blkSize2]))
      { id | id < 2 * numIters } := by
    refine Leads.loop (I := fun i => { id | id < 2 * i }) (fun i hi => ?_)
    refine Leads.cons (B := { id | id < 2 * i + 1 })
      (Leads.alloc (by omega) (by simp) h1 (by omega) (by simp; omega)) ?_
    exact Leads.alloc (by omega) (by simp) h2 (by omega) (by simp; omega)
  have hfrees : Leads (3 * numIters) { id | id < 2 * numIters ∧ (id % 2 = 0 ∨ 2 * 0 ≤ id) }
      ((List.range numIters).flatMap (fun i => [.f (2 * i + 1)]))
      { id | id < 2 * numIters ∧ (id % 2 = 0 ∨ 2 * numIters ≤ id) } := by
    refine Leads.loop
      (I := fun i => { id | id < 2 * numIters ∧ (id % 2 = 0 ∨ 2 * i ≤ id) }) (fun i hi => ?_)
    exact Leads.free (by omega) (by simp; omega) (by simp; omega)
  have hlarge : Leads (3 * numIters)
      { id | (id < 2 * numIters ∧ id % 2 = 0) ∨ (2 * numIters ≤ id ∧ id < 2 * numIters + 0) }
      ((List.range numIters).flatMap (fun i => [.a (2 * numIters + i) (blkSize1 + blkSize2)]))
      { id | (id < 2 * numIters ∧ id % 2 = 0) ∨
        (2 * numIters ≤ id ∧ id < 2 * numIters + numIters) } := by
    refine Leads.loop (I := fun i => { id | (id < 2 * numIters ∧ id % 2 = 0) ∨
      (2 * numIters ≤ id ∧ id < 2 * numIters + i) }) (fun i hi => ?_)
    exact Leads.alloc (by omega) (by simp) (by omega) hsum (by simp; omega)
  refine Leads.append (B := { id | id < 2 * numIters ∧ id % 2 = 0 })
    (Leads.append (B := { id | id < 2 * numIters }) ?_ ?_) ?_
  · exact hpairs.congr (by simp) (by simp)
  · exact hfrees.congr (by simp) (by simp; omega)
  · exact hlarge.congr (by simp) (by simp; omega)

/-- Each round of `gen_coalescing.pl` frees what it allocates. -/
theorem coalescing_leads {blkSize : Nat} (h1 : 1 ≤ blkSize) (hlt : 2 * blkSize < 2 ^ 31) :
    Leads (3 * numIters) ∅ (coalescingOps blkSize numIters) ∅ := by
  refine Leads.loop (I := fun _ => ∅) (fun i hi => ?_)
  refine Leads.cons (B := {3 * i}) (Leads.alloc (by omega) (by simp) h1 (by omega) (by simp)) ?_
  refine Leads.cons (B := {3 * i + 1, 3 * i})
    (Leads.alloc (by omega) (by simp) h1 (by omega) (by simp)) ?_
  refine Leads.cons (B := {3 * i + 1}) (Leads.free (by omega) (by simp) (by simp; omega)) ?_
  refine Leads.cons (B := ∅) (Leads.free (by omega) (by simp) (by simp)) ?_
  refine Leads.cons (B := {3 * i + 2}) (Leads.alloc (by omega) (by simp) (by omega) hlt (by simp)) ?_
  exact Leads.free (by omega) (by simp) (by simp)

/-- The loop of `gen_realloc.pl` holds the block that grows and the last small one. -/
theorem reallocLoop_leads {numIds sizeIncrement mallocSize left blk reallocSize : Nat}
    (hblk : 1 ≤ blk) (hids : blk + left < numIds) (h1 : 1 ≤ reallocSize)
    (hlt : reallocSize + left * sizeIncrement < 2 ^ 31) (hm : 1 ≤ mallocSize)
    (hmlt : mallocSize < 2 ^ 31) :
    Leads numIds {0, blk} (reallocLoop sizeIncrement mallocSize left blk reallocSize) ∅ := by
  induction left generalizing blk reallocSize with
  | zero =>
      refine Leads.cons (B := {0}) (Leads.free (by omega) (by simp) (by simp; omega)) ?_
      exact Leads.free (by omega) (by simp) (by simp)
  | succ left ih =>
      rw [Nat.add_mul, Nat.one_mul] at hlt
      refine Leads.append (B := {0, blk + 1}) ?_
        (ih (by omega) (by omega) (by omega) (by omega))
      refine Leads.cons (B := {0, blk})
        (Leads.realloc (by omega) (by simp) (by omega) (by omega)) ?_
      refine Leads.cons (B := {blk + 1, 0, blk})
        (Leads.alloc (by omega) (by simp) hm hmlt (by simp)) ?_
      exact Leads.free (by omega) (by simp) (by simp; omega)

theorem realloc_leads {reallocSize sizeIncrement mallocSize : Nat} (hn : 1 ≤ numIters)
    (h1 : 1 ≤ reallocSize) (hlt : reallocSize + (numIters - 1) * sizeIncrement < 2 ^ 31)
    (hm : 1 ≤ mallocSize) (hmlt : mallocSize < 2 ^ 31) :
    Leads (numIters + 1) ∅ (reallocOps reallocSize sizeIncrement mallocSize numIters) ∅ := by
  refine Leads.append (B := {0, 1}) ?_ (reallocLoop_leads (by omega) (by omega) h1 hlt hm hmlt)
  refine Leads.cons (B := {0}) (Leads.alloc (by omega) (by simp) h1 (by omega) (by simp)) ?_
  exact Leads.alloc (by omega) (by simp) hm hmlt (by simp; tauto)

end Scripts

/-! ## The files -/

/-- The files that the scripts print, with the traces in them. -/
inductive Regular : List String → Trace → Prop where
  | binary {blkSize1 blkSize2 numIters : Nat} (hn : 1 ≤ numIters)
      (hlt : 12 * (7 * numIters) < 2 ^ 32)
      (h1 : 1 ≤ blkSize1) (h2 : 1 ≤ blkSize2) (hsum : blkSize1 + blkSize2 < 2 ^ 31) :
      Regular (genBinary blkSize1 blkSize2 numIters)
        ⟨3 * numIters, binaryOps blkSize1 blkSize2 numIters⟩
  | coalescing {blkSize numIters : Nat} (hn : 1 ≤ numIters) (hlt : 12 * (6 * numIters) < 2 ^ 32)
      (h1 : 1 ≤ blkSize) (h2 : 2 * blkSize < 2 ^ 31) :
      Regular (genCoalescing blkSize numIters) ⟨3 * numIters, coalescingOps blkSize numIters⟩
  | realloc {suggested reallocSize sizeIncrement mallocSize numIters : Nat} (hn : 1 ≤ numIters)
      (hlt : 12 * (3 * numIters + 1) < 2 ^ 32) (h1 : 1 ≤ reallocSize)
      (h2 : reallocSize + (numIters - 1) * sizeIncrement < 2 ^ 31) (hm : 1 ≤ mallocSize)
      (hmlt : mallocSize < 2 ^ 31) :
      Regular (genReallocFile suggested reallocSize sizeIncrement mallocSize numIters)
        ⟨numIters + 1, reallocOps reallocSize sizeIncrement mallocSize numIters⟩

theorem length_flatMap_range {α : Type} {body : Nat → List α} {k : Nat}
    (h : ∀ i, (body i).length = k) (n : Nat) : ((List.range n).flatMap body).length = n * k := by
  induction n with
  | zero => simp
  | succ n ih =>
      rw [List.range_succ, List.flatMap_append, List.length_append, ih, List.flatMap_singleton, h,
        Nat.add_mul, Nat.one_mul]

theorem length_reallocLoop (sizeIncrement mallocSize left blk reallocSize : Nat) :
    (reallocLoop sizeIncrement mallocSize left blk reallocSize).length = 3 * left + 2 := by
  induction left generalizing blk reallocSize with
  | zero => rfl
  | succ left ih =>
      rw [reallocLoop, List.length_append, ih]
      show 3 + (3 * left + 2) = _
      omega

/-- The last round of `gen_realloc.pl` allocates the last id. -/
theorem last_reallocLoop {sizeIncrement mallocSize left blk reallocSize : Nat} (hleft : 1 ≤ left) :
    .a (blk + left) mallocSize ∈ reallocLoop sizeIncrement mallocSize left blk reallocSize := by
  induction left generalizing blk reallocSize with
  | zero => omega
  | succ left ih =>
      rw [reallocLoop]
      by_cases h : 1 ≤ left
      · have hmem : .a (blk + 1 + left) mallocSize ∈
            reallocLoop sizeIncrement mallocSize left (blk + 1) (reallocSize + sizeIncrement) := ih h
        rw [Nat.add_assoc, Nat.add_comm 1] at hmem
        exact List.mem_append_right _ hmem
      · obtain rfl : left = 0 := by omega
        exact List.mem_append_left _ (by simp)

theorem idsAfter_nil {ops : List TraceOp} (h : ∀ id, id ∈ idsAfter [] ops ↔ id ∈ (∅ : Set Nat)) :
    idsAfter [] ops = [] := List.eq_nil_iff_forall_not_mem.mpr fun id hid => (h id).mp hid

/-- A legal trace as a script writes it, with room for its requests and for the frees that
`checktrace.pl` adds. -/
structure Printed (file : List String) (trace : Trace) : Prop where
  written : ∃ h1 h4, file = trace.file h1 h4 ∧ IsNumber h1 ∧ IsNumber h4
  legal : trace.Legal
  tight : trace.Tight
  numIds : trace.numIds < 2 ^ 30
  room : 12 * (trace.ops.length + (idsAfter [] trace.ops).length) < 2 ^ 32

theorem isNumber_one : IsNumber "1" := isNumber_toString 1

theorem length_binaryOps (blkSize1 blkSize2 n : Nat) :
    (binaryOps blkSize1 blkSize2 n).length = 4 * n := by
  rw [binaryOps, List.length_append, List.length_append,
    length_flatMap_range (k := 2) (fun _ => rfl), length_flatMap_range (k := 1) (fun _ => rfl),
    length_flatMap_range (k := 1) (fun _ => rfl)]
  omega

theorem length_coalescingOps (blkSize n : Nat) : (coalescingOps blkSize n).length = 6 * n := by
  rw [coalescingOps, length_flatMap_range (k := 6) (fun _ => rfl), Nat.mul_comm]

theorem length_reallocOps (reallocSize sizeIncrement mallocSize : Nat) {n : Nat} (hn : 1 ≤ n) :
    (reallocOps reallocSize sizeIncrement mallocSize n).length = 3 * n + 1 := by
  rw [reallocOps, List.length_append, length_reallocLoop]
  show 2 + (3 * (n - 1) + 2) = 3 * n + 1
  omega

section Printed

variable {n : Nat}

theorem binary_printed {blkSize1 blkSize2 : Nat} (hn : 1 ≤ n) (hlt : 12 * (7 * n) < 2 ^ 32)
    (h1 : 1 ≤ blkSize1) (h2 : 1 ≤ blkSize2) (hsum : blkSize1 + blkSize2 < 2 ^ 31) :
    Printed (genBinary blkSize1 blkSize2 n) ⟨3 * n, binaryOps blkSize1 blkSize2 n⟩ := by
  have hlegal : Trace.Legal ⟨3 * n, binaryOps blkSize1 blkSize2 n⟩ :=
    (binary_leads h1 h2 hsum).legal.1
  refine ⟨⟨toString ((blkSize1 + blkSize2 + (blkSize1 + blkSize2)) * n + 100), "1", ?_,
    isNumber_toString _, isNumber_one⟩, hlegal,
    ⟨.a (2 * n + (n - 1)) (blkSize1 + blkSize2), ?_, type_a _ _, ?_⟩, ?_, ?_⟩
  · rw [Trace.file, genBinary, length_binaryOps]
    rfl
  · -- the last id is that of the last round of the third loop
    refine List.mem_append_right _ (List.mem_flatMap.mpr ⟨n - 1, ?_, List.mem_singleton_self _⟩)
    exact List.mem_range.mpr (by omega)
  · show 2 * n + (n - 1) + 1 = 3 * n
    omega
  · show 3 * n < 2 ^ 30
    omega
  · have hleft : (idsAfter [] (binaryOps blkSize1 blkSize2 n)).length ≤ 3 * n :=
      hlegal.length_idsAfter
    calc 12 * ((binaryOps blkSize1 blkSize2 n).length
          + (idsAfter [] (binaryOps blkSize1 blkSize2 n)).length)
        ≤ 12 * (4 * n + 3 * n) := by
          rw [length_binaryOps]
          exact Nat.mul_le_mul_left 12 (Nat.add_le_add_left hleft _)
      _ = 12 * (7 * n) := by rw [← Nat.add_mul]
      _ < 2 ^ 32 := hlt

theorem coalescing_printed {blkSize : Nat} (hn : 1 ≤ n) (hlt : 12 * (6 * n) < 2 ^ 32)
    (h1 : 1 ≤ blkSize) (h2 : 2 * blkSize < 2 ^ 31) :
    Printed (genCoalescing blkSize n) ⟨3 * n, coalescingOps blkSize n⟩ := by
  have hleads : Leads (3 * n) ∅ (coalescingOps blkSize n) ∅ := coalescing_leads h1 h2
  obtain ⟨hlegal, hnone⟩ := hleads.legal
  refine ⟨⟨toString (2 * blkSize * n + 100), "1", ?_, isNumber_toString _, isNumber_one⟩, hlegal,
    ⟨.a (3 * (n - 1) + 2) (2 * blkSize), ?_, type_a _ _, ?_⟩, ?_, ?_⟩
  · rw [Trace.file, genCoalescing, length_coalescingOps]
    rfl
  · exact List.mem_flatMap.mpr ⟨n - 1, List.mem_range.mpr (by omega), by simp⟩
  · show 3 * (n - 1) + 2 + 1 = 3 * n
    omega
  · show 3 * n < 2 ^ 30
    omega
  · rw [idsAfter_nil hnone, length_coalescingOps]
    exact hlt

theorem realloc_printed {suggested reallocSize sizeIncrement mallocSize : Nat} (hn : 1 ≤ n)
    (hlt : 12 * (3 * n + 1) < 2 ^ 32) (h1 : 1 ≤ reallocSize)
    (h2 : reallocSize + (n - 1) * sizeIncrement < 2 ^ 31) (hm : 1 ≤ mallocSize)
    (hmlt : mallocSize < 2 ^ 31) :
    Printed (genReallocFile suggested reallocSize sizeIncrement mallocSize n)
      ⟨n + 1, reallocOps reallocSize sizeIncrement mallocSize n⟩ := by
  obtain ⟨hlegal, hnone⟩ := (realloc_leads hn h1 h2 hm hmlt).legal
  refine ⟨⟨toString suggested, "1", ?_, isNumber_toString _, isNumber_one⟩, hlegal,
    ⟨.a n mallocSize, ?_, type_a _ _, rfl⟩, ?_, ?_⟩
  · rw [Trace.file, genReallocFile, length_reallocOps _ _ _ hn]
    rfl
  · rw [reallocOps]
    -- with one iteration the loop does nothing, and id 1 comes before it
    by_cases h : n = 1
    · subst h
      exact List.mem_append_left _ (by simp)
    · have hmem : .a (1 + (n - 1)) mallocSize ∈
          reallocLoop sizeIncrement mallocSize (n - 1) 1 reallocSize :=
        last_reallocLoop (by omega)
      rw [Nat.add_sub_cancel' hn] at hmem
      exact List.mem_append_right _ hmem
  · show n + 1 < 2 ^ 30
    omega
  · rw [idsAfter_nil hnone, length_reallocOps _ _ _ hn]
    exact hlt

end Printed

theorem Regular.printed {file : List String} {trace : Trace} (h : Regular file trace) :
    Printed file trace := by
  cases h with
  | binary hn hlt h1 h2 hsum => exact binary_printed hn hlt h1 h2 hsum
  | coalescing hn hlt h1 h2 => exact coalescing_printed hn hlt h1 h2
  | realloc hn hlt h1 h2 hm hmlt => exact realloc_printed hn hlt h1 h2 hm hmlt

/-- Two rounds of `gen_binary.pl`. -/
theorem balanced_loads_sample :
    ∃ (js : List Nat) (out : List String) (trace' : Trace) (r' : Reader), js.Nodup ∧
      (∀ j, j ∈ js ↔ j ∈ idsAfter [] (binaryOps 64 448 2)) ∧
      checktrace false (genBinary 64 448 2) = .ok out ∧
      (loadTrace out).out ⟨fun _ => ⟨.alloc, 7, 7⟩, 0, 0⟩ = some (.ok trace', r') ∧ trace'.Legal ∧
      trace'.numIds = 6 ∧ trace'.ops.map TraceOp.plain
        = (binaryOps 64 448 2 ++ js.map TraceOp.f).map TraceOp.plain ∧
      idsAfter [] trace'.ops = [] := by
  have hregular : Regular (genBinary 64 448 2) ⟨3 * 2, binaryOps 64 448 2⟩ :=
    Regular.binary (by decide) (by decide) (by decide) (by decide) (by decide)
  obtain ⟨⟨h1, h4, hfile, hheader⟩, hlegal, htight, hids, hlen⟩ := hregular.printed
  rw [hfile]
  exact balanced_loads hlegal htight hids hlen hheader _

end MallocLab
