import MallocLab.Driver.Fragmentation

set_option autoImplicit false

/-! # From the scripts to the report

The way of a trace through the whole program: a script prints it, `checktrace.pl` balances it, the
driver loads it and runs it on the allocator, and `main` adds up the results. When the numbers of
the scripts leave the heap within `MAX_HEAP`, nothing on this way fails.
-/

namespace MallocLab

open Logged Words Tiling BlockList Commands

/-! ## What is written is all that counts -/

section Plain

variable {ops ops' : List TraceOp}

theorem serve_plain (t : Store) (op : TraceOp) : t.serve op.plain = t.serve op := by
  obtain ⟨type, index, size⟩ := op
  cases type <;> rfl

theorem serveAll_plain (t : Store) (ops : List TraceOp) :
    t.serveAll (ops.map TraceOp.plain) = t.serveAll ops := by
  induction ops generalizing t with
  | nil => rfl
  | cons op ops ih =>
      rw [List.map_cons, Store.serveAll, Store.serveAll, serve_plain]
      cases t.serve op with
      | none => rfl
      | some t' => exact ih t'

theorem served_plain (h : ops'.map TraceOp.plain = ops.map TraceOp.plain) :
    served ops' = served ops := by
  rw [served, ← serveAll_plain, h, serveAll_plain, ← served]

/-- A request of one list that is no free is one of the other. -/
theorem mem_of_plain (h : ops'.map TraceOp.plain = ops.map TraceOp.plain) {op : TraceOp}
    (hop : op ∈ ops') (htype : op.type ≠ .free) : op ∈ ops := by
  have hmem : op.plain ∈ ops.map TraceOp.plain := h ▸ List.mem_map_of_mem hop
  obtain ⟨op', hop', heq⟩ := List.mem_map.mp hmem
  obtain ⟨type, index, size⟩ := op
  obtain ⟨type', index', size'⟩ := op'
  cases type with
  | free => exact absurd rfl htype
  | alloc =>
      cases type' with
      | free => cases heq
      | alloc =>
          cases heq
          exact hop'
      | realloc => cases heq
  | realloc =>
      cases type' with
      | free => cases heq
      | alloc => cases heq
      | realloc =>
          cases heq
          exact hop'

end Plain

/-! ## Moderate numbers -/

/-- The most that `K` live blocks with `L` bytes in all need, in requests of up to `S` bytes. -/
def populationBound (K L S : Nat) : Nat :=
  L + 23 * K + (K + 1) * (S + 14) + max (S + 15) CHUNKSIZE + DSIZE

/-- The most that requests for `V` bytes in all need, of up to `S` bytes each. -/
def volumeBound (V S : Nat) : Nat := V + max (S + 15) CHUNKSIZE + DSIZE

/-- The files that the scripts print, with numbers that leave the heap within `MAX_HEAP`, and the
size of `ops` below 2^32 bytes. -/
inductive Moderate : List String → Trace → Prop where
  | binary {blkSize1 blkSize2 numIters : Nat} (hn : 1 ≤ numIters) (h1 : 1 ≤ blkSize1)
      (h2 : 1 ≤ blkSize2)
      (hfit : volumeBound (numIters * (2 * blkSize1 + 2 * blkSize2 + 69)) (blkSize1 + blkSize2)
        ≤ MAX_HEAP - 16) :
      Moderate (genBinary blkSize1 blkSize2 numIters)
        ⟨3 * numIters, binaryOps blkSize1 blkSize2 numIters⟩
  | coalescing {blkSize numIters : Nat} (hn : 1 ≤ numIters) (hlt : 12 * (6 * numIters) < 2 ^ 32)
      (h1 : 1 ≤ blkSize)
      (hfit : populationBound 2 (2 * blkSize) (2 * blkSize) ≤ MAX_HEAP - 16) :
      Moderate (genCoalescing blkSize numIters) ⟨3 * numIters, coalescingOps blkSize numIters⟩
  | realloc {suggested reallocSize sizeIncrement mallocSize numIters : Nat} (hn : 1 ≤ numIters)
      (hlt : 12 * (3 * numIters + 1) < 2 ^ 32) (h1 : 1 ≤ reallocSize) (hm : 1 ≤ mallocSize)
      (hfit : populationBound 3 (reallocSize + (numIters - 1) * sizeIncrement + 2 * mallocSize)
        (reallocSize + (numIters - 1) * sizeIncrement + 2 * mallocSize) ≤ MAX_HEAP - 16) :
      Moderate (genReallocFile suggested reallocSize sizeIncrement mallocSize numIters)
        ⟨numIters + 1, reallocOps reallocSize sizeIncrement mallocSize numIters⟩

theorem moderate_regular {file : List String} {trace : Trace} (h : Moderate file trace) :
    Regular file trace := by
  have hmax : MAX_HEAP < 2 ^ 28 := by decide
  cases h with
  | @binary blkSize1 blkSize2 n hn h1 h2 hfit =>
      unfold volumeBound at hfit
      have hone : n * 69 ≤ n * (2 * blkSize1 + 2 * blkSize2 + 69) :=
        Nat.mul_le_mul_left _ (Nat.le_add_left _ _)
      have hS := le_max_left (blkSize1 + blkSize2 + 15) CHUNKSIZE
      exact Regular.binary hn (by omega) h1 h2 (by omega)
  | coalescing hn hlt h1 hfit =>
      unfold populationBound at hfit
      exact Regular.coalescing hn hlt h1 (by omega)
  | realloc hn hlt h1 hm hfit =>
      unfold populationBound at hfit
      exact Regular.realloc hn hlt h1 (by omega) hm (by omega)

/-- A request as `eval_mm_valid` can check it, of at most `S` bytes. -/
def TraceOp.Plainly (S : Nat) (op : TraceOp) : Prop :=
  op.Readable ∧ (op.type ≠ .free → op.size ≤ S)

section Ops

variable {S : Nat}

theorem plainly_a (id : Nat) {size : Nat} (h : size ≤ S) : (TraceOp.a id size).Plainly S :=
  ⟨fun htype => (nomatch htype), fun _ => Int.ofNat_le.mpr h⟩

theorem plainly_free {op : TraceOp} (htype : op.type = .free) : op.Plainly S := by
  refine ⟨fun hr => ?_, fun hne => absurd htype hne⟩
  rw [htype] at hr
  cases hr

theorem plainly_of_plain {ops ops' : List TraceOp}
    (h : ops'.map TraceOp.plain = ops.map TraceOp.plain) (hops : ∀ op ∈ ops, op.Plainly S) :
    ∀ op ∈ ops', op.Plainly S := by
  intro op hop
  by_cases htype : op.type = .free
  · exact plainly_free htype
  · exact hops op (mem_of_plain h hop htype)

theorem binary_plainly {blkSize1 blkSize2 n : Nat} :
    ∀ op ∈ binaryOps blkSize1 blkSize2 n, op.Plainly (blkSize1 + blkSize2) := by
  intro op hop
  refine ⟨fun htype => ?_, binary_sizes n op hop⟩
  rcases List.mem_append.mp hop with hop | hop
  · rcases List.mem_append.mp hop with hop | hop
    · obtain ⟨i, -, hop⟩ := List.mem_flatMap.mp hop
      simp only [List.mem_cons, List.not_mem_nil, or_false] at hop
      rcases hop with rfl | rfl <;> cases htype
    · obtain ⟨i, -, hop⟩ := List.mem_flatMap.mp hop
      rw [List.mem_singleton.mp hop] at htype
      cases htype
  · obtain ⟨i, -, hop⟩ := List.mem_flatMap.mp hop
    rw [List.mem_singleton.mp hop] at htype
    cases htype

theorem coalescing_plainly {blkSize n : Nat} :
    ∀ op ∈ coalescingOps blkSize n, op.Plainly (2 * blkSize) := by
  intro op hop
  refine ⟨fun htype => ?_, coalescing_sizes n op hop⟩
  obtain ⟨i, -, hop⟩ := List.mem_flatMap.mp hop
  simp only [List.mem_cons, List.not_mem_nil, or_false] at hop
  rcases hop with rfl | rfl | rfl | rfl | rfl | rfl <;> cases htype

/-- The only id that is reallocated is 0. -/
theorem reallocLoop_plainly {sizeIncrement mallocSize left blk size : Nat}
    (hS : size + left * sizeIncrement + 2 * mallocSize ≤ S) :
    ∀ op ∈ reallocLoop sizeIncrement mallocSize left blk size, op.Plainly S := by
  induction left generalizing blk size with
  | zero =>
      intro op hop
      simp only [reallocLoop, List.mem_cons, List.not_mem_nil, or_false] at hop
      rcases hop with rfl | rfl <;> exact plainly_free rfl
  | succ left ih =>
      rw [Nat.add_mul, Nat.one_mul] at hS
      intro op hop
      rcases List.mem_append.mp hop with hop | hop
      · simp only [List.mem_cons, List.not_mem_nil, or_false] at hop
        rcases hop with rfl | rfl | rfl
        · exact ⟨fun _ => show (0 : Nat) % 256 < 128 by decide, fun _ => Int.ofNat_le.mpr (by omega)⟩
        · exact plainly_a _ (by omega)
        · exact plainly_free rfl
      · exact ih (by omega) op hop

theorem realloc_plainly {reallocSize sizeIncrement mallocSize n : Nat} :
    ∀ op ∈ reallocOps reallocSize sizeIncrement mallocSize n,
      op.Plainly (reallocSize + (n - 1) * sizeIncrement + 2 * mallocSize) := by
  intro op hop
  rcases List.mem_append.mp hop with hop | hop
  · simp only [List.mem_cons, List.not_mem_nil, or_false] at hop
    rcases hop with rfl | rfl
    · exact plainly_a _ (by omega)
    · exact plainly_a _ (by omega)
  · exact reallocLoop_plainly (le_refl _) op hop

end Ops

/-- Frees of nothing hold nothing. -/
theorem Carries.nothing {P : List (Nat × Int) → Prop} {ops : List TraceOp} (hP : P [])
    (hfrees : ∀ op ∈ ops, op.type = .free) :
    Carries P (fun sizes => sizes = []) ops (fun sizes => sizes = []) := by
  induction ops with
  | nil =>
      refine Triple.nil ?_
      rintro _ rfl
      exact ⟨hP, rfl⟩
  | cons op ops ih =>
      obtain ⟨hop, hrest⟩ := List.forall_mem_cons.mp hfrees
      refine Carries.cons ?_ ?_ (ih hrest)
      · rintro _ rfl
        exact hP
      · rintro _ rfl
        rw [TraceOp.resize, hop]
        rfl

/-- A trace with few live blocks is served, with all frees that are put behind it. -/
theorem served_population {numIds K S : Nat} {ops frees : List TraceOp}
    (hcarries : Carries (fun sizes => sizes.length ≤ K ∧ (sizes.map Prod.snd).sum ≤ (S : Int))
      (fun sizes => sizes = []) ops (fun sizes => sizes = []))
    (hplainly : ∀ op ∈ ops, op.Plainly S) (hfit : populationBound K S S ≤ MAX_HEAP - 16)
    (hfrees : ∀ op ∈ frees, op.type = .free) (hlegal : Trace.Legal ⟨numIds, ops ++ frees⟩) :
    ∃ t, served (ops ++ frees) = some t ∧
      t.heapsize ≤ 16 + max CHUNKSIZE (populationBound K S S) := by
  have hall : Carries _ _ (ops ++ frees) _ :=
    Triple.append hcarries (Carries.nothing ⟨Nat.zero_le K, Int.natCast_nonneg S⟩ hfrees)
  exact served_within hlegal hfit (fun pre op hpre htype =>
    need_le_population hlegal (sizes_with_frees (fun op hop => (hplainly op hop).2) hfrees)
      (fun pre hp => (hall.liveSizes.1 pre hp).1) (fun pre hp => (hall.liveSizes.1 pre hp).2) hpre
      htype)

/-- **The utilization of a realloc trace.** A reallocation holds both blocks for a while, but the
memory of the old ones is used again: the heap stays within six times the last size and a
constant, while the requests of the trace together ask for a square of it. -/
theorem realloc_utilization {reallocSize sizeIncrement mallocSize n : Nat} {u : Util} (hn : 1 ≤ n)
    (h1 : 1 ≤ reallocSize) (hm : 1 ≤ mallocSize)
    (hfit : populationBound 3 (reallocSize + (n - 1) * sizeIncrement + 2 * mallocSize)
      (reallocSize + (n - 1) * sizeIncrement + 2 * mallocSize) ≤ MAX_HEAP - 16)
    (hu : ArenaFor (reallocSize + (n - 1) * sizeIncrement + 2 * mallocSize) u.heap) :
    ∃ ratio u', (evalMmUtil ⟨n + 1, reallocOps reallocSize sizeIncrement mallocSize n⟩).out u
        = some (.ok ratio, u') ∧
      memHeapsize u'.heap ≤ 16 + max CHUNKSIZE
        (populationBound 3 (reallocSize + (n - 1) * sizeIncrement + 2 * mallocSize)
          (reallocSize + (n - 1) * sizeIncrement + 2 * mallocSize)) ∧
      ((reallocSize + (n - 1) * sizeIncrement + mallocSize : Nat) : ℚ)
        / ((16 + max CHUNKSIZE
          (populationBound 3 (reallocSize + (n - 1) * sizeIncrement + 2 * mallocSize)
            (reallocSize + (n - 1) * sizeIncrement + 2 * mallocSize)) : Nat) : ℚ) ≤ ratio := by
  have hmax : MAX_HEAP < 2 ^ 31 := by decide
  have hlegal : Trace.Legal ⟨n + 1, reallocOps reallocSize sizeIncrement mallocSize n⟩ := by
    unfold populationBound at hfit
    exact (realloc_leads hn h1 (by omega) hm (by omega)).legal.1
  have hnone : Trace.Legal ⟨n + 1, reallocOps reallocSize sizeIncrement mallocSize n ++ []⟩ := by
    rw [List.append_nil]
    exact hlegal
  obtain ⟨t, hserved, hheap⟩ := served_population (realloc_carries (le_refl _)) realloc_plainly hfit
    (fun op hop => absurd hop List.not_mem_nil) hnone
  rw [List.append_nil] at hserved
  obtain ⟨hno, -⟩ | ⟨t', u', ht', hsize, hout⟩ := evalMmUtil_served hu hlegal
    (fun op hop => (realloc_plainly op hop).2)
  · rw [hserved] at hno
    cases hno
  obtain rfl : t = t' := Option.some.inj (hserved.symm.trans ht')
  refine ⟨_, u', hout, hsize.trans_le hheap, div_le_div₀ ?_ ?_ ?_ (by exact_mod_cast hheap)⟩
  · exact_mod_cast highWater_nonneg _
  · exact_mod_cast le_highWater_realloc
  · exact_mod_cast (show 0 < 16 + span t.blocks by omega)

set_option maxRecDepth 20000 in
/-- `gen_realloc.pl` needs about six times its last size at most. -/
theorem realloc_utilization_sample : ∃ ratio u',
    (evalMmUtil ⟨4800 + 1, reallocOps 512 128 128 4800⟩).out sampleUtil = some (.ok ratio, u') ∧
      memHeapsize u'.heap ≤ 6 * (512 + 4799 * 128) + 2000 ∧ 1 / 7 ≤ ratio := by
  obtain ⟨ratio, u', hout, hheap, hlow⟩ := @realloc_utilization 512 128 128 4800 sampleUtil (by decide)
    (by decide) (by decide) (by decide) ⟨sampleHeap_arena, by decide, Or.inl (by decide)⟩
  refine ⟨ratio, u', hout, hheap.trans (by decide), le_trans ?_ hlow⟩
  norm_num [populationBound, CHUNKSIZE, DSIZE]

/-- **Moderate traces** are served, with all frees that are put behind them, and their requests are
such that `eval_mm_valid` can check them. -/
theorem moderate_served {file : List String} {trace : Trace} (h : Moderate file trace) :
    (∃ S, S ≤ MAX_HEAP ∧ ∀ op ∈ trace.ops, op.Plainly S) ∧
      ∀ frees : List TraceOp, (∀ op ∈ frees, op.type = .free) →
        Trace.Legal ⟨trace.numIds, trace.ops ++ frees⟩ →
        ∃ t, served (trace.ops ++ frees) = some t := by
  cases h with
  | @binary blkSize1 blkSize2 n hn h1 h2 hfit =>
      refine ⟨⟨_, ?_, binary_plainly⟩, fun frees hfrees hlegal => ?_⟩
      · unfold volumeBound at hfit
        have hS := le_max_left (blkSize1 + blkSize2 + 15) CHUNKSIZE
        omega
      · obtain ⟨t, hserved, -⟩ := served_binary hfrees hlegal hfit
        exact ⟨t, hserved⟩
  | coalescing hn hlt h1 hfit =>
      refine ⟨⟨_, ?_, coalescing_plainly⟩, fun frees hfrees hlegal => ?_⟩
      · unfold populationBound at hfit
        omega
      · obtain ⟨t, hserved, -⟩ :=
          served_population coalescing_carries coalescing_plainly hfit hfrees hlegal
        exact ⟨t, hserved⟩
  | realloc hn hlt h1 hm hfit =>
      refine ⟨⟨_, ?_, realloc_plainly⟩, fun frees hfrees hlegal => ?_⟩
      · unfold populationBound at hfit
        omega
      · obtain ⟨t, hserved, -⟩ :=
          served_population (realloc_carries (le_refl _)) realloc_plainly hfit hfrees hlegal
        exact ⟨t, hserved⟩

/-! ## The whole way -/

/-- What the driver loads of the balanced version of a moderate file. -/
theorem moderate_loads {printed out : List String} {trace : Trace} (h : Moderate printed trace)
    (hcheck : checktrace false printed = .ok out) (r : Reader) :
    ∃ trace' r', (loadTrace out).out r = some (.ok trace', r') ∧ trace'.Legal ∧
      trace'.passes = true ∧ trace'.numIds = trace.numIds ∧
      ∀ op ∈ trace'.ops, op.type ≠ .free → toSize op.size ≤ MAX_HEAP := by
  obtain ⟨⟨h1, h4, rfl, hheader⟩, hlegal, htight, hids, hlen⟩ := (moderate_regular h).printed
  obtain ⟨⟨S, hS, hplainly⟩, hserves⟩ := moderate_served h
  obtain ⟨js, -, -, hout, hlegal', htight', hlen', -⟩ :=
    balanced_written hlegal htight hids hlen h1 h4
  obtain rfl := Except.ok.inj (hout.symm.trans hcheck)
  have hfrees : ∀ op ∈ js.map TraceOp.f, op.type = .free := by
    intro op hop
    obtain ⟨j, -, rfl⟩ := List.mem_map.mp hop
    rfl
  obtain ⟨trace', r', hload, hlegal'', hnum, hplain⟩ :=
    written_loads hlegal' htight' hids hlen' hheader r
  -- what is loaded differs from what was written in the sizes of frees only
  have hops : ∀ op ∈ trace'.ops, op.Plainly S := by
    refine plainly_of_plain hplain (fun op hop => ?_)
    rcases List.mem_append.mp hop with hop | hop
    · exact hplainly op hop
    · exact plainly_free (hfrees op hop)
  refine ⟨trace', r', hload, hlegal'', ?_, hnum, fun op hop htype => ?_⟩
  · obtain ⟨t, hserved⟩ := hserves _ hfrees hlegal'
    rw [Trace.passes, served_plain hplain, hserved]
    exact decide_eq_true (fun op hop => (hops op hop).1)
  · have hle := hlegal''.toSize_le (fun op hop => (hops op hop).2) hop htype
    exact hle.trans hS

/-- The balanced versions of moderate files load as traces that pass. -/
theorem moderate_files {files : List TraceFile} (hfiles : ∀ file ∈ files, ∃ printed trace,
      Moderate printed trace ∧ checktrace false printed = .ok file.lines) :
    ∃ traces, List.Forall₂ Loads files traces ∧ failures traces = 0 := by
  induction files with
  | nil => exact ⟨[], List.Forall₂.nil, rfl⟩
  | cons file files ih =>
      obtain ⟨⟨printed, trace, hmoderate, hcheck⟩, hrest⟩ := List.forall_mem_cons.mp hfiles
      obtain ⟨traces, hloads, hnone⟩ := ih hrest
      obtain ⟨trace', r', hload, hlegal, hpass, -⟩ :=
        moderate_loads hmoderate hcheck ⟨file.ops, 0, 0⟩
      refine ⟨trace' :: traces, List.Forall₂.cons ⟨hlegal, r', hload⟩ hloads, ?_⟩
      rw [failures_cons, hpass, hnone]
      rfl

theorem moderate_roomy {file : TraceFile} {printed : List String} {trace : Trace} {top : Nat}
    (hroom : top ≤ 2 ^ 31 ∨ top + max (MAX_HEAP + 15) CHUNKSIZE + DSIZE < 2 ^ 32)
    (hmoderate : Moderate printed trace) (hcheck : checktrace false printed = .ok file.lines) :
    file.Roomy top := by
  intro loaded r hload op hop htype
  obtain ⟨trace', r', hload', -, -, -, hsizes⟩ := moderate_loads hmoderate hcheck ⟨file.ops, 0, 0⟩
  rw [hload'] at hload
  cases hload
  exact room_of_le hroom (hsizes op hop htype)

/-- **From the scripts to the report.** On the balanced versions of any files that the scripts print
with moderate numbers, `main` counts no error, prints none, and finds every trace correct: from
any memory, in any arena that is not at the very end of the addresses, whatever the clock says. -/
theorem main_scripts {clock : Nat → Timeval} {arena : Nat} {h : Heap} {files : List TraceFile}
    (h8 : arena % 8 = 0) (h0 : arena ≠ NULL) (hfit : arena + MAX_HEAP < 2 ^ 32)
    (hroom : arena + MAX_HEAP ≤ 2 ^ 31 ∨
      arena + MAX_HEAP + max (MAX_HEAP + 15) CHUNKSIZE + DSIZE < 2 ^ 32)
    (hfiles : ∀ file ∈ files, ∃ printed trace,
      Moderate printed trace ∧ checktrace false printed = .ok file.lines) :
    ∃ rep s', (main clock arena files).out (Session.initial h) = some (.ok rep, s') ∧
      rep.numcorrect = files.length ∧ s'.errors = 0 ∧ s'.stdout = [] := by
  obtain ⟨traces, hloads, hnone⟩ := moderate_files hfiles
  have hroomy : ∀ file ∈ files, file.Roomy (arena + MAX_HEAP) := by
    intro file hfile
    obtain ⟨printed, trace, hmoderate, hcheck⟩ := hfiles file hfile
    exact moderate_roomy hroom hmoderate hcheck
  have hnw := noWrap_of_stays
    (main_stays clock hfit (room_of_le hroom (Nat.zero_le _)) hroomy (Session.initial h)).1
  obtain ⟨r, s', hout, stats, rfl, hreps, herrors, hstdout⟩ :=
    (main_yields h8 h0 hfit hloads).out hnw
  refine ⟨_, s', hout, ?_, by rw [herrors, hnone], ?_⟩
  · have hcount := numcorrect_eq hreps
    rw [hnone, Nat.add_zero] at hcount
    rw [hloads.length_eq]
    exact hcount
  · rw [hnone] at hstdout
    exact List.eq_nil_of_length_eq_zero hstdout

/-- The file that `checktrace.pl` makes of what a script has printed. -/
def scriptFile (printed : List String) : TraceFile where
  path := "script.rep"
  lines :=
    match checktrace false printed with
    | .ok out => out
    | .error _ => []
  ops := fun _ => ⟨.alloc, 7, 7⟩
  blocks := fun _ => 7
  blockSizes := fun _ => 7

theorem scriptFile_lines {printed : List String} {trace : Trace} (h : Moderate printed trace) :
    checktrace false printed = .ok (scriptFile printed).lines := by
  obtain ⟨⟨h1, h4, rfl, hheader⟩, hlegal, htight, hids, hlen⟩ := (moderate_regular h).printed
  obtain ⟨js, -, -, hout, -⟩ := balanced_written hlegal htight hids hlen h1 h4
  rw [scriptFile, hout]

/-- The scripts of the repository that print regular traces. -/
def regularScripts : List (List String) :=
  [genBinaryScript, genBinary2Script, genCoalescingScript, genReallocScript, genRealloc2Script]

theorem regularScripts_moderate : ∀ printed ∈ regularScripts, ∃ trace, Moderate printed trace := by
  simp only [regularScripts, List.forall_mem_cons]
  refine ⟨⟨_, Moderate.binary ?_ ?_ ?_ ?_⟩, ⟨_, Moderate.binary ?_ ?_ ?_ ?_⟩,
    ⟨_, Moderate.coalescing ?_ ?_ ?_ ?_⟩, ⟨_, Moderate.realloc ?_ ?_ ?_ ?_ ?_⟩,
    ⟨_, Moderate.realloc ?_ ?_ ?_ ?_ ?_⟩, fun _ h => absurd h List.not_mem_nil⟩
  all_goals decide

/-- The five scripts with their own numbers. -/
theorem main_scripts_sample : ∃ rep s',
    (main sampleClock 0x10000000 (regularScripts.map scriptFile)).out (Session.initial sampleHeap)
        = some (.ok rep, s') ∧
      rep.numcorrect = (regularScripts.map scriptFile).length ∧ s'.errors = 0 ∧ s'.stdout = [] := by
  refine main_scripts (by decide) (by decide) (by decide) (Or.inl (by decide)) (fun file hfile => ?_)
  obtain ⟨printed, hprinted, rfl⟩ := List.mem_map.mp hfile
  obtain ⟨trace, hmoderate⟩ := regularScripts_moderate printed hprinted
  exact ⟨printed, trace, hmoderate, scriptFile_lines hmoderate⟩

end MallocLab
