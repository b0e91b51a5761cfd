import MallocLab.Driver.Scripts
import MallocLab.Traces.RandomFile

set_option autoImplicit false

/-! # What `gen_random.pl` prints, in the driver

`rand` may give a number below 1, and then the script prints a request for 0 bytes, for which
`mm_malloc` has no block. This is all that can go wrong: whatever is drawn, the file is loaded, the
trace is legal exactly when no draw for a size is below 1 (`genRandom_loads`), and `eval_mm_valid`
refuses it otherwise (`genRandom_verdict`).
-/

namespace MallocLab

open Logged Past Text

variable {K : Type} [Field K] [LinearOrder K] [FloorRing K]

/-! ## The sizes that are drawn -/

/-- The size of block `i`. -/
def drawnSize (maxBlkSize : Nat) (draw : Nat → K → K) (i : Nat) : Int :=
  int (rand draw i (maxBlkSize : K))

/-- An entry that is no free has the size that was drawn for its id. -/
def GenOp.Drawn (maxBlkSize : Nat) (draw : Nat → K → K) (op : GenOp) : Prop :=
  op.isAlloc = true → op = .a op.seq (drawnSize maxBlkSize draw op.seq)

theorem drawn_pushAllocs (maxBlkSize : Nat) (draw : Nat → K → K) (n : Nat) :
    ∀ op ∈ (pushAllocs maxBlkSize draw n).1, op.Drawn maxBlkSize draw := by
  induction n with
  | zero => exact fun op hop => absurd hop List.not_mem_nil
  | succ n ih =>
      intro op hop
      rcases List.mem_append.mp hop with hop | hop
      · exact ih op hop
      · rw [List.mem_singleton.mp hop]
        exact fun _ => rfl

theorem drawn_insertFrees (numBlocks maxBlkSize : Nat) (draw : Nat → K → K) (i : Nat) :
    ∀ op ∈ insertFrees numBlocks maxBlkSize draw i, op.Drawn maxBlkSize draw := by
  induction i with
  | zero => exact drawn_pushAllocs maxBlkSize draw numBlocks
  | succ i ih =>
      intro op hop
      rcases List.mem_append.mp hop with hop | hop
      · exact ih op (List.mem_of_mem_take hop)
      · rcases List.mem_cons.mp hop with rfl | hop
        · exact fun halloc => absurd halloc Bool.false_ne_true
        · exact ih op (List.mem_of_mem_drop hop)

section Sizes

variable {draw : Nat → K → K} [IsStrictOrderedRing K]

/-- The size is not negative and not above the largest one, and it is 0 when less than 1 is
drawn. -/
theorem drawnSize_bounds (hdraw : ∀ n x, 0 < x → 0 ≤ draw n x ∧ draw n x < x) (maxBlkSize i : Nat) :
    0 ≤ drawnSize maxBlkSize draw i ∧ drawnSize maxBlkSize draw i ≤ maxBlkSize ∧
      (1 ≤ drawnSize maxBlkSize draw i ↔ 1 ≤ rand draw i (maxBlkSize : K)) := by
  obtain ⟨hlow, hhigh⟩ := rand_bounds hdraw i (Nat.cast_nonneg (α := K) maxBlkSize)
  rw [drawnSize, int, if_pos hlow]
  refine ⟨Int.floor_nonneg.mpr hlow, ?_, ?_⟩
  · rw [← Int.lt_add_one_iff, Int.floor_lt]
    push_cast
    by_cases h0 : (maxBlkSize : K) = 0
    · rw [if_pos h0] at hhigh
      linarith
    · rw [if_neg h0] at hhigh
      linarith
  · rw [Int.le_floor, Int.cast_one]

end Sizes

/-! ## The trace that is printed -/

/-- An entry as a request. -/
def GenOp.op : GenOp → TraceOp
  | .a seq size => ⟨.alloc, seq, size⟩
  | .f seq => .f seq

/-- The trace of the script. -/
def randomTrace (numBlocks maxBlkSize : Nat) (draw : Nat → K → K) : Trace :=
  ⟨numBlocks, (insertFrees numBlocks maxBlkSize draw numBlocks).map GenOp.op⟩

theorem line_op (op : GenOp) : op.op.line = GenOp.line (some op) := by
  cases op <;> rfl

theorem type_op (op : GenOp) : op.op.type ≠ .free ↔ op.isAlloc = true := by
  cases op <;> simp [GenOp.op, GenOp.isAlloc, TraceOp.f]

theorem GenOp.plain_op (op : GenOp) : op.op.plain = op.op := by
  cases op <;> rfl

/-- A line of the trace is one that `read_trace` can read. -/
theorem op_line_ok {op : GenOp} (hseq : op.seq < 2 ^ 32)
    (hsize : op.op.type ≠ .free → 0 ≤ op.op.size ∧ op.op.size < 2 ^ 31) :
    Numeric op.op.line ∧ Canonical op.op.line ∧ (Sized op.op.line ↔ op.op.SizeOk) := by
  have hid : (∀ c ∈ (toString op.seq).toList, c.isDigit = true) ∧
      number (toString op.seq) < 2 ^ 32 :=
    ⟨isDigit_toString op.seq, by rw [number_toString]; exact hseq⟩
  have hcanon : toString (number (toString op.seq)) = toString op.seq := by
    rw [number_toString]
  rw [line_op]
  unfold Numeric Canonical Sized TraceOp.SizeOk
  cases op with
  | a seq size =>
      obtain ⟨hlow, hhigh⟩ : 0 ≤ size ∧ size < 2 ^ 31 := hsize ((type_op _).mpr rfl)
      lift size to Nat using hlow
      have hprint : toString (size : Int) = toString size := rfl
      rw [words_line_a, hprint]
      refine ⟨?_, ?_, ?_, ?_⟩
      · simp only [List.tail_cons, List.mem_cons, List.not_mem_nil, or_false]
        rintro w (rfl | rfl)
        · exact hid
        · exact ⟨isDigit_toString size, by rw [number_toString]; omega⟩
      · intro cmd id rest h
        cases h
        exact hcanon
      · intro h _
        have hbounds := h _ _ _ rfl
        rw [number_toString] at hbounds
        exact ⟨Int.ofNat_le.mpr hbounds.1, hhigh⟩
      · intro h cmd id sz hw
        cases hw
        have hone : (1 : Int) ≤ size := (h ((type_op (.a seq size)).mpr rfl)).1
        rw [number_toString]
        omega
  | f seq =>
      rw [words_line_f]
      refine ⟨?_, ?_, ?_⟩
      · simp only [List.tail_cons, List.mem_cons, List.not_mem_nil, or_false]
        rintro w rfl
        exact hid
      · intro cmd id rest h
        cases h
        exact hcanon
      · refine iff_of_true (fun cmd id size h => ?_) (fun htype => absurd rfl htype)
        cases h

/-- The requests below are those of a file with the right header. -/
theorem BalancedFile.headerFits {n : Nat} {out : List String} (hn : 1 ≤ n) (hids : 4 * n < 2 ^ 32)
    (hB : BalancedFile n out) : HeaderFits out ∧ requests (out.drop 4) = out.drop 4 := by
  have hkept : requests (out.drop 4) = out.drop 4 := by
    refine List.filter_eq_self.mpr (fun line hline => decide_eq_true ?_)
    obtain ⟨j, -, ⟨size, hw⟩ | hw⟩ := hB.below line hline <;> exact not_blank hw
  have hle : maxId ((out.drop 4).map TraceLine.read) ≤ n - 1 := by
    apply maxId_le
    intro l hl _
    obtain ⟨line, hline, rfl⟩ := List.mem_map.mp hl
    obtain ⟨j, hj, ⟨size, hw⟩ | hw⟩ := hB.below line hline
    all_goals
      rw [read_eq hw]
      show number (toString j) ≤ n - 1
      rw [number_toString]
      omega
  -- the allocation of the last id
  have hge : n - 1 ≤ maxId ((out.drop 4).map TraceLine.read) := by
    have hpos : 0 < (out.drop 4).countP (fun l => Requests "a" (toString (n - 1)) l) := by
      rw [hB.allocated (n - 1) (by omega)]
      exact Nat.one_pos
    obtain ⟨line, hline, hreq⟩ := List.countP_pos_iff.mp hpos
    replace hreq : Requests "a" (toString (n - 1)) line := of_decide_eq_true hreq
    obtain ⟨rest, hw⟩ : ∃ rest, words line = "a" :: toString (n - 1) :: rest := by
      refine ⟨(words line).drop 2, ?_⟩
      calc words line
          = (words line).take 2 ++ (words line).drop 2 := (List.take_append_drop 2 _).symm
        _ = "a" :: toString (n - 1) :: (words line).drop 2 := by rw [hreq]; rfl
    have hmem := le_maxId (List.mem_map_of_mem (f := TraceLine.read) hline)
    rw [read_eq hw] at hmem
    have hindex := hmem (show "a".front ≠ 'f' by decide)
    rw [number_toString] at hindex
    exact hindex
  refine ⟨⟨?_, ?_, ?_⟩, hkept⟩
  · rw [hkept, hB.numIds]
    omega
  · rw [hkept, hB.numOps]
  · rw [hB.numIds]
    exact hids

section Script

variable {draw : Nat → K → K} [IsStrictOrderedRing K]

/-- What is known of the entries when the script is done. -/
theorem random_ops (hdraw : ∀ n x, 0 < x → 0 ≤ draw n x ∧ draw n x < x)
    {numBlocks : Nat} (hexact : 2 * numBlocks ≤ 2 ^ 52) (maxBlkSize : Nat) {op : GenOp}
    (hop : op ∈ insertFrees numBlocks maxBlkSize draw numBlocks) :
    op.seq < numBlocks ∧
      (op.op.type ≠ .free → op.op.size = drawnSize maxBlkSize draw op.seq ∧
        0 ≤ op.op.size ∧ op.op.size ≤ maxBlkSize) := by
  refine ⟨(generated_insertFrees hdraw hexact maxBlkSize (le_refl _)).seqs op hop, ?_⟩
  intro htype
  have hdrawn := drawn_insertFrees numBlocks maxBlkSize draw numBlocks op hop
    ((type_op op).mp htype)
  obtain ⟨hlow, hhigh, -⟩ := drawnSize_bounds hdraw maxBlkSize op.seq
  have hsize : op.op.size = drawnSize maxBlkSize draw op.seq := by
    rw [hdrawn]
    rfl
  rw [hsize]
  exact ⟨rfl, hlow, hhigh⟩

/-- The allocation of an id. -/
theorem random_alloc (hdraw : ∀ n x, 0 < x → 0 ≤ draw n x ∧ draw n x < x)
    {numBlocks : Nat} (hexact : 2 * numBlocks ≤ 2 ^ 52) (maxBlkSize : Nat) {i : Nat}
    (hi : i < numBlocks) :
    ∃ op ∈ insertFrees numBlocks maxBlkSize draw numBlocks, op.isAlloc = true ∧ op.seq = i := by
  have hseq : i ∈ ((insertFrees numBlocks maxBlkSize draw numBlocks).filter GenOp.isAlloc).map
      GenOp.seq := by
    rw [(generated_insertFrees hdraw hexact maxBlkSize (le_refl numBlocks)).inOrder]
    exact List.mem_range.mpr hi
  obtain ⟨op, hop, hid⟩ := List.mem_map.mp hseq
  obtain ⟨hmem, halloc⟩ := List.mem_filter.mp hop
  exact ⟨op, hmem, halloc, hid⟩

/-- All sizes are right when no draw is below 1. -/
theorem random_sizes (hdraw : ∀ n x, 0 < x → 0 ≤ draw n x ∧ draw n x < x)
    {numBlocks maxBlkSize : Nat} (hexact : 2 * numBlocks ≤ 2 ^ 52) (hmax : maxBlkSize < 2 ^ 31) :
    (∀ op ∈ (randomTrace numBlocks maxBlkSize draw).ops, op.SizeOk) ↔
      ∀ i < numBlocks, 1 ≤ rand draw i (maxBlkSize : K) := by
  constructor
  · intro h i hi
    obtain ⟨op, hmem, halloc, rfl⟩ := random_alloc hdraw hexact maxBlkSize hi
    have htype := (type_op op).mpr halloc
    have hsize := (random_ops hdraw hexact maxBlkSize hmem).2 htype
    have hone := (h op.op (List.mem_map_of_mem hmem) htype).1
    rw [hsize.1] at hone
    exact (drawnSize_bounds hdraw maxBlkSize op.seq).2.2.mp hone
  · intro h k hk htype
    obtain ⟨op, hop, rfl⟩ := List.mem_map.mp hk
    obtain ⟨hseq, hsize⟩ := random_ops hdraw hexact maxBlkSize hop
    obtain ⟨heq, -, hhigh⟩ := hsize htype
    refine ⟨?_, by omega⟩
    rw [heq]
    exact (drawnSize_bounds hdraw maxBlkSize op.seq).2.2.mpr (h op.seq hseq)

/-- The lines after the header are those of the trace, and they leave no id. -/
theorem random_lines (hdraw : ∀ n x, 0 < x → 0 ≤ draw n x ∧ draw n x < x)
    {numBlocks : Nat} (hexact : 2 * numBlocks ≤ 2 ^ 52) (maxBlkSize : Nat) :
    (genRandom numBlocks maxBlkSize draw).drop 4
        = (randomTrace numBlocks maxBlkSize draw).ops.map TraceOp.line ∧
      Consistent ((genRandom numBlocks maxBlkSize draw).drop 4) ∧
      ∀ id, ¬Allocated ((genRandom numBlocks maxBlkSize draw).drop 4) id := by
  have hG := generated_insertFrees hdraw hexact maxBlkSize (le_refl numBlocks)
  have hlines : (genRandom numBlocks maxBlkSize draw).drop 4
      = (insertFrees numBlocks maxBlkSize draw numBlocks).map
        (fun op => GenOp.line (some op)) := by
    rw [genRandom_file hG]
    rfl
  rw [hlines]
  refine ⟨?_, consistent_of_pairedLines hG.requestBelow (fun j hj => hG.pairedLines hj)⟩
  rw [randomTrace, List.map_map]
  exact List.map_congr_left (fun op _ => (line_op op).symm)

/-- A line of the file is the line of an entry. -/
theorem random_entry (hdraw : ∀ n x, 0 < x → 0 ≤ draw n x ∧ draw n x < x)
    {numBlocks maxBlkSize : Nat} (hexact : 2 * numBlocks ≤ 2 ^ 52) {line : String}
    (hline : line ∈ (genRandom numBlocks maxBlkSize draw).drop 4) :
    ∃ op ∈ insertFrees numBlocks maxBlkSize draw numBlocks, op.op.line = line := by
  rw [(random_lines hdraw hexact maxBlkSize).1] at hline
  obtain ⟨k, hk, rfl⟩ := List.mem_map.mp hline
  obtain ⟨op, hop, rfl⟩ := List.mem_map.mp hk
  exact ⟨op, hop, rfl⟩

theorem random_op_ok (hdraw : ∀ n x, 0 < x → 0 ≤ draw n x ∧ draw n x < x)
    {numBlocks maxBlkSize : Nat} (hids : numBlocks < 2 ^ 31) (hmax : maxBlkSize < 2 ^ 31)
    {op : GenOp} (hop : op ∈ insertFrees numBlocks maxBlkSize draw numBlocks) :
    Numeric op.op.line ∧ Canonical op.op.line ∧ (Sized op.op.line ↔ op.op.SizeOk) := by
  have hexact : 2 * numBlocks ≤ 2 ^ 52 := by omega
  obtain ⟨hseq, hsize⟩ := random_ops hdraw hexact maxBlkSize hop
  refine op_line_ok (by omega) (fun htype => ?_)
  obtain ⟨-, hlow, hhigh⟩ := hsize htype
  exact ⟨hlow, by omega⟩

theorem random_index (hdraw : ∀ n x, 0 < x → 0 ≤ draw n x ∧ draw n x < x)
    {numBlocks maxBlkSize : Nat} (hexact : 2 * numBlocks ≤ 2 ^ 52) {line : String}
    (hline : line ∈ (genRandom numBlocks maxBlkSize draw).drop 4) :
    (TraceLine.read line).index < numBlocks := by
  obtain ⟨op, hop, rfl⟩ := random_entry hdraw hexact hline
  rw [(read_line op.op).1]
  have hseq := (random_ops hdraw hexact maxBlkSize hop).1
  cases op <;> exact hseq

/-- The sizes of the lines are right when those of the requests are. -/
theorem random_sized (hdraw : ∀ n x, 0 < x → 0 ≤ draw n x ∧ draw n x < x)
    {numBlocks maxBlkSize : Nat} (hids : numBlocks < 2 ^ 31) (hmax : maxBlkSize < 2 ^ 31) :
    (∀ line ∈ (genRandom numBlocks maxBlkSize draw).drop 4, Sized line) ↔
      ∀ op ∈ (randomTrace numBlocks maxBlkSize draw).ops, op.SizeOk := by
  have hexact : 2 * numBlocks ≤ 2 ^ 52 := by omega
  constructor
  · intro hsized k hk
    have hline := hsized k.line (by
      rw [(random_lines hdraw hexact maxBlkSize).1]
      exact List.mem_map_of_mem hk)
    obtain ⟨op, hop, rfl⟩ := List.mem_map.mp hk
    exact (random_op_ok hdraw hids hmax hop).2.2.mp hline
  · intro hsizes line hline
    obtain ⟨op, hop, rfl⟩ := random_entry hdraw hexact hline
    exact (random_op_ok hdraw hids hmax hop).2.2.mpr (hsizes op.op (List.mem_map_of_mem hop))

theorem pushAllocs_nonneg (hdraw : ∀ n x, 0 < x → 0 ≤ draw n x ∧ draw n x < x)
    (maxBlkSize n : Nat) : 0 ≤ (pushAllocs maxBlkSize draw n).2 := by
  induction n with
  | zero => exact le_refl 0
  | succ n ih => exact add_nonneg ih (drawnSize_bounds hdraw maxBlkSize n).1

/-- The file is in the format of the traces. -/
theorem random_inFormat (hdraw : ∀ n x, 0 < x → 0 ≤ draw n x ∧ draw n x < x)
    {numBlocks maxBlkSize : Nat} (hids : numBlocks < 2 ^ 31) (hmax : maxBlkSize < 2 ^ 31) :
    InFormat (genRandom numBlocks maxBlkSize draw) := by
  have hexact : 2 * numBlocks ≤ 2 ^ 52 := by omega
  have hG := generated_insertFrees hdraw hexact maxBlkSize (le_refl numBlocks)
  have hB := genRandom_balancedFile hG
  refine ⟨⟨_, _, _, _, _, genRandom_file hG, ?_⟩,
    fun line hline => Or.inl (hB.below line hline).isRequest, fun line hline => ?_⟩
  · have htotal := pushAllocs_nonneg hdraw maxBlkSize numBlocks
    simp only [List.forall_mem_cons]
    exact ⟨isNumber_toString_int (by omega), isNumber_toString _, isNumber_toString _,
      isNumber_toString 1, by simp⟩
  · obtain ⟨op, hop, rfl⟩ := random_entry hdraw hexact hline
    exact (random_op_ok hdraw hids hmax hop).1

/-- **The file is loaded**, whatever is drawn, and says the requests of the script. -/
theorem random_said (hdraw : ∀ n x, 0 < x → 0 ≤ draw n x ∧ draw n x < x)
    {numBlocks maxBlkSize : Nat} (hn : 1 ≤ numBlocks) (hlen : 24 * numBlocks < 2 ^ 32)
    (hmax : maxBlkSize < 2 ^ 31) (r : Reader) :
    ∃ trace r', (loadTrace (genRandom numBlocks maxBlkSize draw)).out r = some (.ok trace, r') ∧
      trace.numIds = numBlocks ∧
      List.Forall₂ Says ((randomTrace numBlocks maxBlkSize draw).ops.map TraceOp.line) trace.ops ∧
      (trace.Legal ↔ ∀ i < numBlocks, 1 ≤ rand draw i (maxBlkSize : K)) := by
  have hexact : 2 * numBlocks ≤ 2 ^ 52 := by omega
  have hids : numBlocks < 2 ^ 31 := by omega
  have hB := genRandom_balancedFile
    (generated_insertFrees hdraw hexact maxBlkSize (le_refl numBlocks))
  have hfile := random_inFormat hdraw hids hmax
  obtain ⟨hfit, hkept⟩ := hB.headerFits hn (by omega)
  obtain ⟨hlines, hcons, -⟩ := random_lines hdraw hexact maxBlkSize
  have hpos := hB.numIds
  have hcanon : ∀ line ∈ (genRandom numBlocks maxBlkSize draw).drop 4, Canonical line := by
    intro line hline
    obtain ⟨op, hop, rfl⟩ := random_entry hdraw hexact hline
    exact (random_op_ok hdraw hids hmax hop).2.1
  have hroom : 12 * (requests ((genRandom numBlocks maxBlkSize draw).drop 4)).length < 2 ^ 32 := by
    rw [hkept, hB.length]
    omega
  have hindex : ∀ line ∈ requests ((genRandom numBlocks maxBlkSize draw).drop 4),
      (TraceLine.read line).index < number ((genRandom numBlocks maxBlkSize draw).getD 1 "") := by
    rw [hkept, hpos]
    exact fun line hline => random_index hdraw hexact hline
  obtain ⟨trace, r', hout⟩ := loadTrace_isSome hfile (by omega) hroom hfit hindex r
  obtain ⟨-, hnumIds, hsaid⟩ := loadTrace_ok hfile hcanon (by omega) (by omega) hroom hout
  rw [hkept] at hsaid
  rw [hpos] at hnumIds
  refine ⟨trace, r', hout, hnumIds, hlines ▸ hsaid, ?_⟩
  have hbelow : ∀ op ∈ trace.ops, op.index < trace.numIds := by
    intro op hop
    obtain ⟨line, hline, hop⟩ := exists_line_of_mem hsaid hop
    rw [hnumIds, ← hop.index]
    exact random_index hdraw hexact hline
  rw [← random_sizes hdraw hexact hmax, ← random_sized hdraw hids hmax, Trace.Legal,
    legalFrom_iff hsaid hfile.numeric allocated_nil atEach_nil, List.nil_append]
  exact ⟨fun h => h.2.2, fun h => ⟨hbelow, hcons, h⟩⟩

/-- The script has no reallocation. -/
theorem random_plainly (hdraw : ∀ n x, 0 < x → 0 ≤ draw n x ∧ draw n x < x)
    {numBlocks : Nat} (hexact : 2 * numBlocks ≤ 2 ^ 52) (maxBlkSize : Nat) :
    ∀ op ∈ (randomTrace numBlocks maxBlkSize draw).ops, op.Plainly maxBlkSize := by
  intro k hk
  obtain ⟨op, hop, rfl⟩ := List.mem_map.mp hk
  refine ⟨fun htype => ?_, fun htype => ?_⟩
  · cases op <;> cases htype
  · exact ((random_ops hdraw hexact maxBlkSize hop).2 htype).2.2

omit [IsStrictOrderedRing K] in
/-- `$total_block_size` is the sum of the sizes. -/
theorem pushAllocs_total (maxBlkSize : Nat) (draw : Nat → K → K) (n : Nat) :
    ((List.range n).map (fun i => drawnSize maxBlkSize draw i + 23)).sum
      = (pushAllocs maxBlkSize draw n).2 + 23 * n := by
  induction n with
  | zero => rfl
  | succ n ih =>
      rw [List.range_succ, List.map_append, List.sum_append, ih, pushAllocs, List.map_singleton,
        List.sum_singleton, drawnSize]
      push_cast
      ring

/-- What the script asks for, with 23 bytes more for each block. -/
theorem asked_random (hdraw : ∀ n x, 0 < x → 0 ≤ draw n x ∧ draw n x < x)
    {numBlocks : Nat} (hexact : 2 * numBlocks ≤ 2 ^ 52) (maxBlkSize : Nat) :
    asked (randomTrace numBlocks maxBlkSize draw).ops
      = (pushAllocs maxBlkSize draw numBlocks).2 + 23 * numBlocks := by
  have hG := generated_insertFrees hdraw hexact maxBlkSize (le_refl numBlocks)
  have hfilter : (randomTrace numBlocks maxBlkSize draw).ops.filter (·.type ≠ .free)
      = ((insertFrees numBlocks maxBlkSize draw numBlocks).filter GenOp.isAlloc).map GenOp.op := by
    rw [randomTrace, List.filter_map]
    congr 1
    refine List.filter_congr (fun op _ => ?_)
    exact Bool.eq_iff_iff.mpr (by simpa using type_op op)
  have hsize : ∀ op ∈ (insertFrees numBlocks maxBlkSize draw numBlocks).filter GenOp.isAlloc,
      op.op.size + 23 = drawnSize maxBlkSize draw op.seq + 23 := by
    intro op hop
    obtain ⟨hmem, halloc⟩ := List.mem_filter.mp hop
    rw [((random_ops hdraw hexact maxBlkSize hmem).2 ((type_op op).mpr halloc)).1]
  calc asked (randomTrace numBlocks maxBlkSize draw).ops
      = (((insertFrees numBlocks maxBlkSize draw numBlocks).filter GenOp.isAlloc).map
          (fun op => op.op.size + 23)).sum := by
        rw [asked, hfilter, List.map_map]
        rfl
    _ = (((insertFrees numBlocks maxBlkSize draw numBlocks).filter GenOp.isAlloc).map
          (fun op => drawnSize maxBlkSize draw op.seq + 23)).sum := by
        rw [List.map_congr_left hsize]
    _ = ((List.range numBlocks).map (fun i => drawnSize maxBlkSize draw i + 23)).sum := by
        rw [← hG.inOrder, List.map_map]
        rfl
    _ = (pushAllocs maxBlkSize draw numBlocks).2 + 23 * numBlocks :=
        pushAllocs_total maxBlkSize draw numBlocks

/-- **From the draws to the verdict.** Whatever is drawn, the file of `gen_random.pl` is loaded. The
trace is legal exactly when no draw for a size is below 1; then its requests are those of the
script, it leaves no id, and it passes when the sizes that were drawn have room in the heap. -/
theorem genRandom_loads (hdraw : ∀ n x, 0 < x → 0 ≤ draw n x ∧ draw n x < x)
    {numBlocks maxBlkSize : Nat} (hn : 1 ≤ numBlocks) (hlen : 24 * numBlocks < 2 ^ 32)
    (hmax : maxBlkSize < 2 ^ 31) (r : Reader) :
    ∃ trace r', (loadTrace (genRandom numBlocks maxBlkSize draw)).out r = some (.ok trace, r') ∧
      trace.numIds = numBlocks ∧
      (trace.Legal ↔ ∀ i < numBlocks, 1 ≤ rand draw i (maxBlkSize : K)) ∧
      (trace.Legal →
        trace.ops.map TraceOp.plain = (randomTrace numBlocks maxBlkSize draw).ops ∧
        idsAfter [] trace.ops = [] ∧
        (volumeBound ((pushAllocs maxBlkSize draw numBlocks).2.toNat + 23 * numBlocks) maxBlkSize
            ≤ MAX_HEAP - 16 →
          trace.passes = true)) := by
  have hexact : 2 * numBlocks ≤ 2 ^ 52 := by omega
  obtain ⟨trace, r', hout, hnumIds, hsaid, hiff⟩ := random_said hdraw hn hlen hmax r
  refine ⟨trace, r', hout, hnumIds, hiff, fun hlegal => ?_⟩
  have hsizes : ∀ op ∈ (randomTrace numBlocks maxBlkSize draw).ops, op.SizeOk :=
    (random_sizes hdraw hexact hmax).mpr (hiff.mp hlegal)
  have hplain := plain_of_said hsizes hsaid
  have hself : (randomTrace numBlocks maxBlkSize draw).ops.map TraceOp.plain
      = (randomTrace numBlocks maxBlkSize draw).ops := by
    rw [randomTrace, List.map_map]
    exact List.map_congr_left (fun op _ => op.plain_op)
  refine ⟨hplain.trans hself, ?_, fun hfit => ?_⟩
  · obtain ⟨hlines, -, hnone⟩ := random_lines hdraw hexact maxBlkSize
    rw [idsAfter_plain hplain]
    refine List.eq_nil_iff_forall_not_mem.mpr (fun id hid => hnone (toString id) ?_)
    have hheld := (idsAfter_allocated allocated_nil hsizes id).mp hid
    rwa [List.nil_append, ← hlines] at hheld
  · have hlegal' : (randomTrace numBlocks maxBlkSize draw).Legal := by
      rw [Trace.Legal, hnumIds] at hlegal
      exact (legalFrom_plain hplain).mp hlegal
    have hplainly := random_plainly hdraw hexact maxBlkSize
    have hasked : asked (randomTrace numBlocks maxBlkSize draw).ops
        ≤ (((pushAllocs maxBlkSize draw numBlocks).2.toNat + 23 * numBlocks : Nat) : Int) := by
      rw [asked_random hdraw hexact maxBlkSize]
      push_cast
      exact Int.add_le_add_right (Int.self_le_toNat _) _
    obtain ⟨t, hserved, -⟩ := served_within hlegal' hfit (fun pre op hpre htype =>
      need_le_volume hlegal' (fun op hop => (hplainly op hop).2) hasked hpre htype)
    rw [Trace.passes, served_plain hplain, hserved]
    exact decide_eq_true (fun op hop => (plainly_of_plain hplain hplainly op hop).1)

end Script

/-- The script as it stands, when an eighth of each range is drawn: 2400 blocks of 4096 bytes. -/
theorem genRandom_loads_sample : ∃ trace r',
    (loadTrace (genRandomScript (fun _ (x : Rat) => x / 8))).out ⟨fun _ => ⟨.alloc, 7, 7⟩, 0, 0⟩
        = some (.ok trace, r') ∧
      trace.Legal ∧ idsAfter [] trace.ops = [] ∧ trace.passes = true := by
  obtain ⟨trace, r', hout, -, hiff, hrest⟩ := @genRandom_loads Rat _ _ _
    (fun _ x => x / 8) _ (fun _ x hx => ⟨by linarith, by linarith⟩) 2400 32768 (by decide)
    (by decide) (by decide) ⟨fun _ => ⟨.alloc, 7, 7⟩, 0, 0⟩
  have hlegal : trace.Legal := hiff.mpr (fun i _ => by norm_num [rand])
  have htotal : ∀ n, (pushAllocs 32768 (fun _ (x : Rat) => x / 8) n).2 = 4096 * n := by
    intro n
    induction n with
    | zero => rfl
    | succ n ih =>
        have hsize : int (rand (fun _ (x : Rat) => x / 8) n ((32768 : Nat) : Rat)) = 4096 := by
          norm_num [rand, int]
        rw [pushAllocs, ih, hsize]
        push_cast
        ring
  obtain ⟨-, hnone, hpass⟩ := hrest hlegal
  refine ⟨trace, r', hout, hlegal, hnone, hpass ?_⟩
  rw [htotal]
  decide

/-! ## A request for 0 bytes -/

/-- `mm_malloc` has no block of 0 bytes. -/
theorem evalAlloc_zero (i index : Nat) (d : Driver) :
    (evalAlloc i index 0).out d = some (.error ⟨i, .mallocFailed⟩, d) := rfl

/-- So the loop of `eval_mm_valid` does not get past such a request, whatever comes before it. -/
theorem evalOps_zero {ops : List TraceOp} (hzero : ∃ op ∈ ops, op.type = .alloc ∧ op.size = 0)
    (i : Nat) (d d' : Driver) : (evalOps i ops).out d ≠ some (.ok (), d') := by
  obtain ⟨op, hop, htype, hsize⟩ := hzero
  induction ops generalizing i d with
  | nil => exact absurd hop List.not_mem_nil
  | cons k ops ih =>
      intro hout
      rw [evalOps, out_bind, Option.bind_eq_some_iff] at hout
      obtain ⟨⟨r, d1⟩, hk, hout⟩ := hout
      cases r with
      | error f => cases hout
      | ok _ =>
          rcases List.mem_cons.mp hop with rfl | hop
          · rw [evalOp, htype, hsize] at hk
            exact absurd ((evalAlloc_zero i op.index d).symm.trans hk) (by simp)
          · exact ih (i + 1) d1 hop hout

theorem evalMmValid_zero {trace : Trace}
    (hzero : ∃ op ∈ trace.ops, op.type = .alloc ∧ op.size = 0) (d d' : Driver) :
    (evalMmValid trace).out d ≠ some (.ok (), d') := by
  intro hout
  rw [evalMmValid, out_bind, Option.bind_eq_some_iff] at hout
  obtain ⟨⟨_, d1⟩, -, hout⟩ := hout
  rw [out_bind, Option.bind_eq_some_iff] at hout
  obtain ⟨⟨_, d2⟩, -, hout⟩ := hout
  rw [out_bind, Option.bind_eq_some_iff] at hout
  obtain ⟨⟨r, d3⟩, -, hout⟩ := hout
  replace hout : (if r < 0 then _ else _ : Logged Driver Event _).out d3 = _ := hout
  by_cases hr : r < 0
  · rw [if_pos hr] at hout
    cases hout
  · rw [if_neg hr] at hout
    exact evalOps_zero hzero 0 d3 d' hout

/-- Every line says a request. -/
theorem exists_said_of_mem {lines : List String} {ops : List TraceOp}
    (hsaid : List.Forall₂ Says lines ops) {line : String} (hline : line ∈ lines) :
    ∃ op ∈ ops, Says line op := by
  induction hsaid with
  | nil => exact absurd hline List.not_mem_nil
  | cons hfirst _ ih =>
      rcases List.mem_cons.mp hline with rfl | hline
      · exact ⟨_, List.mem_cons_self, hfirst⟩
      · obtain ⟨op, hop, hsays⟩ := ih hline
        exact ⟨op, List.mem_cons_of_mem _ hop, hsays⟩

/-- What a line with the size 0 says. -/
theorem says_zero {seq : Nat} {op : TraceOp} (h : Says (GenOp.line (some (.a seq 0))) op) :
    op.type = .alloc ∧ op.size = 0 := by
  unfold Says at h
  rw [words_line_a] at h
  cases htype : op.type with
  | alloc =>
      rw [htype] at h
      obtain ⟨size, hw, hsize⟩ := h
      obtain rfl : toString (0 : Nat) = size :=
        (List.cons.inj (List.cons.inj (List.cons.inj hw).2).2).1
      rw [number_toString] at hsize
      exact ⟨rfl, hsize⟩
  | realloc =>
      rw [htype] at h
      obtain ⟨size, hw, -⟩ := h
      exact absurd (List.cons.inj hw).1 (by decide)
  | free =>
      rw [htype] at h
      exact absurd (List.cons.inj h).1 (by decide)

/-! ## The verdict -/

section Verdict

variable {draw : Nat → K → K} [IsStrictOrderedRing K]

/-- A draw below 1 is a request for 0 bytes in the trace that is loaded. -/
theorem random_zero (hdraw : ∀ n x, 0 < x → 0 ≤ draw n x ∧ draw n x < x)
    {numBlocks maxBlkSize i : Nat} (hexact : 2 * numBlocks ≤ 2 ^ 52) (hi : i < numBlocks)
    (hlow : ¬1 ≤ rand draw i (maxBlkSize : K))
    {ops : List TraceOp}
    (hsaid : List.Forall₂ Says ((randomTrace numBlocks maxBlkSize draw).ops.map TraceOp.line) ops) :
    ∃ op ∈ ops, op.type = .alloc ∧ op.size = 0 := by
  obtain ⟨hnonneg, -, hone⟩ := drawnSize_bounds hdraw maxBlkSize i
  have hsize : drawnSize maxBlkSize draw i = 0 := by
    have hno := mt hone.mp hlow
    omega
  have hmem : GenOp.a i 0 ∈ insertFrees numBlocks maxBlkSize draw numBlocks := by
    obtain ⟨op, hop, halloc, rfl⟩ := random_alloc hdraw hexact maxBlkSize hi
    have hdrawn := drawn_insertFrees numBlocks maxBlkSize draw numBlocks op hop halloc
    rw [hsize] at hdrawn
    rwa [hdrawn] at hop
  have hline := List.mem_map_of_mem (f := TraceOp.line) (List.mem_map_of_mem (f := GenOp.op) hmem)
  obtain ⟨op, hop, hsays⟩ := exists_said_of_mem hsaid hline
  rw [line_op] at hsays
  exact ⟨op, hop, says_zero hsays⟩

/-- **The verdict on a random trace.** `eval_mm_valid` returns 1 for the file of `gen_random.pl`
exactly when no draw for a size is below 1 and all requests of the script are served. -/
theorem genRandom_verdict (hdraw : ∀ n x, 0 < x → 0 ≤ draw n x ∧ draw n x < x)
    {numBlocks maxBlkSize : Nat} (hn : 1 ≤ numBlocks) (hlen : 24 * numBlocks < 2 ^ 32)
    (hmax : maxBlkSize < 2 ^ 31) {d : Driver} (hd : ArenaFor maxBlkSize d.heap) (r : Reader) :
    ∃ trace r', (loadTrace (genRandom numBlocks maxBlkSize draw)).out r = some (.ok trace, r') ∧
      ((∃ d', (evalMmValid trace).out d = some (.ok (), d')) ↔
        (∀ i < numBlocks, 1 ≤ rand draw i (maxBlkSize : K)) ∧
          (served (randomTrace numBlocks maxBlkSize draw).ops).isSome) := by
  have hexact : 2 * numBlocks ≤ 2 ^ 52 := by omega
  obtain ⟨trace, r', hout, -, hsaid, hiff⟩ := random_said hdraw hn hlen hmax r
  refine ⟨trace, r', hout, ?_⟩
  by_cases hdraws : ∀ i < numBlocks, 1 ≤ rand draw i (maxBlkSize : K)
  · have hlegal : trace.Legal := hiff.mpr hdraws
    have hplain := plain_of_said ((random_sizes hdraw hexact hmax).mpr hdraws) hsaid
    have hplainly := plainly_of_plain hplain (random_plainly hdraw hexact maxBlkSize)
    have hnw : NoWrap ((evalMmValid trace).log d) := noWrap_of_stays
      (evalMmValid_always (room_of_le hd.room (Nat.zero_le _))
        (hd.roomy hlegal (fun op hop => (hplainly op hop).2)) d hd.within).1
    obtain ⟨verdict, d', hvalid, hok, -⟩ := (evalMmValid_follow hd.arena hlegal).out hnw
    rw [served_plain hplain] at hok
    constructor
    · rintro ⟨d1, h1⟩
      rw [h1] at hvalid
      cases hvalid
      exact ⟨hdraws, (hok.mp rfl).1⟩
    · rintro ⟨-, hserved⟩
      obtain rfl := hok.mpr ⟨hserved, fun op hop => (hplainly op hop).1⟩
      exact ⟨d', hvalid⟩
  · -- some size is 0, and that request is refused wherever it stands
    refine iff_of_false ?_ (fun h => hdraws h.1)
    rintro ⟨d', h⟩
    obtain ⟨i, hbelow⟩ := not_forall.mp hdraws
    obtain ⟨hi, hlow⟩ := Classical.not_imp.mp hbelow
    exact evalMmValid_zero (random_zero hdraw hexact hi hlow hsaid) d d' h

end Verdict

/-- The script as it stands, when the size 0 is drawn for every block. -/
theorem genRandom_verdict_sample : ∃ trace r',
    (loadTrace (genRandomScript (fun _ (_ : Rat) => 0))).out ⟨fun _ => ⟨.alloc, 7, 7⟩, 0, 0⟩
        = some (.ok trace, r') ∧
      ¬∃ d', (evalMmValid trace).out sampleDriver = some (.ok (), d') := by
  rw [genRandomScript]
  obtain ⟨trace, r', hout, hiff⟩ := @genRandom_verdict Rat _ _ _ (fun _ _ => 0) _
    (fun _ x hx => ⟨le_refl 0, hx⟩) 2400 32768 (by decide) (by decide) (by decide) sampleDriver
    ⟨sampleHeap_arena, by decide, Or.inl (by decide)⟩ ⟨fun _ => ⟨.alloc, 7, 7⟩, 0, 0⟩
  refine ⟨trace, r', hout, fun hok => ?_⟩
  have hone := (hiff.mp hok).1 0 (by decide)
  norm_num [rand] at hone

end MallocLab
