import MallocLab.Driver.Tables
import MallocLab.Traces.ReadTrace

set_option autoImplicit false

/-! # When `read_trace` is safe

What `read_trace` lets through is fit for the evaluators exactly when the file has no more lines
than there is room for, no `f` line has an id that is too large, and the tables have an entry for
every id (`readTrace_safe_iff`). An index that is below `num_ids` can be behind the tables, as their
sizes in bytes are products of 32 bits.
-/

namespace MallocLab

open Logged

/-! ## What is right -/

/-- A stored request as the evaluators use it. -/
def StoredOp.op (op : StoredOp) : TraceOp := ⟨op.type, op.index.toNat, op.size⟩

/-- The trace as the evaluators go through it. -/
def TraceRecord.trace (t : TraceRecord) : Trace :=
  ⟨t.numIds, (List.range t.numOps).map (fun i => (t.ops i).op)⟩

/-- An `int` that is an index of an array of `bytes` bytes, with entries of 4 bytes. -/
def InTable (bytes : Nat) (index : Int) : Prop := 0 ≤ index ∧ 4 * (index + 1) ≤ bytes

instance (bytes : Nat) (index : Int) : Decidable (InTable bytes index) :=
  inferInstanceAs (Decidable (_ ∧ _))

/-- No evaluator accesses `blocks[]` or `block_sizes[]` behind its end: whatever is there, it does
the same, and leaves it as it is. -/
structure AccessesInside (t : TraceRecord) : Prop where
  evalMmValid : ∀ tails tails',
    Respects (DriverAlike (t.blocksBytes / 4) (t.blockSizesBytes / 4) tails tails')
      (evalMmValid t.trace)
  evalMmUtil : ∀ tails tails',
    Respects (UtilAlike (t.blocksBytes / 4) (t.blockSizesBytes / 4) tails tails')
      (evalMmUtil t.trace)
  evalMmSpeed : ∀ tails tails',
    Respects (SpeedAlike (t.blocksBytes / 4) tails tails') (evalMmSpeed t.trace)

/-- `read_trace` is safe on a file: every store is at an index below `num_ops` and inside `ops`.
When it returns, every entry was stored, and the index of every request is below `num_ids` and
inside both tables, so that no evaluator accesses a table behind its end. -/
structure ReadSafe (numIds numOps : Nat) (lines : List TraceLine) (r : Reader) : Prop where
  inside : ∀ e ∈ (readTrace numIds numOps lines).log r,
    e.opIndex < numOps ∧ 12 * (e.opIndex + 1) ≤ opsBytes numOps
  filled : ∀ t r', (readTrace numIds numOps lines).out r = some (.ok t, r') →
    ∀ i, i < numOps → ⟨i⟩ ∈ (readTrace numIds numOps lines).log r
  indices : ∀ t r', (readTrace numIds numOps lines).out r = some (.ok t, r') →
    ∀ i, i < numOps → (t.ops i).index < numIds ∧
      InTable t.blocksBytes (t.ops i).index ∧ InTable t.blockSizesBytes (t.ops i).index
  accesses : ∀ t r', (readTrace numIds numOps lines).out r = some (.ok t, r') → AccessesInside t

/-- The file has no more lines than `ops` has room for. And when it has as many as its header says
and its ids reach up to `num_ids - 1`, the size of the tables is below 2^32 bytes, and the ids of
its `f` lines are below `num_ids`. -/
def Fits (numIds numOps : Nat) (lines : List TraceLine) : Prop :=
  12 * lines.length ≤ opsBytes numOps ∧
    (lines.length = numOps → maxId lines = numIds - 1 →
      4 * numIds < 2 ^ 32 ∧ ∀ l ∈ lines, l.type = 'f' → l.index < numIds)

instance (numIds numOps : Nat) (lines : List TraceLine) : Decidable (Fits numIds numOps lines) :=
  inferInstanceAs (Decidable (_ ∧ _))

/-! ## The tables -/

theorem opsBytes_le (numOps : Nat) : opsBytes numOps ≤ 12 * numOps := by
  rw [opsBytes, mul32, Nat.mul_comm numOps]
  exact Nat.mod_le _ _

/-- A table has its entries up to `num_ids`, or fewer. -/
theorem tableBytes_le (numIds : Nat) :
    tableBytes numIds ≤ 4 * numIds ∧ tableBytes numIds < 2 ^ 32 := by
  rw [tableBytes, mul32, Nat.mul_comm numIds]
  exact ⟨Nat.mod_le _ _, Nat.mod_lt _ (by decide)⟩

theorem accessesInside_of_inTable {t : TraceRecord}
    (hops : ∀ i, i < t.numOps → InTable t.blocksBytes (t.ops i).index ∧
      InTable t.blockSizesBytes (t.ops i).index) : AccessesInside t := by
  have hindex : ∀ op ∈ t.trace.ops,
      op.index < t.blocksBytes / 4 ∧ op.index < t.blockSizesBytes / 4 := by
    intro op hop
    obtain ⟨i, hi, rfl⟩ := List.mem_map.mp hop
    obtain ⟨⟨hpos, hb⟩, -, hs⟩ := hops i (List.mem_range.mp hi)
    show (t.ops i).index.toNat < _ ∧ (t.ops i).index.toNat < _
    omega
  exact ⟨fun _ _ => evalMmValid_inside hindex, fun _ _ => evalMmUtil_inside hindex,
    fun _ _ => evalMmSpeed_inside fun op hop => (hindex op hop).1⟩

/-- The largest id is that of a line, unless it is 0. -/
theorem exists_maxId {lines : List TraceLine} (hpos : 0 < maxId lines) :
    ∃ l ∈ lines, l.index = maxId lines := by
  induction lines with
  | nil => exact absurd hpos (Nat.lt_irrefl 0)
  | cons l lines ih =>
      rw [maxId_cons] at hpos ⊢
      rcases Nat.le_total (maxId lines) (maxId [l]) with hle | hle
      · refine ⟨l, List.mem_cons_self, ?_⟩
        rw [max_eq_left hle] at hpos ⊢
        unfold maxId at hpos ⊢
        by_cases hf : l.type = 'f'
        · rw [List.filter_cons_of_neg (by simpa using hf)] at hpos
          exact absurd hpos (Nat.lt_irrefl 0)
        · rw [List.filter_cons_of_pos (by simpa using hf)]
          exact (Nat.max_zero l.index).symm
      · rw [max_eq_right hle] at hpos ⊢
        obtain ⟨k, hk, hmax⟩ := ih hpos
        exact ⟨k, List.mem_cons_of_mem _ hk, hmax⟩

/-! ## Both directions -/

section Safe

variable {numIds numOps : Nat} {lines : List TraceLine}

/-- The places of the stores. -/
theorem readTrace_stores (hlines : ∀ l ∈ lines, l.Ok) (hlen : lines.length < 2 ^ 32) (r : Reader)
    (i : Nat) : ⟨i⟩ ∈ (readTrace numIds numOps lines).log r ↔ i < lines.length := by
  have hrun := (readLines_run hlines r.start (by show 0 + lines.length < 2 ^ 32; omega)).1 i
  rw [readTrace_log, hrun]
  show 0 ≤ i ∧ i < 0 + lines.length ↔ _
  omega

theorem fits_of_readSafe (h1 : 1 ≤ numIds) (hids : numIds < 2 ^ 31) (hlines : ∀ l ∈ lines, l.Ok)
    {r : Reader} (hsafe : ReadSafe numIds numOps lines r) : Fits numIds numOps lines := by
  have hroom : opsBytes numOps < 2 ^ 32 := Nat.mod_lt _ (by decide)
  -- otherwise there is a store at the first place without room
  have hlen : 12 * lines.length ≤ opsBytes numOps := by
    by_contra hmore
    have hbeyond : opsBytes numOps / 12 < r.start.opIndex + lines.length := by
      show _ < 0 + lines.length
      omega
    have hstore := readLines_outside hlines r.start (by omega) (Nat.zero_le _) hbeyond
    rw [← readTrace_log numIds numOps] at hstore
    have hinside := (hsafe.inside _ hstore).2
    show False
    replace hinside : 12 * (opsBytes numOps / 12 + 1) ≤ opsBytes numOps := hinside
    omega
  refine ⟨hlen, fun hfull hmax => ?_⟩
  obtain ⟨r', hout, hok, hstored⟩ := readTrace_run numIds numOps hlines (by omega) r
  rw [(hok (r'.record numIds numOps)).mpr ⟨hmax.trans (sub32_eq h1 (by omega)).symm, hfull, rfl⟩]
    at hout
  have hindex : ∀ l ∈ lines,
      (l.index : Int) < numIds ∧ 4 * ((l.index : Int) + 1) ≤ tableBytes numIds := by
    intro l hl
    obtain ⟨i, hi⟩ := List.mem_iff_getElem?.mp hl
    have hilt : i < lines.length := (List.getElem?_eq_some_iff.mp hi).1
    obtain ⟨hlt, ⟨hpos, htable⟩, -⟩ := hsafe.indices _ r' hout i (by omega)
    replace hlt : (r'.ops i).index < numIds := hlt
    replace hpos : 0 ≤ (r'.ops i).index := hpos
    replace htable : 4 * ((r'.ops i).index + 1) ≤ (tableBytes numIds : Int) := htable
    rw [hstored i l hi] at hlt hpos htable
    have hsmall := (toInt_lt_iff (hlines l hl).index hids).mp ⟨hpos, hlt⟩
    have hsame : toInt l.index = l.index := by
      rw [toInt, if_pos (by omega)]
    rw [hsame] at hlt htable
    exact ⟨hlt, htable⟩
  refine ⟨?_, fun l hl _ => by exact_mod_cast (hindex l hl).1⟩
  by_cases hone : numIds = 1
  · rw [hone]
    decide
  · obtain ⟨l, hl, hlast⟩ := exists_maxId (show 0 < maxId lines by omega)
    have htable := (hindex l hl).2
    have hbytes := (tableBytes_le numIds).2
    omega

theorem readSafe_of_fits (h1 : 1 ≤ numIds) (hids : numIds < 2 ^ 31) (hlines : ∀ l ∈ lines, l.Ok)
    (r : Reader) (hfits : Fits numIds numOps lines) : ReadSafe numIds numOps lines r := by
  obtain ⟨hlen, htables⟩ := hfits
  have hroom : opsBytes numOps < 2 ^ 32 := Nat.mod_lt _ (by decide)
  have hbytes := opsBytes_le numOps
  obtain ⟨r', hout, hok, hstored⟩ := readTrace_run numIds numOps hlines (by omega) r
  -- when it returns, both assertions hold
  have hret : ∀ t r'', (readTrace numIds numOps lines).out r = some (.ok t, r'') →
      maxId lines = numIds - 1 ∧ lines.length = numOps ∧ t = r'.record numIds numOps := by
    intro t r'' h
    rw [hout] at h
    rw [← sub32_eq h1 (by omega)]
    exact (hok t).mp (congrArg Prod.fst (Option.some.inj h))
  have hindices : ∀ t r'', (readTrace numIds numOps lines).out r = some (.ok t, r'') →
      ∀ i, i < numOps → (t.ops i).index < numIds ∧
        InTable t.blocksBytes (t.ops i).index ∧ InTable t.blockSizesBytes (t.ops i).index := by
    intro t r'' h i hi
    obtain ⟨hmax, hfull, rfl⟩ := hret t r'' h
    obtain ⟨hsmall, hfree⟩ := htables hfull hmax
    have hget : lines[i]? = some lines[i] := List.getElem?_eq_getElem (by omega)
    have hl : lines[i] ∈ lines := List.getElem_mem _
    have hbelow : lines[i].index < numIds := by
      by_cases hf : lines[i].type = 'f'
      · exact hfree _ hl hf
      · have hle := le_maxId hl hf
        omega
    have hindex : ((r'.record numIds numOps).ops i).index = lines[i].index := by
      calc (r'.ops i).index = toInt lines[i].index := hstored i _ hget
        _ = lines[i].index := by rw [toInt, if_pos (by omega)]
    have hin : InTable (tableBytes numIds) (lines[i].index : Int) := by
      rw [tableBytes, mul32_eq (by omega)]
      exact ⟨Int.natCast_nonneg _, by omega⟩
    rw [hindex]
    exact ⟨by exact_mod_cast hbelow, hin, hin⟩
  refine ⟨fun e he => ?_, fun t r'' h i hi => ?_, hindices, fun t r'' h => ?_⟩
  · have hbelow := (readTrace_stores hlines (by omega) r e.opIndex).mp he
    omega
  · obtain ⟨-, hfull, -⟩ := hret t r'' h
    exact (readTrace_stores hlines (by omega) r i).mpr (by omega)
  · obtain ⟨-, -, heq⟩ := hret t r'' h
    refine accessesInside_of_inTable fun i hi => (hindices t r'' h i ?_).2
    rw [heq] at hi
    exact hi

/-- **When `read_trace` is safe.** For every file of well-formed lines with a positive `num_ids`,
and whatever the array held before. -/
theorem readTrace_safe_iff (h1 : 1 ≤ numIds) (hids : numIds < 2 ^ 31)
    (hlines : ∀ l ∈ lines, l.Ok) (r : Reader) :
    ReadSafe numIds numOps lines r ↔ Fits numIds numOps lines :=
  ⟨fits_of_readSafe h1 hids hlines, readSafe_of_fits h1 hids hlines r⟩

end Safe

/-- A trace of two blocks is safe. -/
theorem readTrace_safe_iff_sample :
    ReadSafe 2 3 [⟨'a', 0, 512⟩, ⟨'a', 1, 128⟩, ⟨'f', 0, 0⟩] ⟨fun _ => ⟨.alloc, 0, 0⟩, 0, 0⟩ := by
  refine (readTrace_safe_iff (by decide) (by decide) (fun l hl => ?_) _).mpr (by decide)
  simp only [List.mem_cons, List.not_mem_nil, or_false] at hl
  rcases hl with rfl | rfl | rfl <;> exact ⟨by decide, by decide, by decide⟩

/-- One line too many is stored behind the array, the id 5 of an `f` line gets through, and the
tables of 2^30 ids have no room at all. -/
theorem readTrace_unsafe :
    ¬ReadSafe 1 1 [⟨'a', 0, 512⟩, ⟨'f', 0, 0⟩] ⟨fun _ => ⟨.alloc, 0, 0⟩, 0, 0⟩ ∧
      ¬ReadSafe 1 2 [⟨'a', 0, 512⟩, ⟨'f', 5, 0⟩] ⟨fun _ => ⟨.alloc, 0, 0⟩, 0, 0⟩ ∧
      ¬ReadSafe (2 ^ 30) 1 [⟨'a', 2 ^ 30 - 1, 8⟩] ⟨fun _ => ⟨.alloc, 0, 0⟩, 0, 0⟩ := by
  refine ⟨fun hsafe => ?_, fun hsafe => ?_, fun hsafe => ?_⟩
  · have hlog : (⟨1⟩ : StoreEvent) ∈ (readTrace 1 1 [⟨'a', 0, 512⟩, ⟨'f', 0, 0⟩]).log
        ⟨fun _ => ⟨.alloc, 0, 0⟩, 0, 0⟩ := by decide
    exact Nat.lt_irrefl 1 (hsafe.inside _ hlog).1
  · have hbad := hsafe.indices _ _ rfl 1 (by decide)
    exact absurd hbad.1 (by decide)
  · have hbad := hsafe.indices _ _ rfl 0 (by decide)
    exact absurd hbad.2.1 (by decide)

end MallocLab
