import MallocLab.Driver.Valid

set_option autoImplicit false

/-! # Reading a trace (`read_trace`)

`read_trace` gets room for `num_ops` requests and for the tables of `num_ids` blocks, and then
stores every request of the file, to its end; the number of requests and the largest id are
compared with the header only afterwards, and the ids of `f` lines are not among those the largest
is taken of. The sizes of the arrays are products of 32 bits, so that an array can be smaller than
its header says. That libc's `malloc` has no room for them is left out.
-/

namespace MallocLab

open Logged

/-! ## Trace files -/

/-- A request line of a trace file: the first character of its type, and what `%u` reads for its
id and its size. An `f` line has no size. -/
structure TraceLine where
  type : Char
  index : Nat
  size : Nat
  deriving DecidableEq, Repr

/-- Well formed: one of the three types, and `unsigned` numbers. -/
structure TraceLine.Ok (l : TraceLine) : Prop where
  type : l.type = 'a' ∨ l.type = 'r' ∨ l.type = 'f'
  index : l.index < 2 ^ 32
  size : l.size < 2 ^ 32

/-- A request as it is stored: a `traceop_t` has `int` fields. -/
structure StoredOp where
  type : OpType
  index : Int
  size : Int
  deriving DecidableEq, Repr

/-- Why `read_trace` does not return. -/
inductive ReadError where
  | bogusType (c : Char)
  /-- `assert(max_index == trace->num_ids - 1)` -/
  | maxIndex
  /-- `assert(trace->num_ops == op_index)` -/
  | numOps
  deriving DecidableEq, Repr

/-- What is printed for a bogus type; a failed assertion prints nothing on `stdout`. -/
def ReadError.text (path : String) : ReadError → String
  | .bogusType c => "Bogus type character (" ++ c.toString ++ ") in tracefile " ++ path ++ "\n"
  | .maxIndex | .numOps => ""

/-! ## The arrays -/

/-- `trace->num_ops * sizeof(traceop_t)` -/
def opsBytes (numOps : Nat) : Nat := mul32 numOps 12

/-- `trace->num_ids * sizeof(char *)`, and the same for `sizeof(size_t)` -/
def tableBytes (numIds : Nat) : Nat := mul32 numIds 4

/-- What `read_trace` returns (`trace_t`), with the sizes of the arrays. The tables hold anything at
first and are part of the state of the evaluators. -/
structure TraceRecord where
  numIds : Nat
  numOps : Nat
  ops : Nat → StoredOp
  opsBytes : Nat
  blocksBytes : Nat
  blockSizesBytes : Nat

/-! ## The function -/

/-- The array `ops`, and the variables `max_index` and `op_index`. -/
structure Reader where
  ops : Nat → StoredOp
  maxIndex : Nat
  opIndex : Nat

/-- A store into `ops[opIndex]`. -/
structure StoreEvent where
  opIndex : Nat
  deriving DecidableEq, Repr

def storeOp (f : StoredOp → StoredOp) : Logged Reader StoreEvent Unit := do
  emits (fun r => ⟨r.opIndex⟩)
  modifies (fun r => { r with ops := Function.update r.ops r.opIndex (f (r.ops r.opIndex)) })

def noteIndex (index : Nat) : Logged Reader StoreEvent Unit :=
  modifies (fun r => { r with maxIndex := if r.maxIndex < index then index else r.maxIndex })

def nextOp : Logged Reader StoreEvent (Except ReadError Unit) := do
  modifies (fun r => { r with opIndex := add32 r.opIndex 1 })
  return .ok ()

/-- The body of the loop of `read_trace`. The size of an `f` request keeps its old value. -/
def readLine (l : TraceLine) : Logged Reader StoreEvent (Except ReadError Unit) :=
  if l.type = 'a' then do
    storeOp (fun _ => ⟨.alloc, toInt l.index, toInt l.size⟩)
    noteIndex l.index
    nextOp
  else if l.type = 'r' then do
    storeOp (fun _ => ⟨.realloc, toInt l.index, toInt l.size⟩)
    noteIndex l.index
    nextOp
  else if l.type = 'f' then do
    storeOp (fun op => { op with type := .free, index := toInt l.index })
    nextOp
  else
    return .error (.bogusType l.type)

def readLines : List TraceLine → Logged Reader StoreEvent (Except ReadError Unit)
  | [] => return .ok ()
  | l :: ls => do
      match (← readLine l) with
      | .error e => return .error e
      | .ok () => readLines ls

/-- The trace with the requests that were stored. -/
def Reader.record (numIds numOps : Nat) (r : Reader) : TraceRecord :=
  { numIds := numIds
    numOps := numOps
    ops := r.ops
    opsBytes := opsBytes numOps
    blocksBytes := tableBytes numIds
    blockSizesBytes := tableBytes numIds }

/-- The two assertions at the end of `read_trace`, and the trace it returns. -/
def Reader.result (numIds numOps : Nat) (r : Reader) : Except ReadError TraceRecord :=
  if r.maxIndex ≠ sub32 numIds 1 then .error .maxIndex
  else if numOps ≠ r.opIndex then .error .numOps
  else .ok (r.record numIds numOps)

/-- `read_trace` of a file with the header fields `num_ids` and `num_ops`. The array `ops` holds
anything at first. -/
def readTrace (numIds numOps : Nat) (lines : List TraceLine) :
    Logged Reader StoreEvent (Except ReadError TraceRecord) := do
  modifies (fun r => { r with maxIndex := 0, opIndex := 0 })
  match (← readLines lines) with
  | .error e => return .error e
  | .ok () => reads (·.result numIds numOps)

/-! ## The loop -/

/-- The largest id of the `a` and `r` lines, and 0 if there are none. -/
def maxId (lines : List TraceLine) : Nat :=
  (lines.filter (·.type ≠ 'f')).foldr (fun l m => max l.index m) 0

/-- A request as it is stored over an old entry. -/
def TraceLine.stored (l : TraceLine) (op : StoredOp) : StoredOp :=
  if l.type = 'a' then ⟨.alloc, toInt l.index, toInt l.size⟩
  else if l.type = 'r' then ⟨.realloc, toInt l.index, toInt l.size⟩
  else { op with type := .free, index := toInt l.index }

theorem stored_index (l : TraceLine) (op : StoredOp) : (l.stored op).index = toInt l.index := by
  unfold TraceLine.stored
  split
  · rfl
  · split <;> rfl

/-- One line: it is stored at `op_index`. -/
theorem readLine_run {l : TraceLine} (hl : l.Ok) (r : Reader) :
    (readLine l).log r = [⟨r.opIndex⟩] ∧
      (readLine l).out r = some (.ok (), { r with
        ops := Function.update r.ops r.opIndex (l.stored (r.ops r.opIndex))
        maxIndex := max r.maxIndex (maxId [l])
        opIndex := add32 r.opIndex 1 }) := by
  obtain ⟨type, index, size⟩ := l
  have hraise : max r.maxIndex (max index 0) = if r.maxIndex < index then index else r.maxIndex := by
    split <;> omega
  have hkeep : max r.maxIndex 0 = r.maxIndex := Nat.max_zero _
  rcases hl.type with htype | htype | htype <;> simp only at htype <;> subst htype
  · show _ ∧ _ = some (Except.ok (), { r with
      ops := _, maxIndex := max r.maxIndex (max index 0), opIndex := _ })
    rw [hraise]
    exact ⟨rfl, rfl⟩
  · show _ ∧ _ = some (Except.ok (), { r with
      ops := _, maxIndex := max r.maxIndex (max index 0), opIndex := _ })
    rw [hraise]
    exact ⟨rfl, rfl⟩
  · show _ ∧ _ = some (Except.ok (), { r with
      ops := _, maxIndex := max r.maxIndex 0, opIndex := _ })
    rw [hkeep]
    exact ⟨rfl, rfl⟩

theorem maxId_cons (l : TraceLine) (ls : List TraceLine) :
    maxId (l :: ls) = max (maxId [l]) (maxId ls) := by
  unfold maxId
  by_cases hf : l.type = 'f'
  · rw [List.filter_cons_of_neg (by simpa using hf), List.filter_cons_of_neg (by simpa using hf)]
    simp
  · rw [List.filter_cons_of_pos (by simpa using hf), List.filter_cons_of_pos (by simpa using hf)]
    simp

theorem le_maxId {lines : List TraceLine} {l : TraceLine} (hl : l ∈ lines) (hf : l.type ≠ 'f') :
    l.index ≤ maxId lines := by
  induction lines with
  | nil => cases hl
  | cons k ls ih =>
      rw [maxId_cons]
      rcases List.mem_cons.mp hl with rfl | hl
      · have hone : maxId [l] = max l.index 0 := by
          unfold maxId
          rw [List.filter_cons_of_pos (by simpa using hf)]
          rfl
        omega
      · have hle := ih hl
        omega

/-- What the loop leaves, when `op_index` does not wrap around. -/
structure LinesRead (lines : List TraceLine) (r r' : Reader) : Prop where
  opIndex : r'.opIndex = r.opIndex + lines.length
  maxIndex : r'.maxIndex = max r.maxIndex (maxId lines)
  stored : ∀ i l, lines[i]? = some l → (r'.ops (r.opIndex + i)).index = toInt l.index
  before : ∀ i, i < r.opIndex → r'.ops i = r.ops i

theorem readLines_run {lines : List TraceLine} (hlines : ∀ l ∈ lines, l.Ok) (r : Reader)
    (hlt : r.opIndex + lines.length < 2 ^ 32) :
    (∀ i, ⟨i⟩ ∈ (readLines lines).log r ↔ r.opIndex ≤ i ∧ i < r.opIndex + lines.length) ∧
      ∃ r', (readLines lines).out r = some (.ok (), r') ∧ LinesRead lines r r' := by
  induction lines generalizing r with
  | nil =>
      refine ⟨fun i => ?_, r, rfl, rfl, (Nat.max_zero _).symm, fun i l hl => ?_, fun _ _ => rfl⟩
      swap
      · cases hl
      rw [readLines, log_pure, List.length_nil]
      constructor
      · intro he
        cases he
      · rintro ⟨h1, h2⟩
        omega
  | cons l ls ih =>
      rw [List.length_cons] at hlt ⊢
      obtain ⟨hlog, hout⟩ := readLine_run (hlines l List.mem_cons_self) r
      generalize hr1 : ({ r with
        ops := Function.update r.ops r.opIndex (l.stored (r.ops r.opIndex))
        maxIndex := max r.maxIndex (maxId [l])
        opIndex := add32 r.opIndex 1 } : Reader) = r₁ at hout
      have hnext : r₁.opIndex = r.opIndex + 1 := by
        rw [← hr1]
        exact add32_eq (by omega)
      have hmax : r₁.maxIndex = max r.maxIndex (maxId [l]) := by rw [← hr1]
      obtain ⟨hlogs, r', houts, hread⟩ :=
        ih (fun k hk => hlines k (List.mem_cons_of_mem _ hk)) r₁ (by omega)
      refine ⟨fun i => ?_, r', ?_, ?_, ?_, ?_, ?_⟩
      · rw [readLines, log_bind, hlog, hout]
        show _ ∈ [_] ++ (readLines ls).log r₁ ↔ _
        rw [List.mem_append, List.mem_singleton, hlogs, hnext, StoreEvent.mk.injEq]
        omega
      · rw [readLines, out_bind, hout]
        exact houts
      · rw [hread.opIndex, hnext, List.length_cons]
        omega
      · rw [hread.maxIndex, hmax, maxId_cons l ls]
        omega
      · intro i k hk
        -- entry 0 is this line, and the others are those of the rest
        cases i with
        | zero =>
            cases hk
            rw [Nat.add_zero, hread.before r.opIndex (by omega), ← hr1]
            show (Function.update r.ops r.opIndex (l.stored (r.ops r.opIndex)) r.opIndex).index = _
            rw [Function.update_self, stored_index]
        | succ i =>
            have hstored := hread.stored i k hk
            rw [hnext] at hstored
            rw [← hstored]
            exact congrArg (fun j => (r'.ops j).index) (by omega)
      · intro i hi
        rw [hread.before i (by omega), ← hr1]
        exact Function.update_of_ne (by omega) _ _

/-- With more lines than there is room for, the first line too many is stored as well. -/
theorem readLines_outside {numOps : Nat} {lines : List TraceLine} (hlines : ∀ l ∈ lines, l.Ok)
    (r : Reader) (hlt : numOps < 2 ^ 31) (hle : r.opIndex ≤ numOps)
    (hmore : numOps < r.opIndex + lines.length) : ⟨numOps⟩ ∈ (readLines lines).log r := by
  induction lines generalizing r with
  | nil =>
      rw [List.length_nil] at hmore
      omega
  | cons l ls ih =>
      obtain ⟨hlog, hout⟩ := readLine_run (hlines l List.mem_cons_self) r
      rw [readLines, log_bind, hlog, hout]
      by_cases hfull : r.opIndex = numOps
      · rw [hfull]
        exact List.mem_append_left _ List.mem_cons_self
      · have hnext : add32 r.opIndex 1 = r.opIndex + 1 := add32_eq (by omega)
        rw [List.length_cons] at hmore
        refine List.mem_append_right _ (ih (fun k hk => hlines k (List.mem_cons_of_mem _ hk)) _ ?_ ?_)
        · show add32 r.opIndex 1 ≤ numOps
          omega
        · show numOps < add32 r.opIndex 1 + ls.length
          omega

/-! ## The function as a whole -/

section Whole

variable {numIds numOps : Nat} {lines : List TraceLine}

/-- The state before the loop. -/
def Reader.start (r : Reader) : Reader := { r with maxIndex := 0, opIndex := 0 }

/-- All events of `read_trace` are those of its loop. -/
theorem readTrace_log (numIds numOps : Nat) (lines : List TraceLine) (r : Reader) :
    (readTrace numIds numOps lines).log r = (readLines lines).log r.start := by
  rw [readTrace, log_bind, log_modifies, out_modifies, List.nil_append]
  show (readLines lines >>= _).log r.start = _
  rw [log_bind]
  rcases (readLines lines).out r.start with _ | ⟨e | _, r'⟩ <;> exact List.append_nil _

/-- After the loop the assertions decide. -/
theorem readTrace_out {r r' : Reader} (hread : (readLines lines).out r.start = some (.ok (), r')) :
    (readTrace numIds numOps lines).out r = some (r'.result numIds numOps, r') := by
  rw [readTrace, out_bind, out_modifies]
  show (readLines lines >>= _).out r.start = _
  rw [out_bind, hread]
  rfl

theorem result_ok {r : Reader} {t : TraceRecord} :
    r.result numIds numOps = .ok t
      ↔ r.maxIndex = sub32 numIds 1 ∧ r.opIndex = numOps ∧ t = r.record numIds numOps := by
  unfold Reader.result
  by_cases hmax : r.maxIndex = sub32 numIds 1
  · rw [if_neg (not_not.mpr hmax)]
    by_cases hops : numOps = r.opIndex
    · rw [if_neg (not_not.mpr hops), Except.ok.injEq]
      exact ⟨fun h => ⟨hmax, hops.symm, h.symm⟩, fun h => h.2.2.symm⟩
    · rw [if_pos hops]
      constructor
      · intro h
        cases h
      · rintro ⟨-, h, -⟩
        exact absurd h.symm hops
  · rw [if_pos hmax]
    constructor
    · intro h
      cases h
    · rintro ⟨h, -⟩
      exact absurd h hmax

/-- An id is read back as it was when it fits into an `int`. -/
theorem toInt_lt_iff {n m : Nat} (hn : n < 2 ^ 32) (hm : m < 2 ^ 31) :
    0 ≤ toInt n ∧ toInt n < m ↔ n < m := by
  unfold toInt
  split <;> omega

/-- What `read_trace` returns, when `op_index` does not wrap around. -/
theorem readTrace_run (numIds numOps : Nat) (hlines : ∀ l ∈ lines, l.Ok)
    (hlen : lines.length < 2 ^ 32) (r : Reader) :
    ∃ r', (readTrace numIds numOps lines).out r = some (r'.result numIds numOps, r') ∧
      (∀ t, r'.result numIds numOps = .ok t ↔
        maxId lines = sub32 numIds 1 ∧ lines.length = numOps ∧ t = r'.record numIds numOps) ∧
      ∀ i l, lines[i]? = some l → (r'.ops i).index = toInt l.index := by
  obtain ⟨-, r', hout, hread⟩ := readLines_run hlines r.start
    (by show 0 + lines.length < 2 ^ 32; omega)
  refine ⟨r', readTrace_out hout, fun t => ?_, fun i l hl => ?_⟩
  · have hmax : r'.maxIndex = maxId lines := hread.maxIndex.trans (Nat.zero_max _)
    have hops : r'.opIndex = lines.length := hread.opIndex.trans (Nat.zero_add _)
    rw [result_ok, hmax, hops]
  · have hstored := hread.stored i l hl
    rwa [show r.start.opIndex + i = i from Nat.zero_add i] at hstored

/-- **When `read_trace` returns.** -/
theorem readTrace_returns_iff (numIds numOps : Nat) (hlines : ∀ l ∈ lines, l.Ok)
    (hlen : lines.length < 2 ^ 32) (r : Reader) :
    (∃ t r', (readTrace numIds numOps lines).out r = some (.ok t, r')) ↔
      maxId lines = sub32 numIds 1 ∧ lines.length = numOps := by
  obtain ⟨r', hout, hok, -⟩ := readTrace_run numIds numOps hlines hlen r
  constructor
  · rintro ⟨t, r'', h⟩
    rw [hout] at h
    obtain ⟨hmax, hops, -⟩ := (hok t).mp (congrArg Prod.fst (Option.some.inj h))
    exact ⟨hmax, hops⟩
  · rintro ⟨hmax, hops⟩
    exact ⟨r'.record numIds numOps, r', by rw [hout, (hok _).mpr ⟨hmax, hops, rfl⟩]⟩

end Whole

end MallocLab
