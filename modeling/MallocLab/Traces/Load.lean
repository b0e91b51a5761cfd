import MallocLab.Traces.Balance
import MallocLab.Traces.ReadSafe

set_option autoImplicit false

/-! # From a trace file to a trace

`checktrace.pl` tells ids apart as strings, `read_trace` as numbers, and the evaluators use them
as positions in their tables. For files whose ids are written as numbers are printed, the three
views agree: `read_trace` makes a legal trace of a file exactly when its header fits, its sizes
are positive `int`s and `checktrace.pl` accepts it (`loadTrace_legal_iff`), and the requests of
the trace are those that the lines say.
-/

namespace MallocLab

open Logged Past Text

/-! ## The trace that is returned -/

/-- There is room for the requests, and their ids are positions in the tables. -/
def TraceRecord.Indexed (t : TraceRecord) : Prop :=
  12 * t.numOps ≤ t.opsBytes ∧ ∀ i, i < t.numOps →
    InTable t.blocksBytes (t.ops i).index ∧ InTable t.blockSizesBytes (t.ops i).index

instance (t : TraceRecord) : Decidable t.Indexed := inferInstanceAs (Decidable (_ ∧ _))

/-- `return trace`, for the evaluators. -/
def returnTrace (t : TraceRecord) : Logged Reader StoreEvent (Except ReadError Trace) :=
  if t.Indexed then return .ok t.trace else never

/-- `read_trace`, with the trace that the evaluators are given. -/
def loadTrace (file : List String) : Logged Reader StoreEvent (Except ReadError Trace) := do
  match (← readTraceFile file) with
  | .error e => return .error e
  | .ok t => returnTrace t

/-! ## What a file says -/

/-- The id of the line is written as the number is printed. -/
def Canonical (line : String) : Prop :=
  ∀ cmd id rest, words line = cmd :: id :: rest → toString (number id) = id

/-- The size of the line, if it has one, is a positive `int`. -/
def Sized (line : String) : Prop :=
  ∀ cmd id size, words line = [cmd, id, size] → 1 ≤ number size ∧ number size < 2 ^ 31

/-- The header is the one that the assertions of `read_trace` compare, and the tables have an entry
for every id. -/
structure HeaderFits (file : List String) : Prop where
  numIds : maxId ((requests (file.drop 4)).map TraceLine.read) + 1 = number (file.getD 1 "")
  numOps : (requests (file.drop 4)).length = number (file.getD 2 "")
  tables : 4 * number (file.getD 1 "") < 2 ^ 32

/-- The line says the request; the size of a free is not in the line. -/
def Says (line : String) (op : TraceOp) : Prop :=
  match op.type with
  | .alloc => ∃ size, words line = ["a", toString op.index, size] ∧ op.size = toInt (number size)
  | .realloc => ∃ size, words line = ["r", toString op.index, size] ∧ op.size = toInt (number size)
  | .free => words line = ["f", toString op.index]

/-! ## The array -/

/-- Every line is stored at its place. -/
theorem readLines_stored {lines : List TraceLine} (hlines : ∀ l ∈ lines, l.Ok) {r r' : Reader}
    (hlt : r.opIndex + lines.length < 2 ^ 32)
    (hout : (readLines lines).out r = some (.ok (), r')) :
    ∀ i l, lines[i]? = some l → ∃ old, r'.ops (r.opIndex + i) = l.stored old := by
  induction lines generalizing r with
  | nil =>
      intro i l hl
      simp at hl
  | cons k ls ih =>
      rw [List.length_cons] at hlt
      have hls : ∀ l ∈ ls, l.Ok := fun l hl => hlines l (List.mem_cons_of_mem _ hl)
      have hrun := (readLine_run (hlines k List.mem_cons_self) r).2
      generalize hr1 : ({ r with
        ops := Function.update r.ops r.opIndex (k.stored (r.ops r.opIndex))
        maxIndex := max r.maxIndex (maxId [k])
        opIndex := add32 r.opIndex 1 } : Reader) = r1 at hrun
      have hindex : r1.opIndex = r.opIndex + 1 := by
        rw [← hr1]
        exact add32_eq (by omega)
      rw [readLines, out_bind, hrun] at hout
      have hrest : (readLines ls).out r1 = some (.ok (), r') := hout
      obtain ⟨-, r2, hout2, hread⟩ := readLines_run hls r1 (by omega)
      obtain rfl : r2 = r' := by
        rw [hrest] at hout2
        exact (congrArg Prod.snd (Option.some.inj hout2)).symm
      intro i l hl
      cases i with
      | zero =>
          obtain rfl : k = l := by simpa using hl
          refine ⟨r.ops r.opIndex, ?_⟩
          rw [Nat.add_zero, hread.before r.opIndex (by omega), ← hr1]
          exact Function.update_self _ _ _
      | succ i =>
          obtain ⟨old, hold⟩ := ih hls (by omega) hrest i l (by simpa using hl)
          rw [hindex] at hold
          exact ⟨old, by rw [← hold, Nat.add_right_comm, Nat.add_assoc]⟩

/-- An id that is not negative as an `int` is the number that was read. -/
theorem toInt_nonneg {n : Nat} (hn : n < 2 ^ 32) (hpos : 0 ≤ toInt n) :
    n < 2 ^ 31 ∧ (toInt n).toNat = n := by
  unfold toInt at hpos ⊢
  split at hpos
  · simp_all
  · omega

/-- **One request**: what is stored for a line is what the line says. -/
theorem says_stored {line : String} (hline : IsRequest line) (hnum : Numeric line)
    (hcanon : Canonical line) {op old : StoredOp} (hop : op = (TraceLine.read line).stored old)
    (hpos : 0 ≤ op.index) : Says line op.op := by
  have ha : "a".front = 'a' := by decide
  have hr : "r".front = 'r' := by decide
  have hf : "f".front = 'f' := by decide
  rw [hop, stored_index] at hpos
  have hindex := (toInt_nonneg (read_ok hline hnum).index hpos).2
  obtain ⟨id, size, hw | hw | hw⟩ := hline
  · have hread : TraceLine.read line = ⟨'a', number id, number size⟩ := by
      rw [read_eq hw, ha]
      rfl
    rw [hread] at hindex hop
    subst hop
    refine ⟨size, ?_, rfl⟩
    show words line = ["a", toString (toInt (number id)).toNat, size]
    rw [hindex, hcanon _ _ _ hw, hw]
  · have hread : TraceLine.read line = ⟨'r', number id, number size⟩ := by
      rw [read_eq hw, hr]
      rfl
    rw [hread] at hindex hop
    subst hop
    refine ⟨size, ?_, rfl⟩
    show words line = ["r", toString (toInt (number id)).toNat, size]
    rw [hindex, hcanon _ _ _ hw, hw]
  · have hread : TraceLine.read line = ⟨'f', number id, number ""⟩ := by
      rw [read_eq hw, hf]
      rfl
    rw [hread] at hindex hop
    subst hop
    show words line = ["f", toString (toInt (number id)).toNat]
    rw [hindex, hcanon _ _ _ hw, hw]

section File

variable {file : List String}

/-- A header line that is compared with a small number. -/
theorem headerValue_eq_iff {line : String} {n : Nat} (hn : n < 2 ^ 31 - 1) :
    headerValue line = n ↔ number line = n := by
  rw [headerValue, Scan.clampInt, toSize]
  omega

/-- What `read_trace` leaves in the array, when it comes to its assertions. -/
theorem readTraceFile_run (hfile : InFormat file) (hids : 1 ≤ number (file.getD 1 ""))
    (hids' : number (file.getD 1 "") < 2 ^ 31)
    (hlen : 12 * (requests (file.drop 4)).length < 2 ^ 32) (r : Reader) :
    ∃ result r', (readTraceFile file).out r = some (result, r') ∧
      (∀ t, result = .ok t ↔
        maxId ((requests (file.drop 4)).map TraceLine.read) + 1 = number (file.getD 1 "") ∧
          (requests (file.drop 4)).length = number (file.getD 2 "") ∧
          t = r'.record (number (file.getD 1 "")) (number (file.getD 2 ""))) ∧
      ∀ i line, (requests (file.drop 4))[i]? = some line →
        ∃ old, r'.ops i = (TraceLine.read line).stored old := by
  have hok := hfile.lines_ok
  have hlt : r.start.opIndex + ((requests (file.drop 4)).map TraceLine.read).length < 2 ^ 32 := by
    rw [List.length_map]
    show 0 + _ < _
    omega
  obtain ⟨-, r', hout, hread⟩ := readLines_run hok r.start hlt
  have hmax : r'.maxIndex = maxId ((requests (file.drop 4)).map TraceLine.read) :=
    hread.maxIndex.trans (Nat.zero_max _)
  have hops : r'.opIndex = (requests (file.drop 4)).length := by
    rw [hread.opIndex, List.length_map]
    exact Nat.zero_add _
  refine ⟨r'.result (headerValue (file.getD 1 "")) (headerValue (file.getD 2 "")), r', ?_,
    fun t => ?_, fun i line hline => ?_⟩
  · rw [readTraceFile_eq hfile]
    exact readTrace_out hout
  · rw [result_ok, hmax, hops, headerValue_eq hids', sub32_eq hids (by omega),
      eq_comm (b := headerValue _), headerValue_eq_iff (by omega)]
    constructor
    · rintro ⟨hm, ho, rfl⟩
      exact ⟨by omega, ho.symm, by rw [(headerValue_eq_iff (by omega)).mpr rfl]⟩
    · rintro ⟨hm, ho, rfl⟩
      exact ⟨by omega, ho.symm, by rw [(headerValue_eq_iff (by omega)).mpr rfl]⟩
  · have hl : ((requests (file.drop 4)).map TraceLine.read)[i]? = some (TraceLine.read line) := by
      rw [List.getElem?_map, hline]
      rfl
    obtain ⟨old, hold⟩ := readLines_stored hok hlt hout i _ hl
    refine ⟨old, ?_⟩
    rw [← hold]
    exact congrArg r'.ops (Nat.zero_add i).symm

section Record

variable {numIds : Nat} {r : Reader}

/-- The ids of the lines are positions in the tables. -/
theorem inTable_of_indexed
    (hstored : ∀ i line, (requests (file.drop 4))[i]? = some line →
      ∃ old, r.ops i = (TraceLine.read line).stored old)
    (hindexed : (r.record numIds (requests (file.drop 4)).length).Indexed) :
    ∀ line ∈ requests (file.drop 4),
      InTable (tableBytes numIds) (toInt (TraceLine.read line).index) := by
  intro line hline
  obtain ⟨i, hi⟩ := List.mem_iff_getElem?.mp hline
  obtain ⟨old, hold⟩ := hstored i line hi
  rw [← stored_index _ old, ← hold]
  exact (hindexed.2 i (List.getElem?_eq_some_iff.mp hi).1).1

/-- The tables have an entry for every id when the largest one has its entry. -/
theorem tables_of_inTable (hfile : InFormat file)
    (hmax : maxId ((requests (file.drop 4)).map TraceLine.read) + 1 = numIds)
    (hin : ∀ line ∈ requests (file.drop 4),
      InTable (tableBytes numIds) (toInt (TraceLine.read line).index)) : 4 * numIds < 2 ^ 32 := by
  by_cases hone : numIds = 1
  · omega
  · have hpos : 0 < maxId ((requests (file.drop 4)).map TraceLine.read) := by omega
    obtain ⟨l, hl, hlast⟩ := exists_maxId hpos
    have hbytes := (tableBytes_le numIds).2
    have hlt := (hfile.lines_ok l hl).index
    obtain ⟨line, hline, rfl⟩ := List.mem_map.mp hl
    obtain ⟨hpos, htable⟩ := hin line hline
    have hindex := (toInt_nonneg hlt hpos).2
    omega

/-- The trace for the evaluators says what the lines say. -/
theorem says_trace (hfile : InFormat file) (hcanon : ∀ line ∈ file.drop 4, Canonical line)
    (hstored : ∀ i line, (requests (file.drop 4))[i]? = some line →
      ∃ old, r.ops i = (TraceLine.read line).stored old)
    (hindexed : (r.record numIds (requests (file.drop 4)).length).Indexed) :
    List.Forall₂ Says (requests (file.drop 4))
      (r.record numIds (requests (file.drop 4)).length).trace.ops := by
  refine List.forall₂_iff_get.mpr ⟨?_, fun i hi hi' => ?_⟩
  · rw [TraceRecord.trace, List.length_map, List.length_range]
    rfl
  · have hline := List.getElem_mem hi
    obtain ⟨hrequest, hnum⟩ := hfile.kept _ hline
    obtain ⟨old, hold⟩ := hstored i _ (List.getElem?_eq_getElem hi)
    rw [List.get_eq_getElem, List.get_eq_getElem]
    simp only [TraceRecord.trace, List.getElem_map, List.getElem_range]
    exact says_stored hrequest hnum (hcanon _ (List.mem_filter.mp hline).1) hold
      (hindexed.2 i hi).1.1

end Record

theorem returnTrace_out (t : TraceRecord) (r : Reader) :
    (returnTrace t).out r = if t.Indexed then some (.ok t.trace, r) else none := by
  unfold returnTrace
  split <;> rfl

/-- What a trace that was loaded says. -/
theorem loadTrace_ok (hfile : InFormat file) (hcanon : ∀ line ∈ file.drop 4, Canonical line)
    (hids : 1 ≤ number (file.getD 1 "")) (hids' : number (file.getD 1 "") < 2 ^ 31)
    (hlen : 12 * (requests (file.drop 4)).length < 2 ^ 32) {r r' : Reader} {trace : Trace}
    (hload : (loadTrace file).out r = some (.ok trace, r')) :
    HeaderFits file ∧ trace.numIds = number (file.getD 1 "") ∧
      List.Forall₂ Says (requests (file.drop 4)) trace.ops := by
  obtain ⟨result, r₁, hout, hresult, hstored⟩ := readTraceFile_run hfile hids hids' hlen r
  rw [loadTrace, out_bind, hout] at hload
  rcases result with e | t
  · cases hload
  · obtain ⟨hmax, hops, rfl⟩ := (hresult t).mp rfl
    rw [← hops] at hload
    replace hload : (returnTrace _).out r₁ = some (.ok trace, r') := hload
    rw [returnTrace_out] at hload
    by_cases hindexed :
        (r₁.record (number (file.getD 1 "")) (requests (file.drop 4)).length).Indexed
    · rw [if_pos hindexed] at hload
      cases hload
      have hin := inTable_of_indexed hstored hindexed
      exact ⟨⟨hmax, hops, tables_of_inTable hfile hmax hin⟩, rfl,
        says_trace hfile hcanon hstored hindexed⟩
    · rw [if_neg hindexed] at hload
      cases hload

/-- A file with a right header and ids that are positions is loaded. -/
theorem loadTrace_isSome (hfile : InFormat file) (hids : 1 ≤ number (file.getD 1 ""))
    (hlen : 12 * (requests (file.drop 4)).length < 2 ^ 32) (hfit : HeaderFits file)
    (hsmall : ∀ line ∈ requests (file.drop 4),
      (TraceLine.read line).index < number (file.getD 1 ""))
    (r : Reader) : ∃ trace r', (loadTrace file).out r = some (.ok trace, r') := by
  have htables := hfit.tables
  obtain ⟨result, r₁, hout, hresult, hstored⟩ :=
    readTraceFile_run hfile hids (by omega) hlen r
  obtain rfl := (hresult _).mpr ⟨hfit.numIds, hfit.numOps, rfl⟩
  have hindexed : (r₁.record (number (file.getD 1 "")) (number (file.getD 2 ""))).Indexed := by
    have hnumOps := hfit.numOps
    refine ⟨?_, fun i hi => ?_⟩
    · show 12 * number (file.getD 2 "") ≤ opsBytes (number (file.getD 2 ""))
      rw [opsBytes, mul32_eq (by omega), Nat.mul_comm]
    · replace hi : i < (requests (file.drop 4)).length := by
        rw [hnumOps]
        exact hi
      obtain ⟨old, hold⟩ := hstored i _ (List.getElem?_eq_getElem hi)
      have hlt := hsmall _ (List.getElem_mem hi)
      have hin : InTable (tableBytes (number (file.getD 1 ""))) (r₁.ops i).index := by
        rw [hold, stored_index, toInt, if_pos (by omega), tableBytes, mul32_eq (by omega)]
        exact ⟨Int.natCast_nonneg _, by omega⟩
      exact ⟨hin, hin⟩
  have hload : (loadTrace file).out r
      = (returnTrace (r₁.record (number (file.getD 1 "")) (number (file.getD 2 "")))).out r₁ := by
    rw [loadTrace, out_bind, hout]
    rfl
  rw [hload, returnTrace_out, if_pos hindexed]
  exact ⟨_, r₁, rfl⟩

end File

/-! ## Legal traces and consistent files -/

theorem toInt_size {n : Nat} (hn : n < 2 ^ 32) :
    (1 ≤ toInt n ∧ toInt n < 2 ^ 31) ↔ (1 ≤ n ∧ n < 2 ^ 31) := by
  unfold toInt
  split <;> omega

section Says

variable {numIds : Nat} {ids : List Nat} {done : List String} {line : String} {op : TraceOp}

theorem Says.index (hsaid : Says line op) : (TraceLine.read line).index = op.index := by
  unfold Says at hsaid
  rcases htype : op.type with _ | _ | _
  · rw [htype] at hsaid
    obtain ⟨size, hw, -⟩ := hsaid
    rw [read_eq hw]
    exact number_toString _
  · rw [htype] at hsaid
    rw [read_eq hsaid]
    exact number_toString _
  · rw [htype] at hsaid
    obtain ⟨size, hw, -⟩ := hsaid
    rw [read_eq hw]
    exact number_toString _

/-- A request that is said is legal when its line fits, its size is right and its id is small
enough. -/
theorem Says.legal_iff (hsaid : Says line op) (hnum : Numeric line)
    (hids : ∀ j, j ∈ ids ↔ Allocated done (toString j)) :
    op.Legal numIds ids ↔ op.index < numIds ∧ ¬Misused done line ∧ Sized line := by
  unfold Says at hsaid
  refine and_congr_right' ?_
  rcases htype : op.type with _ | _ | _
  · rw [htype] at hsaid
    obtain ⟨size, hw, hsize⟩ := hsaid
    have hlt : number size < 2 ^ 32 := (hnum size (by simp [hw])).2
    have hsized : Sized line ↔ 1 ≤ op.size ∧ op.size < 2 ^ 31 := by
      rw [hsize, toInt_size hlt, Sized, hw]
      exact ⟨fun h => h _ _ _ rfl, fun h c i s hcis => by cases hcis; exact h⟩
    rw [misused_iff hw, hsized, hids op.index]
    simp only [true_and, show ("a" = "r") = False by decide, show ("a" = "f") = False by decide,
      false_and, or_false, false_or]
    exact and_comm
  · rw [htype] at hsaid
    have hsized : Sized line := by
      intro c i s hcis
      rw [show words line = _ from hsaid] at hcis
      cases hcis
    rw [misused_iff hsaid, hids op.index]
    simp only [true_and, show ("f" = "r") = False by decide, show ("f" = "a") = False by decide,
      false_and, false_or, not_not, hsized, and_true]
  · rw [htype] at hsaid
    obtain ⟨size, hw, hsize⟩ := hsaid
    have hlt : number size < 2 ^ 32 := (hnum size (by simp [hw])).2
    have hsized : Sized line ↔ 1 ≤ op.size ∧ op.size < 2 ^ 31 := by
      rw [hsize, toInt_size hlt, Sized, hw]
      exact ⟨fun h => h _ _ _ rfl, fun h c i s hcis => by cases hcis; exact h⟩
    rw [misused_iff hw, hsized, hids op.index]
    simp only [true_and, show ("r" = "a") = False by decide, show ("r" = "f") = False by decide,
      false_and, or_false, not_not]
    exact and_comm

/-- The ids that are allocated after a request are those after its line. -/
theorem Says.allocated (hsaid : Says line op)
    (hids : ∀ j, j ∈ ids ↔ Allocated done (toString j)) (j : Nat) :
    j ∈ op.after ids ↔ Allocated (done ++ [line]) (toString j) := by
  unfold Says at hsaid
  unfold TraceOp.after
  rcases htype : op.type with _ | _ | _
  · rw [htype] at hsaid
    obtain ⟨size, hw, -⟩ := hsaid
    rw [allocated_concat hw, ← hids j, toString_inj]
    simp
  · rw [htype] at hsaid
    rw [allocated_concat hsaid, ← hids j, toString_inj]
    simp
  · rw [htype] at hsaid
    obtain ⟨size, hw, -⟩ := hsaid
    rw [allocated_concat hw, ← hids j]
    simp

end Says

/-- Nothing is allocated at the start. -/
theorem allocated_nil (j : Nat) : j ∈ ([] : List Nat) ↔ Allocated [] (toString j) := by
  rw [Allocated]
  simp

/-- **Legal and consistent.** Requests are legal when their lines are consistent, their sizes
right and their ids small enough. -/
theorem legalFrom_iff {numIds : Nat} {ids : List Nat} {done lines : List String}
    {ops : List TraceOp} (hsaid : List.Forall₂ Says lines ops)
    (hnum : ∀ line ∈ lines, Numeric line)
    (hids : ∀ j, j ∈ ids ↔ Allocated done (toString j)) (hdone : Consistent done) :
    LegalFrom numIds ids ops ↔ (∀ op ∈ ops, op.index < numIds) ∧ Consistent (done ++ lines) ∧
      ∀ line ∈ lines, Sized line := by
  induction hsaid generalizing ids done with
  | nil => simp [LegalFrom, hdone]
  | @cons line op lines ops hline hrest ih =>
      have hnum' : ∀ l ∈ lines, Numeric l := fun l hl => hnum l (List.mem_cons_of_mem _ hl)
      have happend : done ++ line :: lines = done ++ [line] ++ lines := by simp
      rw [LegalFrom, hline.legal_iff (hnum line List.mem_cons_self) hids, happend,
        List.forall_mem_cons, List.forall_mem_cons]
      by_cases hfit : Misused done line
      · have hbad : ¬Consistent (done ++ [line] ++ lines) := by
          intro hcons
          exact hcons done line lines (by simp) hfit
        constructor
        · rintro ⟨⟨-, hno, -⟩, -⟩
          exact absurd hfit hno
        · rintro ⟨-, hcons, -⟩
          exact absurd hcons hbad
      · have hnext : Consistent (done ++ [line]) := consistent_concat.mpr ⟨hdone, hfit⟩
        rw [ih hnum' (fun j => hline.allocated hids j) hnext]
        tauto

/-- Every request is said by a line. -/
theorem exists_line_of_mem {lines : List String} {ops : List TraceOp}
    (hsaid : List.Forall₂ Says lines ops) {op : TraceOp} (hop : op ∈ ops) :
    ∃ line ∈ lines, Says line op := by
  induction hsaid with
  | nil => cases hop
  | cons hline _ ih =>
      rcases List.mem_cons.mp hop with rfl | hop
      · exact ⟨_, List.mem_cons_self, hline⟩
      · obtain ⟨line, hmem, hline⟩ := ih hop
        exact ⟨line, List.mem_cons_of_mem _ hmem, hline⟩

/-- In a consistent file the ids of the `f` lines were allocated, so no id is above the largest. -/
theorem index_le_maxId {lines : List String} (hlines : ∀ line ∈ lines, IsRequest line)
    (hcons : Consistent lines) :
    ∀ line ∈ lines, (TraceLine.read line).index ≤ maxId (lines.map TraceLine.read) := by
  have ha : "a".front ≠ 'f' := by decide
  have hr : "r".front ≠ 'f' := by decide
  -- an id that is allocated was read from an `a` line
  have halloc : ∀ pre id, (∀ l ∈ pre, l ∈ lines) → Allocated pre id →
      number id ≤ maxId (lines.map TraceLine.read) := by
    intro pre id hsub hid
    obtain ⟨k, hk, hreq⟩ := Since.exists_mem hid
    have hmem := List.mem_map_of_mem (f := TraceLine.read) (hsub k hk)
    obtain ⟨i, size, hw | hw | hw⟩ := hlines k (hsub k hk)
    · obtain ⟨-, rfl⟩ := (requests_iff hw _ _).mp hreq
      rw [read_eq hw] at hmem
      exact le_maxId hmem ha
    · exact absurd ((requests_iff hw _ _).mp hreq).1 (by decide)
    · exact absurd ((requests_iff hw _ _).mp hreq).1 (by decide)
  intro line hline
  have hmem := List.mem_map_of_mem (f := TraceLine.read) hline
  obtain ⟨id, size, hw | hw | hw⟩ := hlines line hline
  · rw [read_eq hw] at hmem ⊢
    exact le_maxId hmem ha
  · rw [read_eq hw] at hmem ⊢
    exact le_maxId hmem hr
  · obtain ⟨pre, post, hsplit⟩ := List.append_of_mem hline
    have hfit : ¬Misused pre line := hcons pre line post hsplit
    rw [misused_iff hw] at hfit
    have hid : Allocated pre id := by simpa using hfit
    rw [read_eq hw]
    apply halloc pre id _ hid
    intro l hl
    rw [hsplit]
    exact List.mem_append_left _ hl

/-- A blank line has no size. -/
theorem sized_requests (lines : List String) :
    (∀ line ∈ requests lines, Sized line) ↔ ∀ line ∈ lines, Sized line := by
  refine ⟨fun h line hline => ?_, fun h line hline => h line (List.mem_filter.mp hline).1⟩
  by_cases hblank : Blank line
  · intro cmd id size hw
    rw [show words line = [] from hblank] at hw
    cases hw
  · exact h line (List.mem_filter.mpr ⟨hline, decide_eq_true hblank⟩)

/-- What `checktrace.pl` accepts, by the requests. -/
theorem checktrace_accepts_iff (summary : Bool) (h1 h2 h3 h4 : String) {lines : List String}
    (hlines : ∀ line ∈ lines, IsRequest line ∨ Blank line) :
    (∃ out, checktrace summary (h1 :: h2 :: h3 :: h4 :: lines) = .ok out)
      ↔ Consistent (requests lines) := by
  rw [(requests_same lines).1, ← not_iff_not, ← checktrace_error_iff summary h1 h2 h3 h4 hlines]
  cases checktrace summary (h1 :: h2 :: h3 :: h4 :: lines) <;> simp

/-- **From a file to a trace.** `read_trace` makes a legal trace of a file exactly when the header
fits, the sizes are positive `int`s and `checktrace.pl` accepts the file; and a trace that it
makes says what the lines say. -/
theorem loadTrace_legal_iff (summary : Bool) {h1 h2 h3 h4 : String} {lines : List String}
    (hheader : ∀ h ∈ [h1, h2, h3, h4], IsNumber h)
    (hlines : ∀ line ∈ lines, IsRequest line ∨ Blank line) (hnum : ∀ line ∈ lines, Numeric line)
    (hcanon : ∀ line ∈ lines, Canonical line) (hids : 1 ≤ number h2) (hids' : number h2 < 2 ^ 31)
    (hlen : 12 * (requests lines).length < 2 ^ 32) (r : Reader) :
    ((∃ trace r', (loadTrace (h1 :: h2 :: h3 :: h4 :: lines)).out r = some (.ok trace, r') ∧
        trace.Legal) ↔
      HeaderFits (h1 :: h2 :: h3 :: h4 :: lines) ∧ (∀ line ∈ lines, Sized line) ∧
        ∃ out, checktrace summary (h1 :: h2 :: h3 :: h4 :: lines) = .ok out) ∧
    ∀ trace r', (loadTrace (h1 :: h2 :: h3 :: h4 :: lines)).out r = some (.ok trace, r') →
      trace.numIds = number h2 ∧ List.Forall₂ Says (requests lines) trace.ops := by
  have hfile : InFormat (h1 :: h2 :: h3 :: h4 :: lines) := inFormat_of hheader hlines hnum
  have hload : ∀ trace r', (loadTrace (h1 :: h2 :: h3 :: h4 :: lines)).out r
      = some (.ok trace, r') → HeaderFits (h1 :: h2 :: h3 :: h4 :: lines) ∧
        trace.numIds = number h2 ∧ List.Forall₂ Says (requests lines) trace.ops :=
    fun _ _ hout => loadTrace_ok hfile hcanon hids hids' hlen hout
  -- the requests of the file
  have hkept : ∀ line ∈ requests lines, IsRequest line ∧ Numeric line := hfile.kept
  have hlegal : ∀ trace : Trace, List.Forall₂ Says (requests lines) trace.ops →
      (trace.Legal ↔ (∀ op ∈ trace.ops, op.index < trace.numIds) ∧ Consistent (requests lines) ∧
        ∀ line ∈ lines, Sized line) := by
    intro trace hsaid
    rw [Trace.Legal, legalFrom_iff hsaid (fun line hline => (hkept line hline).2)
      allocated_nil atEach_nil, List.nil_append, sized_requests]
  refine ⟨?_, fun trace r' hout => (hload trace r' hout).2⟩
  rw [checktrace_accepts_iff summary h1 h2 h3 h4 hlines]
  constructor
  · rintro ⟨trace, r', hout, hleg⟩
    obtain ⟨hfit, -, hsaid⟩ := hload trace r' hout
    obtain ⟨-, hcons, hsizes⟩ := (hlegal trace hsaid).mp hleg
    exact ⟨hfit, hsizes, hcons⟩
  · rintro ⟨hfit, hsizes, hcons⟩
    have hindex : ∀ line ∈ requests lines, (TraceLine.read line).index < number h2 := by
      intro line hline
      have hle := index_le_maxId (fun l hl => (hkept l hl).1) hcons line hline
      have hmax : maxId ((requests lines).map TraceLine.read) + 1 = number h2 := hfit.numIds
      omega
    obtain ⟨trace, r', hout⟩ := loadTrace_isSome hfile hids hlen hfit hindex r
    obtain ⟨-, hnumIds, hsaid⟩ := hload trace r' hout
    refine ⟨trace, r', hout, (hlegal trace hsaid).mpr ⟨fun op hop => ?_, hcons, hsizes⟩⟩
    obtain ⟨line, hline, hop⟩ := exists_line_of_mem hsaid hop
    rw [hnumIds, ← hop.index]
    exact hindex line hline

/-- A block that is moved, and a blank line. -/
theorem loadTrace_legal_iff_sample :
    ((∃ trace r', (loadTrace ["20000", "1", "2", "1", "a 0 512", "", "r 0 640"]).out
          ⟨fun _ => ⟨.alloc, 7, 7⟩, 0, 0⟩ = some (.ok trace, r') ∧ trace.Legal) ↔
      HeaderFits ["20000", "1", "2", "1", "a 0 512", "", "r 0 640"] ∧
        (∀ line ∈ ["a 0 512", "", "r 0 640"], Sized line) ∧
        ∃ out, checktrace true ["20000", "1", "2", "1", "a 0 512", "", "r 0 640"] = .ok out) ∧
    ∀ trace r', (loadTrace ["20000", "1", "2", "1", "a 0 512", "", "r 0 640"]).out
        ⟨fun _ => ⟨.alloc, 7, 7⟩, 0, 0⟩ = some (.ok trace, r') →
      trace.numIds = number "1" ∧
        List.Forall₂ Says (requests ["a 0 512", "", "r 0 640"]) trace.ops := by
  have ha : words "a 0 512" = ["a", "0", "512"] := by decide
  have hb : words "" = [] := by decide
  have hr : words "r 0 640" = ["r", "0", "640"] := by decide
  have h0 : "0" = toString 0 := by decide
  have h512 : "512" = toString 512 := by decide
  have h640 : "640" = toString 640 := by decide
  have hnumber : ∀ n : Nat, n < 2 ^ 32 → (∀ c ∈ (toString n).toList, c.isDigit = true) ∧
      number (toString n) < 2 ^ 32 :=
    fun n hn => ⟨isDigit_toString n, by rw [number_toString]; exact hn⟩
  have hcanon : toString (number "0") = "0" := by rw [h0, number_toString]
  have hlines : ∀ line ∈ ["a 0 512", "", "r 0 640"],
      (IsRequest line ∨ Blank line) ∧ Numeric line ∧ Canonical line := by
    intro line hline
    simp only [List.mem_cons, List.not_mem_nil, or_false] at hline
    unfold Numeric Canonical
    rcases hline with rfl | rfl | rfl
    · rw [ha]
      refine ⟨Or.inl ⟨"0", "512", Or.inl ha⟩, ?_, fun cmd id rest hw => ?_⟩
      · rw [h0, h512]
        simp only [List.tail_cons, List.forall_mem_cons]
        exact ⟨hnumber 0 (by decide), hnumber 512 (by decide), by simp⟩
      · cases hw
        exact hcanon
    · rw [hb]
      exact ⟨Or.inr hb, by simp, fun cmd id rest hw => absurd hw (List.cons_ne_nil _ _).symm⟩
    · rw [hr]
      refine ⟨Or.inl ⟨"0", "640", Or.inr (Or.inl hr)⟩, ?_, fun cmd id rest hw => ?_⟩
      · rw [h0, h640]
        simp only [List.tail_cons, List.forall_mem_cons]
        exact ⟨hnumber 0 (by decide), hnumber 640 (by decide), by simp⟩
      · cases hw
        exact hcanon
  have hheader : ∀ h ∈ ["20000", "1", "2", "1"], IsNumber h := by
    simp only [List.forall_mem_cons]
    exact ⟨isNumber_of_eq (n := 20000) (by decide), isNumber_of_eq (n := 1) (by decide),
      isNumber_of_eq (n := 2) (by decide), isNumber_of_eq (n := 1) (by decide), by simp⟩
  exact loadTrace_legal_iff true hheader (fun line hl => (hlines line hl).1)
    (fun line hl => (hlines line hl).2.1) (fun line hl => (hlines line hl).2.2) (by decide)
    (by decide) (by decide) _

/-! ## What is written is read back -/

/-- A request as the generators print it. -/
def TraceOp.line (op : TraceOp) : String :=
  match op.type with
  | .alloc => "a" ++ " " ++ (toString op.index ++ " " ++ toString op.size)
  | .realloc => "r" ++ " " ++ (toString op.index ++ " " ++ toString op.size)
  | .free => "f" ++ " " ++ toString op.index

/-- The request without the size that is not written for a free. -/
def TraceOp.plain (op : TraceOp) : TraceOp :=
  match op.type with
  | .alloc | .realloc => op
  | .free => ⟨.free, op.index, 0⟩

/-- The trace as a file; the first and the last line of the header are not used. -/
def Trace.file (h1 h4 : String) (trace : Trace) : List String :=
  h1 :: toString trace.numIds :: toString trace.ops.length :: h4 ::
    trace.ops.map TraceOp.line

theorem isWord_r : IsWord "r" := isWord_letter (c := 'r') (by simp) rfl

/-- The words of a request that is written. -/
theorem words_traceOp_line (op : TraceOp) :
    words op.line = match op.type with
      | .alloc => ["a", toString op.index, toString op.size]
      | .realloc => ["r", toString op.index, toString op.size]
      | .free => ["f", toString op.index] := by
  unfold TraceOp.line
  rcases op.type with _ | _ | _
  · simp only
    rw [words_cons isWord_a, words_cons (isWord_toString _), words_word (isWord_toString_int _)]
  · simp only
    exact words_free (isWord_toString _)
  · simp only
    rw [words_cons isWord_r, words_cons (isWord_toString _), words_word (isWord_toString_int _)]

/-- A size that is positive is read back. -/
theorem toInt_number_toString {size : Int} (h : 1 ≤ size ∧ size < 2 ^ 31) :
    number (toString size) = size.toNat ∧ toInt (number (toString size)) = size := by
  obtain ⟨n, rfl⟩ := Int.eq_ofNat_of_zero_le (by omega : 0 ≤ size)
  have hprint : toString (n : Int) = toString n := rfl
  rw [hprint, number_toString, toInt]
  split <;> omega

/-- The sizes are positive `int`s. -/
def TraceOp.SizeOk (op : TraceOp) : Prop := op.type ≠ .free → 1 ≤ op.size ∧ op.size < 2 ^ 31

theorem says_sized {cmd : String} {index index' : Nat} {size size' : Int}
    (hsize : 1 ≤ size ∧ size < 2 ^ 31) :
    (∃ w, [cmd, toString index, toString size] = [cmd, toString index', w] ∧
        size' = toInt (number w)) ↔ index' = index ∧ size' = size := by
  constructor
  · rintro ⟨w, hw, rfl⟩
    obtain ⟨hindex, hrest⟩ := List.cons.inj (List.cons.inj hw).2
    obtain rfl : toString size = w := (List.cons.inj hrest).1
    exact ⟨(toString_inj.mp hindex).symm, (toInt_number_toString hsize).2⟩
  · rintro ⟨rfl, rfl⟩
    exact ⟨toString size', rfl, (toInt_number_toString hsize).2.symm⟩

/-- **One line**: a request that the line says is the one that was written. -/
theorem says_line {op op' : TraceOp} (hop : op.SizeOk) :
    Says op.line op' ↔ op'.plain = op.plain := by
  have hw := words_traceOp_line op
  obtain ⟨type, index, size⟩ := op
  obtain ⟨type', index', size'⟩ := op'
  have hsize : type ≠ .free → 1 ≤ size ∧ size < 2 ^ 31 := hop
  unfold Says TraceOp.plain
  rw [hw]
  cases type with
  | alloc =>
      cases type' with
      | alloc => simp only [says_sized (hsize (by decide)), TraceOp.mk.injEq, true_and]
      | free => simp
      | realloc => simp
  | free =>
      cases type' with
      | alloc => simp
      | free =>
          simp only [TraceOp.mk.injEq, true_and, and_true, List.cons.injEq, toString_inj]
          exact eq_comm
      | realloc => simp
  | realloc =>
      cases type' with
      | alloc => simp
      | free => simp
      | realloc => simp only [says_sized (hsize (by decide)), TraceOp.mk.injEq, true_and]

/-- An `a` or `r` line whose numbers are in their ranges. -/
theorem sized_line_ok {line cmd id size : String} (hw : words line = [cmd, id, size])
    (hcmd : cmd = "a" ∨ cmd = "r")
    (hid : (∀ c ∈ id.toList, c.isDigit = true) ∧ number id < 2 ^ 32)
    (hcanon : toString (number id) = id) (hdigits : ∀ c ∈ size.toList, c.isDigit = true)
    (hsize : 1 ≤ number size ∧ number size < 2 ^ 31) :
    IsRequest line ∧ Numeric line ∧ Canonical line ∧ Sized line := by
  unfold IsRequest Numeric Canonical Sized
  rw [hw]
  refine ⟨⟨id, size, ?_⟩, ?_, ?_, ?_⟩
  · rcases hcmd with rfl | rfl
    · exact Or.inl rfl
    · exact Or.inr (Or.inl rfl)
  · simp only [List.tail_cons, List.mem_cons, List.not_mem_nil, or_false]
    rintro w (rfl | rfl)
    · exact hid
    · exact ⟨hdigits, by omega⟩
  · intro cmd' id' rest h
    cases h
    exact hcanon
  · intro cmd' id' size' h
    cases h
    exact hsize

/-- An `f` line. -/
theorem free_line_ok {line id : String} (hw : words line = ["f", id])
    (hid : (∀ c ∈ id.toList, c.isDigit = true) ∧ number id < 2 ^ 32)
    (hcanon : toString (number id) = id) :
    IsRequest line ∧ Numeric line ∧ Canonical line ∧ Sized line := by
  unfold IsRequest Numeric Canonical Sized
  rw [hw]
  refine ⟨⟨id, "", Or.inr (Or.inr rfl)⟩, ?_, ?_, ?_⟩
  · simp only [List.tail_cons, List.mem_cons, List.not_mem_nil, or_false]
    rintro w rfl
    exact hid
  · intro cmd' id' rest h
    cases h
    exact hcanon
  · intro cmd' id' size' h
    cases h

/-- What is written for a request is a numeric line of canonical ids. -/
theorem line_ok {op : TraceOp} (hop : op.SizeOk) (hindex : op.index < 2 ^ 32) :
    IsRequest op.line ∧ Numeric op.line ∧ Canonical op.line ∧ Sized op.line := by
  have hw := words_traceOp_line op
  have hid : (∀ c ∈ (toString op.index).toList, c.isDigit = true) ∧
      number (toString op.index) < 2 ^ 32 :=
    ⟨isDigit_toString op.index, by rw [number_toString]; exact hindex⟩
  have hcanon : toString (number (toString op.index)) = toString op.index := by
    rw [number_toString]
  -- the size of a request that has one
  have hnumber : op.type ≠ .free → (∀ c ∈ (toString op.size).toList, c.isDigit = true) ∧
      1 ≤ number (toString op.size) ∧ number (toString op.size) < 2 ^ 31 := by
    intro htype
    have hbounds := hop htype
    obtain ⟨n, hn⟩ := Int.eq_ofNat_of_zero_le (by omega : 0 ≤ op.size)
    have hprint : toString op.size = toString n := by rw [hn]; rfl
    rw [hprint, number_toString]
    exact ⟨isDigit_toString n, by omega, by omega⟩
  cases htype : op.type with
  | alloc =>
      obtain ⟨hdigits, hsize⟩ := hnumber (by rw [htype]; decide)
      rw [htype] at hw
      exact sized_line_ok hw (Or.inl rfl) hid hcanon hdigits hsize
  | free =>
      rw [htype] at hw
      exact free_line_ok hw hid hcanon
  | realloc =>
      obtain ⟨hdigits, hsize⟩ := hnumber (by rw [htype]; decide)
      rw [htype] at hw
      exact sized_line_ok hw (Or.inr rfl) hid hcanon hdigits hsize

theorem read_line (op : TraceOp) : (TraceLine.read op.line).index = op.index ∧
    ((TraceLine.read op.line).type = 'f' ↔ op.type = .free) := by
  have ha : "a".front ≠ 'f' := by decide
  have hr : "r".front ≠ 'f' := by decide
  have hf : "f".front = 'f' := by decide
  have hw := words_traceOp_line op
  cases htype : op.type with
  | alloc =>
      rw [htype] at hw
      rw [read_eq hw]
      exact ⟨number_toString _, by simpa using ha⟩
  | free =>
      rw [htype] at hw
      rw [read_eq hw]
      exact ⟨number_toString _, by simpa using hf⟩
  | realloc =>
      rw [htype] at hw
      rw [read_eq hw]
      exact ⟨number_toString _, by simpa using hr⟩

theorem legal_of_mem {numIds : Nat} {ids : List Nat} {ops : List TraceOp}
    (hops : LegalFrom numIds ids ops) : ∀ op ∈ ops, op.index < numIds ∧ op.SizeOk := by
  induction ops generalizing ids with
  | nil => exact fun op hop => absurd hop List.not_mem_nil
  | cons k ops ih =>
      intro op hop
      rcases List.mem_cons.mp hop with rfl | hop
      · refine ⟨hops.1.1, fun htype => ?_⟩
        have hlegal := hops.1.2
        cases hk : op.type with
        | alloc => exact (by simpa [hk] using hlegal : (_ ∧ _) ∧ _).1
        | free => exact absurd hk htype
        | realloc => exact (by simpa [hk] using hlegal : (_ ∧ _) ∧ _).1
      · exact ih hops.2 op hop

/-- What the evaluators see of a request is what is written of it. -/
theorem legalFrom_plain {numIds : Nat} {ids : List Nat} {ops ops' : List TraceOp}
    (h : ops'.map TraceOp.plain = ops.map TraceOp.plain) :
    LegalFrom numIds ids ops' ↔ LegalFrom numIds ids ops := by
  have hplain : ∀ (ids : List Nat) (op : TraceOp),
      (op.plain.Legal numIds ids ↔ op.Legal numIds ids) ∧ op.plain.after ids = op.after ids := by
    rintro ids ⟨type, index, size⟩
    cases type <;> exact ⟨Iff.rfl, rfl⟩
  have hmap : ∀ (ids : List Nat) (ops : List TraceOp),
      LegalFrom numIds ids (ops.map TraceOp.plain) ↔ LegalFrom numIds ids ops := by
    intro ids ops
    induction ops generalizing ids with
    | nil => rfl
    | cons op ops ih =>
        rw [List.map_cons, LegalFrom, LegalFrom, (hplain ids op).1, (hplain ids op).2, ih]
  rw [← hmap ids ops', h, hmap ids ops]

theorem plain_of_said {ops ops' : List TraceOp} (hsizes : ∀ op ∈ ops, op.SizeOk)
    (hsaid : List.Forall₂ Says (ops.map TraceOp.line) ops') :
    ops'.map TraceOp.plain = ops.map TraceOp.plain := by
  induction ops generalizing ops' with
  | nil =>
      cases hsaid
      rfl
  | cons op ops ih =>
      rcases hsaid with _ | ⟨hline, hrest⟩
      rw [List.map_cons, List.map_cons, (says_line (hsizes op List.mem_cons_self)).mp hline,
        ih (fun k hk => hsizes k (List.mem_cons_of_mem _ hk)) hrest]

theorem said_of_sizeOk {ops : List TraceOp} (hsizes : ∀ op ∈ ops, op.SizeOk) :
    List.Forall₂ Says (ops.map TraceOp.line) ops := by
  induction ops with
  | nil => exact List.Forall₂.nil
  | cons op ops ih =>
      apply List.Forall₂.cons
      · exact (says_line (hsizes op List.mem_cons_self)).mpr rfl
      · exact ih (fun k hk => hsizes k (List.mem_cons_of_mem _ hk))

theorem maxId_le {lines : List TraceLine} {n : Nat}
    (h : ∀ l ∈ lines, l.type ≠ 'f' → l.index ≤ n) : maxId lines ≤ n := by
  induction lines with
  | nil => exact Nat.zero_le n
  | cons l lines ih =>
      have hrest := ih fun k hk => h k (List.mem_cons_of_mem _ hk)
      rw [maxId_cons]
      apply max_le _ hrest
      unfold maxId
      by_cases hf : l.type = 'f'
      · rw [List.filter_cons_of_neg (by simpa using hf)]
        exact Nat.zero_le n
      · rw [List.filter_cons_of_pos (by simpa using hf)]
        exact max_le (h l List.mem_cons_self hf) (Nat.zero_le n)

/-- The last id is one that is allocated or moved. -/
def Trace.Tight (trace : Trace) : Prop :=
  ∃ op ∈ trace.ops, op.type ≠ .free ∧ op.index + 1 = trace.numIds

/-- What is written for a legal trace. -/
structure Written (trace : Trace) : Prop where
  lines : ∀ line ∈ trace.ops.map TraceOp.line,
    IsRequest line ∧ Numeric line ∧ Canonical line ∧ Sized line
  kept : requests (trace.ops.map TraceOp.line) = trace.ops.map TraceOp.line
  sizes : ∀ op ∈ trace.ops, op.SizeOk

theorem Trace.Legal.written {trace : Trace} (hlegal : trace.Legal)
    (hids : trace.numIds < 2 ^ 31) : Written trace := by
  have hmem := legal_of_mem hlegal
  have hok : ∀ line ∈ trace.ops.map TraceOp.line,
      IsRequest line ∧ Numeric line ∧ Canonical line ∧ Sized line := by
    intro line hline
    obtain ⟨op, hop, rfl⟩ := List.mem_map.mp hline
    have hindex := (hmem op hop).1
    exact line_ok (hmem op hop).2 (by omega)
  refine ⟨hok, ?_, fun op hop => (hmem op hop).2⟩
  refine List.filter_eq_self.mpr (fun line hline => decide_eq_true ?_)
  obtain ⟨id, size, hw | hw | hw⟩ := (hok line hline).1 <;> exact not_blank hw

/-- The header of the file is the right one. -/
theorem headerFits_file {trace : Trace} (hlegal : trace.Legal) (htight : trace.Tight)
    (hids : trace.numIds < 2 ^ 30) (h1 h4 : String) : HeaderFits (trace.file h1 h4) := by
  have hmem := legal_of_mem hlegal
  obtain ⟨top, htop, hfree, hlast⟩ := htight
  have hle : maxId ((trace.ops.map TraceOp.line).map TraceLine.read) ≤ trace.numIds - 1 := by
    apply maxId_le
    intro l hl _
    obtain ⟨line, hline, rfl⟩ := List.mem_map.mp hl
    obtain ⟨op, hop, rfl⟩ := List.mem_map.mp hline
    have hindex := (hmem op hop).1
    rw [(read_line op).1]
    omega
  have hge : top.index ≤ maxId ((trace.ops.map TraceOp.line).map TraceLine.read) := by
    rw [← (read_line top).1]
    apply le_maxId (List.mem_map_of_mem (List.mem_map_of_mem htop))
    exact fun h => hfree ((read_line top).2.mp h)
  have hkept := (hlegal.written (by omega)).kept
  refine ⟨?_, ?_, ?_⟩
  · show maxId ((requests (trace.ops.map TraceOp.line)).map TraceLine.read) + 1
      = number (toString trace.numIds)
    rw [hkept, number_toString]
    omega
  · show (requests (trace.ops.map TraceOp.line)).length = number (toString trace.ops.length)
    rw [hkept, number_toString, List.length_map]
  · show 4 * number (toString trace.numIds) < 2 ^ 32
    rw [number_toString]
    omega

/-- A legal trace that is written to a file is loaded from it, with the same requests. -/
theorem written_loads {trace : Trace} (hlegal : trace.Legal) (htight : trace.Tight)
    (hids : trace.numIds < 2 ^ 30) (hlen : 12 * trace.ops.length < 2 ^ 32) {h1 h4 : String}
    (hheader : IsNumber h1 ∧ IsNumber h4) (r : Reader) :
    ∃ trace' r', (loadTrace (trace.file h1 h4)).out r = some (.ok trace', r') ∧ trace'.Legal ∧
      trace'.numIds = trace.numIds ∧
      trace'.ops.map TraceOp.plain = trace.ops.map TraceOp.plain := by
  have hW := hlegal.written (by omega)
  have hnumIds : number ((trace.file h1 h4).getD 1 "") = trace.numIds :=
    number_toString trace.numIds
  have hpos : 1 ≤ trace.numIds := by
    obtain ⟨top, -, -, hlast⟩ := htight
    omega
  have hfile : InFormat (trace.file h1 h4) := by
    refine inFormat_of ?_ (fun line hline => Or.inl (hW.lines line hline).1)
      (fun line hline => (hW.lines line hline).2.1)
    simp only [List.forall_mem_cons]
    exact ⟨hheader.1, isNumber_toString _, isNumber_toString _, hheader.2, by simp⟩
  have hcanon : ∀ line ∈ (trace.file h1 h4).drop 4, Canonical line :=
    fun line hline => (hW.lines line hline).2.2.1
  have hlength : 12 * (requests ((trace.file h1 h4).drop 4)).length < 2 ^ 32 := by
    show 12 * (requests (trace.ops.map TraceOp.line)).length < 2 ^ 32
    rw [hW.kept, List.length_map]
    exact hlen
  have hsmall : ∀ line ∈ requests ((trace.file h1 h4).drop 4),
      (TraceLine.read line).index < number ((trace.file h1 h4).getD 1 "") := by
    show ∀ line ∈ requests (trace.ops.map TraceOp.line), _
    rw [hW.kept, hnumIds]
    intro line hline
    obtain ⟨op, hop, rfl⟩ := List.mem_map.mp hline
    rw [(read_line op).1]
    exact (legal_of_mem hlegal op hop).1
  obtain ⟨trace', r', hout⟩ := loadTrace_isSome hfile (by omega) hlength
    (headerFits_file hlegal htight hids h1 h4) hsmall r
  obtain ⟨-, hnumIds', hsaid⟩ := loadTrace_ok hfile hcanon (by omega) (by omega) hlength hout
  replace hsaid : List.Forall₂ Says (requests (trace.ops.map TraceOp.line)) trace'.ops := hsaid
  rw [hW.kept] at hsaid
  rw [hnumIds] at hnumIds'
  have hplain := plain_of_said hW.sizes hsaid
  refine ⟨trace', r', hout, ?_, hnumIds', hplain⟩
  rw [Trace.Legal, hnumIds', legalFrom_plain hplain]
  exact hlegal

/-- The lines of a legal trace are consistent. -/
theorem written_consistent {trace : Trace} (hlegal : trace.Legal) (hids : trace.numIds < 2 ^ 31) :
    Consistent (trace.ops.map TraceOp.line) := by
  have hW := hlegal.written hids
  exact ((legalFrom_iff (said_of_sizeOk hW.sizes) (fun line hline => (hW.lines line hline).2.1)
    allocated_nil atEach_nil).mp hlegal).2.1

/-- **What is written is read back.** A legal trace that is written to a file is loaded from it,
with the same requests, and `checktrace.pl` accepts the file. -/
theorem loadTrace_file {trace : Trace} (hlegal : trace.Legal) (htight : trace.Tight)
    (hids : trace.numIds < 2 ^ 30) (hlen : 12 * trace.ops.length < 2 ^ 32) {h1 h4 : String}
    (hheader : IsNumber h1 ∧ IsNumber h4) (r : Reader) :
    (∃ trace' r', (loadTrace (trace.file h1 h4)).out r = some (.ok trace', r') ∧ trace'.Legal ∧
      trace'.numIds = trace.numIds ∧
      trace'.ops.map TraceOp.plain = trace.ops.map TraceOp.plain) ∧
    ∃ out, checktrace false (trace.file h1 h4) = .ok out := by
  refine ⟨written_loads hlegal htight hids hlen hheader r, ?_⟩
  obtain ⟨ids, -, -, -, hfalse⟩ := checktrace_ok h1 (toString trace.numIds)
    (toString trace.ops.length) h4
    (fun line hline => Or.inl ((hlegal.written (by omega)).lines line hline).1)
    (written_consistent hlegal (by omega))
  exact ⟨_, hfalse⟩

/-- A block that is moved and freed. -/
theorem loadTrace_file_sample :
    (∃ trace' r', (loadTrace (Trace.file "20000" "1" ⟨1, [⟨.alloc, 0, 512⟩, ⟨.realloc, 0, 640⟩,
        ⟨.free, 0, 0⟩]⟩)).out ⟨fun _ => ⟨.alloc, 7, 7⟩, 0, 0⟩ = some (.ok trace', r') ∧
      trace'.Legal ∧ trace'.numIds = 1 ∧ trace'.ops.map TraceOp.plain
        = [(⟨.alloc, 0, 512⟩ : TraceOp), ⟨.realloc, 0, 640⟩, ⟨.free, 0, 0⟩].map TraceOp.plain) ∧
    ∃ out, checktrace false (Trace.file "20000" "1" ⟨1, [⟨.alloc, 0, 512⟩, ⟨.realloc, 0, 640⟩,
      ⟨.free, 0, 0⟩]⟩) = .ok out :=
  loadTrace_file
    (show Trace.Legal ⟨1, [⟨.alloc, 0, 512⟩, ⟨.realloc, 0, 640⟩, ⟨.free, 0, 0⟩]⟩ from
      ⟨⟨by decide, by decide, by decide⟩, ⟨by decide, by decide, by decide⟩,
        ⟨by decide, by decide⟩, trivial⟩)
    ⟨⟨.alloc, 0, 512⟩, by decide, by decide, by decide⟩ (by decide) (by decide)
    ⟨isNumber_of_eq (n := 20000) (by decide), isNumber_of_eq (n := 1) (by decide)⟩ _

end MallocLab
