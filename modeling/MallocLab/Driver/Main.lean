import MallocLab.Driver.Agree
import MallocLab.Traces.Load

set_option autoImplicit false

/-! # The evaluation of a set of traces (`main`)

`main` initializes the simulated memory once and then runs every trace file through the three
evaluators; heap, range list and error count stay what the last trace left. The speed run is
timed ten times with `gettimeofday`, and the statistics are added up to the performance index.
The `double`s of the program are rationals here; a quotient by zero is treated as in C.
-/

namespace MallocLab

open Logged Words

/-! ## The state of the process -/

/-- `struct timeval` -/
structure Timeval where
  tvSec : Int
  tvUsec : Int
  deriving DecidableEq, Repr

/-- What outlives a trace: the heap, the range list, `errors` and the output; the tables of the
trace at hand; and how often the time was read. -/
structure Session where
  heap : Heap
  ranges : List Range
  blocks : Nat → Nat
  blockSizes : Nat → Nat
  errors : Nat
  stdout : List String
  readings : Nat

/-- A trace file with its path, and what libc's `malloc` left in the three arrays for it. -/
structure TraceFile where
  path : String
  lines : List String
  ops : Nat → StoredOp
  blocks : Nat → Nat
  blockSizes : Nat → Nat

/-- The statistics of a trace (`stats_t`), as `calloc` leaves them. -/
structure Stats where
  ops : ℚ := 0
  valid : Bool := false
  secs : ℚ := 0
  util : ℚ := 0
  deriving DecidableEq, Repr

/-- Why the process exits before its end. -/
inductive MainExit where
  | readTrace (e : ReadError)
  | evalMmUtil (e : UtilError)
  | evalMmSpeed (e : SpeedError)
  deriving DecidableEq, Repr

/-- What the process prints before it exits; `app_error` ends the line. -/
def MainExit.text (path : String) : MainExit → String
  | .readTrace e => e.text path
  | .evalMmUtil e => e.text ++ "\n"
  | .evalMmSpeed e => e.text ++ "\n"

namespace Session

/-- The process before `main`. -/
def initial (h : Heap) : Session := ⟨h, [], fun _ => 0, fun _ => 0, 0, [], 0⟩

def setHeap (h : Heap) (s : Session) : Session := { s with heap := h }

def driver (s : Session) : Driver := ⟨s.heap, s.ranges, s.blocks, s.blockSizes⟩

def setDriver (d : Driver) (s : Session) : Session :=
  { s with heap := d.heap, ranges := d.ranges, blocks := d.blocks, blockSizes := d.blockSizes }

/-- `total_size` and `max_total_size` are local to `eval_mm_util`. -/
def util (s : Session) : Util := ⟨s.heap, s.blocks, s.blockSizes, 0, 0⟩

def setUtil (u : Util) (s : Session) : Session :=
  { s with heap := u.heap, blocks := u.blocks, blockSizes := u.blockSizes }

def speed (s : Session) : Speed := ⟨s.heap, s.blocks⟩

def setSpeed (v : Speed) (s : Session) : Session := { s with heap := v.heap, blocks := v.blocks }

/-- `malloc_error` -/
def mallocError (tracenum : Nat) (f : Failure) (s : Session) : Session :=
  { s with errors := s.errors + 1, stdout := s.stdout ++ [f.text tracenum] }

def exit (path : String) (e : MainExit) (s : Session) : Session :=
  { s with stdout := s.stdout ++ [e.text path] }

end Session

/-! ## Timing -/

/-- `gettimeofday`, when the readings of the time are those of `clock`. -/
def gettimeofday (clock : Nat → Timeval) : Logged Session Event Timeval := do
  let tv ← reads (fun s : Session => clock s.readings)
  modifies (fun s => { s with readings := s.readings + 1 })
  return tv

/-- `f(argp)`, `n` times. -/
def runs (f : Logged Session Event (Except SpeedError Unit)) :
    Nat → Logged Session Event (Except SpeedError Unit)
  | 0 => return .ok ()
  | n + 1 => do
      match (← f) with
      | .error e => return .error e
      | .ok () => runs f n

/-- The seconds for one of `n` runs between two times. -/
def elapsed (stv etv : Timeval) (n : Nat) : ℚ :=
  let diff : ℚ := 1000 * ((etv.tvSec - stv.tvSec : Int) : ℚ) +
    ((etv.tvUsec - stv.tvUsec : Int) : ℚ) / 1000
  diff / n / 1000

def ftimerGettod (clock : Nat → Timeval) (f : Logged Session Event (Except SpeedError Unit))
    (n : Nat) : Logged Session Event (Except SpeedError ℚ) := do
  let stv ← gettimeofday clock
  match (← runs f n) with
  | .error e => return .error e
  | .ok () =>
      let etv ← gettimeofday clock
      return .ok (elapsed stv etv n)

/-- `fsecs`, as `config.h` selects it. -/
def fsecs (clock : Nat → Timeval) (f : Logged Session Event (Except SpeedError Unit)) :
    Logged Session Event (Except SpeedError ℚ) := ftimerGettod clock f 10

/-! ## The loop over the traces -/

/-- `read_trace`, which gets its arrays from libc's `malloc`. -/
def readFile (file : TraceFile) : Logged Session Event (Except ReadError Trace) :=
  match (loadTrace file.lines).out ⟨file.ops, 0, 0⟩ with
  | none => never
  | some (.error e, _) => return .error e
  | some (.ok trace, _) => do
      modifies (fun s => { s with blocks := file.blocks, blockSizes := file.blockSizes })
      return .ok trace

/-- `eval_mm_valid`, with the error that it reports. -/
def checkValid (i : Nat) (trace : Trace) : Logged Session Event Bool := do
  match (← zoom Session.driver Session.setDriver (evalMmValid trace)) with
  | .ok () => return true
  | .error f =>
      modifies (Session.mallocError i f)
      return false

/-- The measurements of a trace that is valid. -/
def measure (clock : Nat → Timeval) (trace : Trace) :
    Logged Session Event (Except MainExit Stats) := do
  match (← zoom Session.util Session.setUtil (evalMmUtil trace)) with
  | .error e => return .error (.evalMmUtil e)
  | .ok util =>
      match (← fsecs clock (zoom Session.speed Session.setSpeed (evalMmSpeed trace))) with
      | .error e => return .error (.evalMmSpeed e)
      | .ok secs =>
          return .ok { ops := trace.ops.length, valid := true, secs := secs, util := util }

/-- The body of the loop. -/
def evalFile (clock : Nat → Timeval) (i : Nat) (file : TraceFile) :
    Logged Session Event (Except MainExit Stats) := do
  match (← readFile file) with
  | .error e => return .error (.readTrace e)
  | .ok trace =>
      if (← checkValid i trace) then
        measure clock trace
      else
        return .ok { ops := trace.ops.length }

/-- The loop, from trace `i` on. -/
def evalFiles (clock : Nat → Timeval) :
    Nat → List TraceFile → Logged Session Event (Except MainExit (List Stats))
  | _, [] => return .ok []
  | i, file :: files => do
      match (← evalFile clock i file) with
      | .error e =>
          modifies (Session.exit file.path e)
          return .error e
      | .ok stats =>
          match (← evalFiles clock (i + 1) files) with
          | .error e => return .error e
          | .ok rest => return .ok (stats :: rest)

/-! ## The performance index -/

def AVG_LIBC_THRUPUT : ℚ := 600000

def UTIL_WEIGHT : ℚ := 60 / 100

/-- The contribution of the throughput; `0.0 / 0.0` is no number. -/
def thruPart (ops secs : ℚ) : Option ℚ :=
  if secs = 0 then
    if 0 < ops then some (1 - UTIL_WEIGHT) else none
  else if AVG_LIBC_THRUPUT < ops / secs then
    some (1 - UTIL_WEIGHT)
  else
    some ((1 - UTIL_WEIGHT) * (ops / secs / AVG_LIBC_THRUPUT))

/-- What `main` computes at its end. -/
structure Report where
  numcorrect : Nat
  avgMmUtil : ℚ
  perfindex : Option ℚ
  deriving DecidableEq, Repr

/-- The end of `main`. -/
def report (errors : Nat) (stats : List Stats) : Report :=
  let secs := (stats.map Stats.secs).sum
  let ops := (stats.map Stats.ops).sum
  let util := (stats.map Stats.util).sum
  let avgMmUtil := util / stats.length
  { numcorrect := stats.countP Stats.valid
    avgMmUtil := avgMmUtil
    perfindex :=
      if errors = 0 then (thruPart ops secs).map (fun p2 => (UTIL_WEIGHT * avgMmUtil + p2) * 100)
      else some 0 }

/-- The totals of `printresults`: over the valid traces, and only if there were no errors. -/
def printTotals (errors : Nat) (stats : List Stats) : Option (ℚ × ℚ × ℚ) :=
  let valid := stats.filter Stats.valid
  if errors = 0 then
    some ((valid.map Stats.util).sum / stats.length, (valid.map Stats.ops).sum,
      (valid.map Stats.secs).sum)
  else
    none

/-- `main` from `mem_init` on, with the storage that libc's `malloc` gives it. -/
def main (clock : Nat → Timeval) (arena : Nat) (files : List TraceFile) :
    Logged Session Event (Except MainExit Report) := do
  zoom Session.heap Session.setHeap (memInit arena)
  match (← evalFiles clock 0 files) with
  | .error e => return .error e
  | .ok stats => return .ok (report (← reads Session.errors) stats)

/-! ## One trace -/

instance (op : TraceOp) : Decidable op.Readable := inferInstanceAs (Decidable (_ → _))

/-- The verdict on a trace, as far as it depends on the trace. -/
def Trace.passes (trace : Trace) : Bool :=
  (served trace.ops).isSome && decide (∀ op ∈ trace.ops, op.Readable)

def Trace.utilization (trace : Trace) : ℚ :=
  match served trace.ops with
  | none => 0
  | some t => (highWater trace.ops : ℚ) / (t.heapsize : ℚ)

/-- What `main` finds out about a trace, whatever it did before. -/
structure Reports (clock : Nat → Timeval) (trace : Trace) (stats : Stats) : Prop where
  ops : stats.ops = trace.ops.length
  valid : stats.valid = trace.passes
  util : stats.util = if trace.passes then trace.utilization else 0
  below : 0 ≤ stats.util ∧ stats.util < 1
  timed : stats.valid = true → ∃ k, stats.secs = elapsed (clock k) (clock (k + 1)) 10
  untimed : stats.valid = false → stats.secs = 0

/-- `s'` is a state in which `main` can go on with the next trace, after `n` more errors. -/
structure GoesOn (n : Nat) (s s' : Session) : Prop where
  arena : Arena s'.heap
  errors : s'.errors = s.errors + n
  stdout : s'.stdout.length = s.stdout.length + n

theorem Reports.of_failed (clock : Nat → Timeval) {trace : Trace} (h : trace.passes = false) :
    Reports clock trace { ops := trace.ops.length } := by
  refine ⟨rfl, h.symm, ?_, ⟨le_refl _, zero_lt_one⟩, ?_, fun _ => rfl⟩
  · rw [h]
    rfl
  · intro hvalid
    cases hvalid

theorem highWater_nonneg (ops : List TraceOp) : 0 ≤ highWater ops :=
  (isGreatest_foldr_max _).2 (Or.inl rfl)

section Evaluate

variable {clock : Nat → Timeval} {s : Session} {trace : Trace} {t : Store}

theorem gettimeofday_yields (clock : Nat → Timeval) (s : Session) :
    Yields True Event.NoWrap (gettimeofday clock) s (fun _ tv s' =>
      tv = clock s.readings ∧ s' = { s with readings := s.readings + 1 }) := by
  rw [gettimeofday]
  refine Yields.reads_bind (fun tv htv => ?_)
  exact Yields.modifies_bind (Yields.pure ⟨htv, rfl⟩)

/-- A trace that is served gets through the speed run, any number of times. -/
theorem runs_yields (hA : Arena s.heap) (hlegal : trace.Legal) (hserved : served trace.ops = some t)
    (n : Nat) :
    Yields True Event.NoWrap (runs (zoom Session.speed Session.setSpeed (evalMmSpeed trace)) n) s
      (fun _ r s' => r = .ok () ∧ Arena s'.heap ∧ s'.errors = s.errors ∧ s'.stdout = s.stdout ∧
        s'.readings = s.readings) := by
  induction n generalizing s with
  | zero =>
      rw [runs]
      exact Yields.pure ⟨rfl, hA, rfl, rfl, rfl⟩
  | succ n ih =>
      rw [runs]
      have hrun := evalMmSpeed_follow (v := s.speed) hA hlegal
      refine (Yields.zoom hrun).bind ?_
      rintro l r s1 ⟨v', ⟨sizes, ⟨-, hnone, -⟩ | ⟨rfl, t', live, -, hF⟩⟩, rfl⟩
      · rw [hserved] at hnone
        cases hnone
      · exact ih (s := Session.setSpeed v' s) hF.tracks.inv.rep.arena

theorem fsecs_yields (clock : Nat → Timeval) (hA : Arena s.heap) (hlegal : trace.Legal)
    (hserved : served trace.ops = some t) :
    Yields True Event.NoWrap
      (fsecs clock (zoom Session.speed Session.setSpeed (evalMmSpeed trace))) s (fun _ r s' =>
        r = .ok (elapsed (clock s.readings) (clock (s.readings + 1)) 10) ∧ Arena s'.heap ∧
          s'.errors = s.errors ∧ s'.stdout = s.stdout) := by
  rw [fsecs, ftimerGettod]
  refine (gettimeofday_yields clock s).bind ?_
  rintro _ stv s1 ⟨rfl, rfl⟩
  refine (runs_yields (s := { s with readings := s.readings + 1 }) hA hlegal hserved 10).bind ?_
  rintro _ r s2 ⟨rfl, hA2, herrors, hstdout, hreadings⟩
  -- the runs do not read the time, so this reading follows the first one
  refine (gettimeofday_yields clock s2).bind ?_
  rintro _ etv s3 ⟨rfl, rfl⟩
  refine Yields.pure ⟨?_, hA2, herrors, hstdout⟩
  rw [hreadings]

/-- A trace that passed is measured. -/
theorem measure_yields (hA : Arena s.heap) (hlegal : trace.Legal) (hpass : trace.passes = true) :
    Yields True Event.NoWrap (measure clock trace) s (fun _ r s' =>
      ∃ stats, r = .ok stats ∧ Reports clock trace stats ∧ GoesOn 0 s s') := by
  obtain ⟨t, hserved⟩ := Option.isSome_iff_exists.mp (Bool.and_eq_true_iff.mp hpass).1
  rw [measure]
  have hutil := evalMmUtil_follow (u := s.util) hA hlegal
  refine (Yields.zoom hutil).bind ?_
  rintro _ q s1 ⟨u', ⟨-, hnone⟩ | ⟨t', live, ht', rfl, hbelow, hF⟩, rfl⟩
  · rw [hserved] at hnone
    cases hnone
  obtain rfl : t = t' := Option.some.inj (hserved.symm.trans ht')
  have hspeed := fsecs_yields (s := Session.setUtil u' s) clock hF.tracks.inv.rep.arena hlegal
    hserved
  refine hspeed.bind ?_
  rintro _ p s2 ⟨rfl, hA2, herrors, hstdout⟩
  refine Yields.pure ⟨_, rfl, ?_, hA2, herrors, by rw [hstdout]; rfl⟩
  have hutilization : trace.utilization = (highWater trace.ops : ℚ) / (t.heapsize : ℚ) := by
    rw [Trace.utilization, hserved]
  -- the high-water mark is below the size of the heap, so this is no quotient by zero
  have hpos : (0 : ℚ) < (t.heapsize : ℚ) := by
    have hlow := highWater_nonneg trace.ops
    have h0 : 0 < t.heapsize := by omega
    exact_mod_cast h0
  refine ⟨rfl, hpass.symm, ?_, ⟨?_, ?_⟩, fun _ => ⟨_, rfl⟩, ?_⟩
  · rw [hpass, hutilization]
    rfl
  · apply div_nonneg _ hpos.le
    exact_mod_cast highWater_nonneg trace.ops
  · rw [div_lt_one hpos]
    exact_mod_cast hbelow
  · intro hvalid
    cases hvalid

/-- **The verdict** on a trace is that of the trace, and an error is counted and printed. -/
theorem checkValid_yields (i : Nat) (hA : Arena s.heap) (hlegal : trace.Legal) :
    Yields True Event.NoWrap (checkValid i trace) s (fun _ b s' =>
      b = trace.passes ∧ GoesOn (if trace.passes then 0 else 1) s s') := by
  have hvalid := evalMmValid_follow (d := s.driver) hA hlegal
  rw [checkValid]
  refine (Yields.zoom hvalid).bind ?_
  rintro _ r s1 ⟨d', ⟨hiff, -, hA'⟩, rfl⟩
  have hpasses : trace.passes = true ↔ r = .ok () := by
    rw [hiff, Trace.passes, Bool.and_eq_true, decide_eq_true_iff]
  rcases r with f | ⟨⟩
  · have hfail : trace.passes = false := by
      rw [← Bool.not_eq_true, hpasses]
      exact fun h => nomatch h
    rw [hfail]
    refine Yields.modifies_bind (Yields.pure ⟨rfl, hA', rfl, ?_⟩)
    show (s.stdout ++ [f.text i]).length = s.stdout.length + 1
    rw [List.length_append, List.length_singleton]
  · have hpass : trace.passes = true := hpasses.mpr rfl
    rw [hpass]
    exact Yields.pure ⟨rfl, hA', rfl, rfl⟩

end Evaluate

/-! ## All traces -/

/-- The file is loaded as the trace, which is legal. -/
def Loads (file : TraceFile) (trace : Trace) : Prop :=
  trace.Legal ∧ ∃ r, (loadTrace file.lines).out ⟨file.ops, 0, 0⟩ = some (.ok trace, r)

section Files

variable {clock : Nat → Timeval} {s : Session} {file : TraceFile} {trace : Trace}

theorem loads_of_out (hlegal : trace.Legal)
    (hout : ((loadTrace file.lines).out ⟨file.ops, 0, 0⟩).map Prod.fst = some (.ok trace)) :
    Loads file trace := by
  obtain ⟨⟨result, r⟩, hload, hresult⟩ := Option.map_eq_some_iff.mp hout
  obtain rfl : result = .ok trace := hresult
  exact ⟨hlegal, r, hload⟩

theorem readFile_yields (hload : Loads file trace) :
    Yields True Event.NoWrap (readFile file) s (fun _ r s' =>
      r = .ok trace ∧ s' = { s with blocks := file.blocks, blockSizes := file.blockSizes }) := by
  obtain ⟨-, r, hout⟩ := hload
  rw [readFile, hout]
  exact Yields.modifies_bind (Yields.pure ⟨rfl, rfl⟩)

/-- **One trace**, from any state that the traces before it left. -/
theorem evalFile_yields (i : Nat) (hA : Arena s.heap) (hload : Loads file trace) :
    Yields True Event.NoWrap (evalFile clock i file) s (fun _ r s' =>
      ∃ stats, r = .ok stats ∧ Reports clock trace stats ∧
        GoesOn (if trace.passes then 0 else 1) s s') := by
  rw [evalFile]
  refine (readFile_yields hload).bind ?_
  rintro _ _ s1 ⟨rfl, rfl⟩
  refine (checkValid_yields (s := { s with blocks := file.blocks, blockSizes := file.blockSizes })
    i hA hload.1).bind ?_
  rintro _ b s2 ⟨rfl, hgo⟩
  cases hpass : trace.passes with
  | false =>
      rw [hpass] at hgo
      -- nothing is measured, and the statistics are those of `calloc`
      exact Yields.pure ⟨_, rfl, Reports.of_failed clock hpass, hgo.arena, hgo.errors, hgo.stdout⟩
  | true =>
      rw [hpass] at hgo
      refine (measure_yields hgo.arena hload.1 hpass).mono ?_
      rintro _ r s3 ⟨stats, rfl, hrep, hgo'⟩
      refine ⟨stats, rfl, hrep, hgo'.arena, hgo'.errors.trans hgo.errors, ?_⟩
      exact hgo'.stdout.trans hgo.stdout

/-- The number of traces that do not pass. -/
def failures (traces : List Trace) : Nat := traces.countP (fun trace => !trace.passes)

theorem failures_cons (trace : Trace) (traces : List Trace) :
    failures (trace :: traces) = (if trace.passes then 0 else 1) + failures traces := by
  rw [failures, failures, List.countP_cons]
  cases trace.passes <;> simp [Nat.add_comm]

/-- **The loop.** Every trace gets its report, and the errors are the traces that failed. -/
theorem evalFiles_yields {files : List TraceFile} {traces : List Trace} (i : Nat)
    (hA : Arena s.heap) (hload : List.Forall₂ Loads files traces) :
    Yields True Event.NoWrap (evalFiles clock i files) s (fun _ r s' =>
      ∃ stats, r = .ok stats ∧ List.Forall₂ (Reports clock) traces stats ∧
        GoesOn (failures traces) s s') := by
  induction hload generalizing i s with
  | nil =>
      rw [evalFiles]
      exact Yields.pure ⟨[], rfl, List.Forall₂.nil, hA, rfl, rfl⟩
  | @cons file trace files traces hfile hrest ih =>
      rw [evalFiles]
      refine (evalFile_yields i hA hfile).bind ?_
      rintro _ r s1 ⟨stats, rfl, hrep, hgo⟩
      refine (ih (i + 1) hgo.arena).bind ?_
      rintro _ r s2 ⟨rest, rfl, hreps, hgo'⟩
      refine Yields.pure ⟨stats :: rest, rfl, List.Forall₂.cons hrep hreps, hgo'.arena, ?_, ?_⟩
      · rw [hgo'.errors, hgo.errors, failures_cons, Nat.add_assoc]
      · rw [hgo'.stdout, hgo.stdout, failures_cons, Nat.add_assoc]

end Files

/-! ## `main` -/

theorem memInit_yields {arena : Nat} (h8 : arena % 8 = 0) (h0 : arena ≠ NULL)
    (hfit : arena + MAX_HEAP < 2 ^ 32) (h : Heap) :
    Yields True Event.NoWrap (memInit arena) h (fun l _ h' => l = [] ∧ Arena h') := by
  rw [memInit, if_neg h0]
  refine Yields.of_out fun _ => ⟨(), _, rfl, rfl, h8, Nat.pos_of_ne_zero h0, ?_, ?_⟩
  · exact add32_eq hfit
  · rw [add32_eq hfit]
    exact hfit

section Main

variable {clock : Nat → Timeval} {arena : Nat} {h : Heap} {files : List TraceFile}
  {traces : List Trace}

theorem main_yields (h8 : arena % 8 = 0) (h0 : arena ≠ NULL) (hfit : arena + MAX_HEAP < 2 ^ 32)
    (hload : List.Forall₂ Loads files traces) :
    Yields True Event.NoWrap (main clock arena files) (Session.initial h) (fun _ r s' =>
      ∃ stats, r = .ok (report (failures traces) stats) ∧
        List.Forall₂ (Reports clock) traces stats ∧ s'.errors = failures traces ∧
        s'.stdout.length = failures traces) := by
  have hinit := memInit_yields h8 h0 hfit (Session.initial h).heap
  rw [main]
  refine (Yields.zoom hinit).bind ?_
  rintro _ ⟨⟩ s1 ⟨h', ⟨-, hA⟩, rfl⟩
  refine (evalFiles_yields (s := Session.setHeap h' (Session.initial h)) 0 hA hload).bind ?_
  rintro _ r s2 ⟨stats, rfl, hreps, hgo⟩
  have herrors : s2.errors = failures traces := hgo.errors.trans (Nat.zero_add _)
  have hstdout : s2.stdout.length = failures traces := hgo.stdout.trans (Nat.zero_add _)
  refine Yields.reads_bind (fun errors he => Yields.pure ⟨stats, ?_, hreps, herrors, hstdout⟩)
  rw [he, herrors]

/-- The valid traces are those that pass. -/
theorem numcorrect_eq {stats : List Stats} (hreps : List.Forall₂ (Reports clock) traces stats) :
    stats.countP Stats.valid + failures traces = traces.length := by
  induction hreps with
  | nil => rfl
  | @cons trace st traces stats hrep _ ih =>
      rw [failures_cons, List.countP_cons, List.length_cons, hrep.valid]
      cases trace.passes <;> simp <;> omega

/-- **Every trace gets its verdict.** `main` runs to its end on any list of files that are loaded
as legal traces, from any memory, if no sum `mem_brk + incr` wraps around. What it finds out about
a trace depends on that trace alone; it counts and prints one error for each trace that does not
pass. -/
theorem main_reports (h8 : arena % 8 = 0) (h0 : arena ≠ NULL) (hfit : arena + MAX_HEAP < 2 ^ 32)
    (hload : List.Forall₂ Loads files traces)
    (hnw : NoWrap ((main clock arena files).log (Session.initial h))) :
    ∃ rep s' stats, (main clock arena files).out (Session.initial h) = some (.ok rep, s') ∧
      List.Forall₂ (Reports clock) traces stats ∧ rep = report (failures traces) stats ∧
      s'.errors = failures traces ∧ s'.stdout.length = failures traces ∧
      rep.numcorrect + s'.errors = traces.length := by
  obtain ⟨r, s', hout, stats, rfl, hreps, herrors, hstdout⟩ :=
    (main_yields h8 h0 hfit hload).out hnw
  refine ⟨_, s', stats, hout, hreps, rfl, herrors, hstdout, ?_⟩
  rw [herrors]
  exact numcorrect_eq hreps

/-- A file whose trace passes, and one that asks for more than there is. -/
def sampleFiles : List TraceFile :=
  [⟨"short.rep", ["20000", "1", "3", "1", "a 0 512", "r 0 640", "f 0"], fun _ => ⟨.alloc, 7, 7⟩,
    fun _ => 7, fun _ => 7⟩,
    ⟨"large.rep", ["20000", "1", "1", "1", "a 0 1073741824"], fun _ => ⟨.alloc, 7, 7⟩, fun _ => 7,
      fun _ => 7⟩]

def sampleTraces : List Trace :=
  [⟨1, [⟨.alloc, 0, 512⟩, ⟨.realloc, 0, 640⟩, ⟨.free, 0, 7⟩]⟩, ⟨1, [⟨.alloc, 0, 1073741824⟩]⟩]

theorem sampleFiles_load : List.Forall₂ Loads sampleFiles sampleTraces := by
  refine List.Forall₂.cons (loads_of_out ?_ (by decide +kernel))
    (List.Forall₂.cons (loads_of_out ?_ (by decide +kernel)) List.Forall₂.nil)
  · exact ⟨⟨by decide, by decide, by decide⟩, ⟨by decide, by decide, by decide⟩,
      ⟨by decide, by decide⟩, trivial⟩
  · exact ⟨⟨by decide, by decide, by decide⟩, trivial⟩

/-- One second between two readings. -/
def sampleClock (k : Nat) : Timeval := ⟨k, 0⟩

theorem main_reports_sample : ∃ rep s' stats,
    (main sampleClock 0x10000000 sampleFiles).out (Session.initial sampleHeap)
        = some (.ok rep, s') ∧
      List.Forall₂ (Reports sampleClock) sampleTraces stats ∧
      rep = report (failures sampleTraces) stats ∧ s'.errors = failures sampleTraces ∧
      s'.stdout.length = failures sampleTraces ∧
      rep.numcorrect + s'.errors = sampleTraces.length :=
  main_reports (by decide) (by decide) (by decide) sampleFiles_load (by decide +kernel)

/-! ## The index -/

theorem thruPart_bounds {ops secs p2 : ℚ} (hops : 0 ≤ ops) (hsecs : 0 ≤ secs)
    (h : thruPart ops secs = some p2) : 0 ≤ p2 ∧ p2 ≤ 1 - UTIL_WEIGHT := by
  have hweight : (0 : ℚ) ≤ 1 - UTIL_WEIGHT := by norm_num [UTIL_WEIGHT]
  have hlibc : (0 : ℚ) < AVG_LIBC_THRUPUT := by norm_num [AVG_LIBC_THRUPUT]
  unfold thruPart at h
  split at h
  · split at h
    · cases h
      exact ⟨hweight, le_refl _⟩
    · cases h
  · split at h
    · cases h
      exact ⟨hweight, le_refl _⟩
    · next hle =>
        cases h
        have hthru : 0 ≤ ops / secs := div_nonneg hops hsecs
        have hratio : ops / secs / AVG_LIBC_THRUPUT ≤ 1 :=
          (div_le_one hlibc).mpr (not_lt.mp hle)
        exact ⟨mul_nonneg hweight (div_nonneg hthru hlibc.le),
          mul_le_of_le_one_right hweight hratio⟩

theorem thruPart_isSome {ops : ℚ} (secs : ℚ) (hops : 0 < ops) : (thruPart ops secs).isSome := by
  unfold thruPart
  split
  · rfl
  · split <;> rfl

/-- What the statistics of traces that all pass add up to. -/
theorem sums_of_reports {stats : List Stats} (hreps : List.Forall₂ (Reports clock) traces stats)
    (hall : failures traces = 0)
    (hclock : ∀ k, 0 ≤ elapsed (clock k) (clock (k + 1)) 10) :
    (stats.map Stats.ops).sum = ((traces.map (fun trace => trace.ops.length)).sum : ℕ) ∧
      (stats.map Stats.util).sum = (traces.map Trace.utilization).sum ∧
      0 ≤ (stats.map Stats.util).sum ∧
      (traces ≠ [] → (stats.map Stats.util).sum < stats.length) ∧
      0 ≤ (stats.map Stats.secs).sum ∧ stats.filter Stats.valid = stats := by
  induction hreps with
  | nil => simp
  | @cons trace st traces stats hrep _ ih =>
      rw [failures_cons] at hall
      have hpass : trace.passes = true := by
        by_contra h
        rw [if_neg h] at hall
        omega
      rw [if_pos hpass, Nat.zero_add] at hall
      obtain ⟨hops, hutil, hlow, hhigh, hsecs, hfilter⟩ := ih hall
      obtain ⟨hlow', hhigh'⟩ := hrep.below
      obtain ⟨k, hk⟩ := hrep.timed (hrep.valid.trans hpass)
      have hutil' : st.util = trace.utilization := by rw [hrep.util, if_pos hpass]
      simp only [List.map_cons, List.sum_cons, List.length_cons]
      refine ⟨?_, ?_, by linarith, fun _ => ?_, ?_, ?_⟩
      · rw [hops, hrep.ops]
        push_cast
        rfl
      · rw [hutil, hutil']
      · push_cast
        by_cases hnil : traces = []
        · subst hnil
          rw [hutil]
          have hlen : (0 : ℚ) ≤ stats.length := Nat.cast_nonneg _
          simp only [List.map_nil, List.sum_nil]
          linarith
        · have hlt := hhigh hnil
          linarith
      · rw [hk]
        exact add_nonneg (hclock k) hsecs
      · rw [List.filter_cons_of_pos (hrep.valid.trans hpass), hfilter]

/-- **The performance index**, for files that are loaded as legal traces and a run in which no sum
`mem_brk + incr` wraps around. After an error it is 0. Otherwise it is made of 60 points for the
average utilization, which is below 1, and at most 40 for the throughput, so it is below 100;
and it is made of the same totals that `printresults` prints. -/
theorem main_perfindex (h8 : arena % 8 = 0) (h0 : arena ≠ NULL) (hfit : arena + MAX_HEAP < 2 ^ 32)
    (hload : List.Forall₂ Loads files traces) (hne : files ≠ [])
    (hclock : ∀ k, 0 ≤ elapsed (clock k) (clock (k + 1)) 10)
    (hnw : NoWrap ((main clock arena files).log (Session.initial h))) :
    ∃ rep s' stats, (main clock arena files).out (Session.initial h) = some (.ok rep, s') ∧
      rep = report (failures traces) stats ∧
      (failures traces ≠ 0 → rep.perfindex = some 0 ∧ printTotals s'.errors stats = none) ∧
      (failures traces = 0 →
        rep.avgMmUtil = (traces.map Trace.utilization).sum / traces.length ∧
        0 ≤ rep.avgMmUtil ∧ rep.avgMmUtil < 1 ∧
        (∃ ops secs, printTotals s'.errors stats = some (rep.avgMmUtil, ops, secs) ∧
          ops = ((traces.map (fun trace => trace.ops.length)).sum : ℕ) ∧
          ∀ x, rep.perfindex = some x → ∃ p2, thruPart ops secs = some p2 ∧
            x = 60 * rep.avgMmUtil + 100 * p2 ∧ 0 ≤ p2 ∧ p2 ≤ 40 / 100 ∧ 0 ≤ x ∧ x < 100) ∧
        ((∃ trace ∈ traces, trace.ops ≠ []) → rep.perfindex.isSome)) := by
  obtain ⟨r, s', hout, stats, rfl, hreps, herrors, -⟩ := (main_yields h8 h0 hfit hload).out hnw
  refine ⟨_, s', stats, hout, rfl, fun hbad => ?_, fun hall => ?_⟩
  · rw [herrors, report, printTotals, if_neg hbad, if_neg hbad]
    exact ⟨rfl, rfl⟩
  obtain ⟨hops, hutil, hlow, hhigh, hsecs, hfilter⟩ := sums_of_reports hreps hall hclock
  have hlen : stats.length = traces.length := hreps.length_eq.symm
  have htraces : traces ≠ [] := by
    rintro rfl
    cases hload
    exact hne rfl
  have hpos : (0 : ℚ) < stats.length := by
    have hstats : 0 < stats.length := by
      rw [hlen]
      exact List.length_pos_of_ne_nil htraces
    exact_mod_cast hstats
  have havg : (report (failures traces) stats).avgMmUtil
      = (stats.map Stats.util).sum / stats.length := rfl
  have hindex : (report (failures traces) stats).perfindex
      = (thruPart (stats.map Stats.ops).sum (stats.map Stats.secs).sum).map (fun p2 =>
          (UTIL_WEIGHT * (report (failures traces) stats).avgMmUtil + p2) * 100) := if_pos hall
  have hlow' : 0 ≤ (report (failures traces) stats).avgMmUtil := by
    rw [havg]
    exact div_nonneg hlow hpos.le
  have hhigh' : (report (failures traces) stats).avgMmUtil < 1 := by
    rw [havg, div_lt_one hpos]
    exact hhigh htraces
  have hopspos : (0 : ℚ) ≤ (stats.map Stats.ops).sum := by
    rw [hops]
    exact Nat.cast_nonneg _
  refine ⟨by rw [havg, hutil, hlen], hlow', hhigh', ⟨(stats.map Stats.ops).sum,
    (stats.map Stats.secs).sum, ?_, hops, fun x hx => ?_⟩, fun hsome => ?_⟩
  · rw [herrors, printTotals, if_pos hall, hfilter]
    rfl
  · rw [hindex] at hx
    obtain ⟨p2, hp2, rfl⟩ := Option.map_eq_some_iff.mp hx
    obtain ⟨h1, h2⟩ := thruPart_bounds hopspos hsecs hp2
    simp only [UTIL_WEIGHT] at h2 ⊢
    exact ⟨p2, hp2, by ring, h1, by linarith, by linarith, by linarith⟩
  · rw [hindex, Option.isSome_map]
    apply thruPart_isSome
    rw [hops]
    obtain ⟨trace, htrace, hne'⟩ := hsome
    have hle := List.single_le_sum (fun _ _ => Nat.zero_le _) _
      (List.mem_map_of_mem (f := fun trace : Trace => trace.ops.length) htrace)
    have hone := List.length_pos_of_ne_nil hne'
    exact_mod_cast (show 0 < _ from lt_of_lt_of_le hone hle)

end Main

theorem main_perfindex_sample : ∃ rep s' stats,
    (main sampleClock 0x10000000 sampleFiles).out (Session.initial sampleHeap)
        = some (.ok rep, s') ∧
      rep = report (failures sampleTraces) stats ∧
      (failures sampleTraces ≠ 0 → rep.perfindex = some 0 ∧ printTotals s'.errors stats = none) ∧
      (failures sampleTraces = 0 →
        rep.avgMmUtil = (sampleTraces.map Trace.utilization).sum / sampleTraces.length ∧
        0 ≤ rep.avgMmUtil ∧ rep.avgMmUtil < 1 ∧
        (∃ ops secs, printTotals s'.errors stats = some (rep.avgMmUtil, ops, secs) ∧
          ops = ((sampleTraces.map (fun trace => trace.ops.length)).sum : ℕ) ∧
          ∀ x, rep.perfindex = some x → ∃ p2, thruPart ops secs = some p2 ∧
            x = 60 * rep.avgMmUtil + 100 * p2 ∧ 0 ≤ p2 ∧ p2 ≤ 40 / 100 ∧ 0 ≤ x ∧ x < 100) ∧
        ((∃ trace ∈ sampleTraces, trace.ops ≠ []) → rep.perfindex.isSome)) :=
  main_perfindex (by decide) (by decide) (by decide) sampleFiles_load (List.cons_ne_nil _ _)
    (fun k => by norm_num [elapsed, sampleClock]) (by decide +kernel)

end MallocLab
