import MallocLab.Traces.GenRandom
import Mathlib.Data.Rat.Floor

set_option autoImplicit false

/-! # The trace file of the generator

An entry of the list is printed as one line. When every free is behind its allocation
(`Generated`), the lines of an id are one allocation and one free after it (`PairedLines`), and the
file is balanced (`BalancedFile`). The places of the frees are the sums of doubles, so one of them
can lie past the end of the list; `genRandom_balanced_iff` says when.
-/

namespace MallocLab

open Past Text

variable {K : Type} [Field K] [LinearOrder K] [FloorRing K]

/-! ## What is printed -/

def GenOp.cmd : GenOp → String
  | .a _ _ => "a"
  | .f _ => "f"

theorem words_line_a (seq : Nat) (size : Int) :
    words (GenOp.line (some (.a seq size))) = ["a", toString seq, toString size] := by
  calc words ("a" ++ " " ++ (toString seq ++ " " ++ toString size))
      = "a" :: words (toString seq ++ " " ++ toString size) := words_cons isWord_a _
    _ = "a" :: toString seq :: words (toString size) := by rw [words_cons (isWord_toString seq)]
    _ = ["a", toString seq, toString size] := by rw [words_word (isWord_toString_int size)]

theorem words_line_f (seq : Nat) : words (GenOp.line (some (.f seq))) = ["f", toString seq] :=
  words_free (isWord_toString seq)

theorem words_line (op : GenOp) :
    ∃ rest, words (GenOp.line (some op)) = op.cmd :: toString op.seq :: rest := by
  cases op with
  | a seq size => exact ⟨[toString size], words_line_a seq size⟩
  | f seq => exact ⟨[], words_line_f seq⟩

/-- A line requests what its entry says. -/
theorem requests_line_iff (op : GenOp) (cmd id : String) :
    Requests cmd id (GenOp.line (some op)) ↔ cmd = op.cmd ∧ id = toString op.seq := by
  obtain ⟨rest, hwords⟩ := words_line op
  exact requests_iff hwords cmd id

/-- The loop over the positions prints every entry. -/
theorem lines_eq {trace : List GenOp} {n : Nat} (hlen : trace.length = n) :
    (List.range n).map (fun i => GenOp.line (trace)[i]?)
      = trace.map (fun op => GenOp.line (some op)) := by
  apply List.ext_getElem
  · rw [List.length_map, List.length_map, List.length_range, hlen]
  · intro k hk _
    rw [List.length_map, List.length_range, ← hlen] at hk
    rw [List.getElem_map, List.getElem_map, List.getElem_range, List.getElem?_eq_getElem hk]

/-! ## The requests of an id -/

/-- The second word of the line is the id. -/
def About (id line : String) : Bool := (words line).getD 1 "" = id

theorem about_of_requests {cmd id line : String} (h : Requests cmd id line) :
    About id line = true := by
  rw [Requests] at h
  rcases hw : words line with _ | ⟨c, _ | ⟨i, rest⟩⟩
  · rw [hw] at h
    cases h
  · rw [hw] at h
    cases h
  · rw [hw] at h
    rw [About, hw]
    exact decide_eq_true (List.cons.inj (List.cons.inj h).2).1

/-- **The pair of lines** of an id. -/
theorem Generated.lines_about {n j : Nat} {trace : List GenOp} (hG : Generated n n trace)
    (hj : j < n) : ∃ size, (trace.map (fun op => GenOp.line (some op))).filter (About (toString j))
      = [GenOp.line (some (.a j size)), GenOp.line (some (.f j))] := by
  obtain ⟨size, hentries⟩ := hG.entries j hj
  rw [if_pos hj] at hentries
  have habout : ∀ op : GenOp,
      About (toString j) (GenOp.line (some op)) = decide (op.seq = j) := by
    intro op
    obtain ⟨rest, hwords⟩ := words_line op
    rw [About, hwords]
    exact decide_eq_decide.mpr toString_inj
  refine ⟨size, ?_⟩
  calc (trace.map (fun op => GenOp.line (some op))).filter (About (toString j))
      = (trace.filter (fun op => About (toString j) (GenOp.line (some op)))).map
          (fun op => GenOp.line (some op)) := List.filter_map
    _ = (trace.filter (fun op => op.seq = j)).map (fun op => GenOp.line (some op)) := by
        simp only [habout]
    _ = [GenOp.line (some (.a j size)), GenOp.line (some (.f j))] := by
        rw [hentries]
        rfl

/-- The lines of an id below `n` in the finished trace: one allocation and one free behind it,
which come where they may. -/
structure PairedLines (id : String) (lines : List String) : Prop where
  allocated : lines.countP (fun l => Requests "a" id l) = 1
  freed : lines.countP (fun l => Requests "f" id l) = 1
  order : AllocatedAndFreed lines id
  opens : AtEach (fun pre l => Requests "a" id l → ¬Allocated pre id) lines
  closes : AtEach (fun pre l => Requests "f" id l → Allocated pre id) lines
  closed : ¬Allocated lines id

theorem Generated.pairedLines {n j : Nat} {trace : List GenOp} (hG : Generated n n trace)
    (hj : j < n) : PairedLines (toString j) (trace.map (fun op => GenOp.line (some op))) := by
  obtain ⟨size, hpair⟩ := hG.lines_about hj
  generalize trace.map (fun op => GenOp.line (some op)) = lines at hpair
  have hP : ∀ l, Requests "a" (toString j) l → About (toString j) l = true :=
    fun l => about_of_requests
  have hQ : ∀ l, Requests "f" (toString j) l → About (toString j) l = true :=
    fun l => about_of_requests
  have ha : Requests "a" (toString j) (GenOp.line (some (.a j size))) :=
    (requests_line_iff _ _ _).mpr ⟨rfl, rfl⟩
  have hf : Requests "f" (toString j) (GenOp.line (some (.f j))) :=
    (requests_line_iff _ _ _).mpr ⟨rfl, rfl⟩
  have haf : ¬Requests "f" (toString j) (GenOp.line (some (.a j size))) :=
    fun h => absurd (show "f" = "a" from ((requests_line_iff _ _ _).mp h).1) (by decide)
  have hfa : ¬Requests "a" (toString j) (GenOp.line (some (.f j))) :=
    fun h => absurd (show "a" = "f" from ((requests_line_iff _ _ _).mp h).1) (by decide)
  obtain ⟨hopens, hcloses, hclosed⟩ := pair_rules hP hQ hpair ha haf hf hfa
  obtain ⟨L, M, R, horder⟩ := pair_order hpair
  refine ⟨?_, ?_, ?_, hopens, hcloses, hclosed⟩
  · exact pair_once hP hpair (iff_of_true ha hfa)
  · exact pair_once hQ hpair (iff_of_false haf (not_not.mpr hf))
  · exact ⟨L, _, M, _, R, horder, ha, hf⟩

/-! ## The trace is balanced -/

/-- A line of an id below `n`. -/
def RequestBelow (n : Nat) (line : String) : Prop :=
  ∃ j < n, (∃ size, words line = ["a", toString j, size]) ∨ words line = ["f", toString j]

theorem Generated.requestBelow {n : Nat} {trace : List GenOp} (hG : Generated n n trace) :
    ∀ line ∈ trace.map (fun op => GenOp.line (some op)), RequestBelow n line := by
  intro line hline
  obtain ⟨op, hop, rfl⟩ := List.mem_map.mp hline
  refine ⟨op.seq, hG.seqs op hop, ?_⟩
  cases op with
  | a seq size => exact Or.inl ⟨toString size, words_line_a seq size⟩
  | f seq => exact Or.inr (words_line_f seq)

theorem RequestBelow.isRequest {n : Nat} {line : String} (h : RequestBelow n line) :
    IsRequest line := by
  obtain ⟨j, -, ⟨size, hw⟩ | hw⟩ := h
  · exact ⟨toString j, size, Or.inl hw⟩
  · exact ⟨toString j, "", Or.inr (Or.inr hw)⟩

/-- Lines of ids below `n`, each id with its pair, fit and leave nothing allocated. -/
theorem consistent_of_pairedLines {n : Nat} {lines : List String}
    (hbelow : ∀ line ∈ lines, RequestBelow n line)
    (hpairs : ∀ j < n, PairedLines (toString j) lines) :
    Consistent lines ∧ ∀ id, ¬Allocated lines id := by
  constructor
  · intro pre line post hl
    have hmem : line ∈ lines := by
      rw [hl]
      exact List.mem_append_right pre List.mem_cons_self
    obtain ⟨j, hj, ⟨size, hw⟩ | hw⟩ := hbelow line hmem
    · have hreq : Requests "a" (toString j) line := (requests_iff hw _ _).mpr ⟨rfl, rfl⟩
      have hfree : ¬Allocated pre (toString j) := (hpairs j hj).opens pre line post hl hreq
      rw [misused_iff hw]
      simpa using hfree
    · have hreq : Requests "f" (toString j) line := (requests_iff hw _ _).mpr ⟨rfl, rfl⟩
      have hheld : Allocated pre (toString j) := (hpairs j hj).closes pre line post hl hreq
      rw [misused_iff hw]
      simpa using hheld
  · intro id hheld
    obtain ⟨line, hline, hreq⟩ := Since.exists_mem hheld
    obtain ⟨j, hj, ⟨size, hw⟩ | hw⟩ := hbelow line hline
    · obtain ⟨-, rfl⟩ := (requests_iff hw _ _).mp hreq
      exact (hpairs j hj).closed hheld
    · obtain ⟨hcmd, -⟩ := (requests_iff hw _ _).mp hreq
      exact absurd hcmd (by decide)

/-- `out` is a trace file of the ids below `n`, each allocated once and then freed once, with the
header that this needs, and `checktrace.pl` has nothing to add. -/
structure BalancedFile (n : Nat) (out : List String) : Prop where
  numIds : number (out.getD 1 "") = n
  numOps : number (out.getD 2 "") = (out.drop 4).length
  length : (out.drop 4).length = 2 * n
  below : ∀ line ∈ out.drop 4, RequestBelow n line
  allocated : ∀ j < n, (out.drop 4).countP (fun l => Requests "a" (toString j) l) = 1
  freed : ∀ j < n, (out.drop 4).countP (fun l => Requests "f" (toString j) l) = 1
  order : ∀ j < n, AllocatedAndFreed (out.drop 4) (toString j)
  summary : checktrace true out = .ok ["Balanced trace."]
  unchanged : checktrace false out = .ok out

theorem balancedFile_of_pairedLines {n : Nat} {lines : List String} (h1 h4 : String)
    (hlen : lines.length = 2 * n) (hbelow : ∀ line ∈ lines, RequestBelow n line)
    (hpairs : ∀ j < n, PairedLines (toString j) lines) :
    BalancedFile n (h1 :: toString n :: toString (2 * n) :: h4 :: lines) := by
  have hrequest : ∀ line ∈ lines, IsRequest line := fun line hl => (hbelow line hl).isRequest
  obtain ⟨hcons, hnone⟩ := consistent_of_pairedLines hbelow hpairs
  obtain ⟨ids, -, hids, htrue, hfalse⟩ := checktrace_ok h1 (toString n) (toString (2 * n)) h4
    (fun line hl => Or.inl (hrequest line hl)) hcons
  have hempty : ids = [] :=
    List.eq_nil_iff_forall_not_mem.mpr fun id hid => hnone id ((hids id).mp hid)
  have hkept : requests lines = lines := by
    refine List.filter_eq_self.mpr (fun line hl => ?_)
    obtain ⟨j, -, ⟨size, hw⟩ | hw⟩ := hbelow line hl
    · exact decide_eq_true (not_blank hw)
    · exact decide_eq_true (not_blank hw)
  refine ⟨number_toString n, ?_, hlen, hbelow, fun j hj => (hpairs j hj).allocated,
    fun j hj => (hpairs j hj).freed, fun j hj => (hpairs j hj).order, ?_, ?_⟩
  · exact (number_toString (2 * n)).trans hlen.symm
  · rw [htrue, hempty]
    rfl
  · rw [hfalse, hempty, hkept, number_toString]
    simp

/-- The file has its header and a line for each entry. -/
theorem genRandom_file {numBlocks maxBlkSize : Nat} {draw : Nat → K → K}
    (hG : Generated numBlocks numBlocks (insertFrees numBlocks maxBlkSize draw numBlocks)) :
    genRandom numBlocks maxBlkSize draw
      = toString ((pushAllocs maxBlkSize draw numBlocks).2 + 100) :: toString numBlocks ::
        toString (2 * numBlocks) :: "1" :: (insertFrees numBlocks maxBlkSize draw numBlocks).map
          (fun op => GenOp.line (some op)) := by
  have hlen : (insertFrees numBlocks maxBlkSize draw numBlocks).length = 2 * numBlocks := by
    rw [hG.length, two_mul]
  rw [genRandom, lines_eq hlen]
  rfl

theorem genRandom_balancedFile {numBlocks maxBlkSize : Nat} {draw : Nat → K → K}
    (hG : Generated numBlocks numBlocks (insertFrees numBlocks maxBlkSize draw numBlocks)) :
    BalancedFile numBlocks (genRandom numBlocks maxBlkSize draw) := by
  rw [genRandom_file hG]
  refine balancedFile_of_pairedLines _ "1" ?_ hG.requestBelow (fun j hj => hG.pairedLines hj)
  rw [List.length_map, hG.length, two_mul]

/-! ## When every place is in the list -/

/-- Every round finds its allocation and a place in the list, and the file is balanced. -/
structure WellGenerated (numBlocks maxBlkSize : Nat) (draw : Nat → K → K) : Prop where
  rounds : ∀ i < numBlocks,
    RoundFits numBlocks i draw (insertFrees numBlocks maxBlkSize draw i)
  balanced : BalancedFile numBlocks (genRandom numBlocks maxBlkSize draw)

/-- The sum of round `i`, as a double, is between the positions that are behind the allocation and
in the list. -/
def SumInRange (numBlocks i : Nat) (draw : Nat → K → K) (trace : List GenOp) : Prop :=
  let minval := searched numBlocks i trace
  let drawn := rand draw (numBlocks + i) ((numBlocks : K) + i - minval - 1)
  ((minval + 1 : Nat) : K) ≤ posSum drawn minval ∧ posSum drawn minval < (numBlocks + i + 1 : Nat)

/-- Before the last round: when the allocation of the last id ends the list, the draw does not
round up. -/
def LastDrawFits (numBlocks : Nat) (draw : Nat → K → K) (trace : List GenOp) : Prop :=
  trace.getLast?.any (GenOp.allocates (numBlocks - 1)) = true →
    StaysBelow numBlocks (rand draw (numBlocks + (numBlocks - 1)) 0)

section Last

variable [IsStrictOrderedRing K] {draw : Nat → K → K}

theorem sumInRange_iff (numBlocks i : Nat) (trace : List GenOp) :
    SumInRange numBlocks i draw trace ↔
      searched numBlocks i trace < freePos numBlocks draw i (searched numBlocks i trace) ∧
        freePos numBlocks draw i (searched numBlocks i trace) ≤ (numBlocks + i : Nat) := by
  rw [freePos, lt_int_iff, int_le_iff]
  rfl

/-- The rounds that fit are those whose sum is in the range. -/
theorem wellGenerated_iff_sums (numBlocks maxBlkSize : Nat) :
    WellGenerated numBlocks maxBlkSize draw ↔ ∀ i < numBlocks,
      SumInRange numBlocks i draw (insertFrees numBlocks maxBlkSize draw i) := by
  constructor
  · intro h i hi
    obtain ⟨hlen, -, hbehind, hin⟩ := h.rounds i hi
    rw [hlen] at hin
    exact (sumInRange_iff numBlocks i _).mpr ⟨hbehind, hin⟩
  · intro h
    have hG : ∀ i ≤ numBlocks,
        Generated numBlocks i (insertFrees numBlocks maxBlkSize draw i) := by
      intro i hi
      refine generated_insertFrees_of numBlocks maxBlkSize hi fun j hj _ => ?_
      exact ((sumInRange_iff numBlocks j _).mp (h j (by omega))).1
    refine ⟨fun i hi => ?_, genRandom_balancedFile (hG numBlocks (le_refl _))⟩
    exact ((hG i hi.le).roundFits_iff hi).mpr ((sumInRange_iff numBlocks i _).mp (h i hi))

/-- The place of the last round. -/
theorem last_freePos_le_iff (hdraw : ∀ n x, 0 < x → 0 ≤ draw n x ∧ draw n x < x)
    {numBlocks : Nat} (hn : 1 ≤ numBlocks) (hexact : 2 * numBlocks ≤ 2 ^ 52)
    {trace : List GenOp} (hG : Generated numBlocks (numBlocks - 1) trace) :
    freePos numBlocks draw (numBlocks - 1) (searched numBlocks (numBlocks - 1) trace)
      ≤ (numBlocks + (numBlocks - 1) : Nat) ↔ LastDrawFits numBlocks draw trace := by
  have hlt := hG.searched_lt (by omega)
  rw [LastDrawFits, ← hG.searched_last_iff (by omega)]
  by_cases hlast : searched numBlocks (numBlocks - 1) trace + 1 = numBlocks + (numBlocks - 1)
  · have hmin : searched numBlocks (numBlocks - 1) trace = 2 * numBlocks - 2 := by omega
    have hrange : (numBlocks : K) + (numBlocks - 1 : Nat)
        - searched numBlocks (numBlocks - 1) trace - 1 = 0 := by
      rw [range_eq hlt, show numBlocks + (numBlocks - 1)
        - searched numBlocks (numBlocks - 1) trace - 1 = 0 by omega, Nat.cast_zero]
    obtain ⟨h0, h1⟩ := rand_bounds hdraw (numBlocks + (numBlocks - 1)) (le_refl (0 : K))
    rw [if_pos rfl] at h1
    rw [freePos, int_le_iff, hrange, hmin, show numBlocks + (numBlocks - 1) + 1 = 2 * numBlocks by
      omega, staysBelow_iff hn hexact h0 h1]
    exact ⟨fun h _ => h, fun h => h (by omega)⟩
  · refine iff_of_true ?_ (fun h => absurd h hlast)
    exact (freePos_bounds hdraw hlt (by omega) hexact).2 (by omega)

theorem wellGenerated_iff_last (hdraw : ∀ n x, 0 < x → 0 ≤ draw n x ∧ draw n x < x)
    {numBlocks : Nat} (hn : 1 ≤ numBlocks) (hexact : 2 * numBlocks ≤ 2 ^ 52) (maxBlkSize : Nat) :
    WellGenerated numBlocks maxBlkSize draw ↔
      LastDrawFits numBlocks draw (insertFrees numBlocks maxBlkSize draw (numBlocks - 1)) := by
  have hG : ∀ i ≤ numBlocks, Generated numBlocks i (insertFrees numBlocks maxBlkSize draw i) :=
    fun i hi => generated_insertFrees hdraw hexact maxBlkSize hi
  rw [← last_freePos_le_iff hdraw hn hexact (hG _ (Nat.sub_le _ _))]
  constructor
  · intro h
    exact (((hG _ (Nat.sub_le _ _)).roundFits_iff (by omega)).mp
      (h.rounds (numBlocks - 1) (by omega))).2
  · intro hlast
    refine ⟨fun i hi => ?_, genRandom_balancedFile (hG numBlocks (le_refl _))⟩
    obtain ⟨hbehind, hin⟩ := freePos_bounds hdraw ((hG i hi.le).searched_lt hi) hi hexact
    refine ((hG i hi.le).roundFits_iff hi).mpr ⟨hbehind, ?_⟩
    by_cases hi' : i + 1 < numBlocks
    · exact hin ((hG i hi.le).searched_succ_lt hi')
    · obtain rfl : i = numBlocks - 1 := by omega
      exact hlast

/-! ## Frees right behind their allocations -/

/-- With a draw of 0 the free is put right behind. -/
theorem freePos_of_zero {numBlocks i : Nat} (hzero : ∀ x, draw (numBlocks + i) x = 0)
    (minval : Nat) : freePos numBlocks draw i minval = minval + 1 := by
  have hrand : ∀ x, rand draw (numBlocks + i) x = ((0 : Nat) : K) := by
    intro x
    rw [rand, hzero, Nat.cast_zero]
  rw [freePos, hrand, posSum_natCast, int, if_pos (Nat.cast_nonneg _), Int.floor_natCast]
  push_cast
  ring

theorem getLast?_splice {trace : List GenOp} {pos : Nat} (hpos : pos < trace.length) (op : GenOp) :
    (splice trace pos op).getLast? = trace.getLast? := by
  obtain ⟨x, rest, hrest⟩ := List.exists_cons_of_length_pos
    (show 0 < (trace.drop pos).length by rw [List.length_drop]; omega)
  calc (trace.take pos ++ op :: trace.drop pos).getLast?
      = (trace.drop pos).getLast? := by
        rw [hrest, List.getLast?_append, List.getLast?_cons_cons,
          List.getLast?_eq_some_getLast (List.cons_ne_nil x rest), Option.some_or]
    _ = trace.getLast? := by rw [List.getLast?_drop, if_neg (by omega)]

/-- When all draws before the last round are 0, the last allocation stays at the end. -/
theorem getLast?_insertFrees {numBlocks : Nat} (maxBlkSize : Nat)
    (hzero : ∀ i < numBlocks - 1, ∀ x, draw (numBlocks + i) x = 0) {i : Nat}
    (hi : i + 1 ≤ numBlocks) :
    Generated numBlocks i (insertFrees numBlocks maxBlkSize draw i) ∧
      (insertFrees numBlocks maxBlkSize draw i).getLast?.any (GenOp.allocates (numBlocks - 1))
        = true := by
  induction i with
  | zero =>
      refine ⟨generated_pushAllocs maxBlkSize draw numBlocks, ?_⟩
      obtain ⟨n, rfl⟩ : ∃ n, numBlocks = n + 1 := ⟨numBlocks - 1, by omega⟩
      rw [insertFrees, pushAllocs, List.getLast?_concat]
      exact beq_self_eq_true n
  | succ i ih =>
      obtain ⟨hG, hlast⟩ := ih (by omega)
      have hpos := freePos_of_zero (hzero i (by omega))
        (searched numBlocks i (insertFrees numBlocks maxBlkSize draw i))
      rw [insertFrees, hpos]
      refine ⟨hG.round (by omega) (Int.lt_succ _), ?_⟩
      have hless := hG.searched_succ_lt hi
      rw [← hG.length] at hless
      rw [← Int.natCast_succ, getLast?_splice hless]
      exact hlast

end Last

/-- **The generator.** Every round finds its allocation and a place in the list, and the trace that
is printed is balanced, exactly when the sum of every round is in the range. As long as positions
are exact doubles, this is a condition on the draw of the last round only, and the trace is balanced
without it: past the end of the list `splice` appends. -/
theorem genRandom_balanced_iff [IsStrictOrderedRing K] {numBlocks : Nat} (hn : 1 ≤ numBlocks)
    (maxBlkSize : Nat) {draw : Nat → K → K}
    (hdraw : ∀ n x, 0 < x → 0 ≤ draw n x ∧ draw n x < x) :
    (WellGenerated numBlocks maxBlkSize draw ↔ ∀ i < numBlocks,
        SumInRange numBlocks i draw (insertFrees numBlocks maxBlkSize draw i)) ∧
      (2 * numBlocks ≤ 2 ^ 52 →
        BalancedFile numBlocks (genRandom numBlocks maxBlkSize draw) ∧
        (WellGenerated numBlocks maxBlkSize draw ↔ LastDrawFits numBlocks draw
          (insertFrees numBlocks maxBlkSize draw (numBlocks - 1)))) := by
  refine ⟨wellGenerated_iff_sums numBlocks maxBlkSize, fun hexact => ⟨?_, ?_⟩⟩
  · exact genRandom_balancedFile (generated_insertFrees hdraw hexact maxBlkSize (le_refl _))
  · exact wellGenerated_iff_last hdraw hn hexact maxBlkSize

/-- Three blocks, with draws from the middle of each range. -/
theorem genRandom_balanced_iff_sample : WellGenerated 3 64 (fun _ (x : Rat) => x / 2) := by
  have hdraw : ∀ (n : Nat) (x : Rat), 0 < x → 0 ≤ x / 2 ∧ x / 2 < x :=
    fun _ x hx => ⟨by linarith, by linarith⟩
  have hlast := ((genRandom_balanced_iff (show 1 ≤ 3 by decide) 64 hdraw).2 (by decide)).2
  refine hlast.mpr (fun _ => ?_)
  have hlog : Nat.log 2 (2 * 3 - 1) = 2 := by decide
  norm_num [StaysBelow, rand, hlog]

/-- The frees of 40 blocks right behind their allocations, and then the number before 1 among the
multiples of `2 ^ -48`, which are what Perl draws from. -/
def lateDraw (k : Nat) (x : Rat) : Rat :=
  if k < 40 then x / 2 else if k = 79 then x * (1 - 1 / 2 ^ 48) else 0

/-- The last free is put at position 80 of a list of 79 entries. -/
theorem genRandom_past_end :
    (∀ k x, 0 < x → 0 ≤ lateDraw k x ∧ lateDraw k x < x) ∧ ¬WellGenerated 40 32768 lateDraw := by
  have hdraw : ∀ k x, 0 < x → 0 ≤ lateDraw k x ∧ lateDraw k x < x := by
    intro k x hx
    unfold lateDraw
    split_ifs
    · exact ⟨by linarith, by linarith⟩
    · norm_num
      exact ⟨by linarith, by linarith⟩
    · exact ⟨le_refl 0, hx⟩
  refine ⟨hdraw, ?_⟩
  rw [wellGenerated_iff_last hdraw (by decide) (by decide)]
  intro hfits
  have hzero : ∀ i < 40 - 1, ∀ x, lateDraw (40 + i) x = 0 := by
    intro i hi x
    rw [lateDraw, if_neg (by omega), if_neg (by omega)]
  have hstays := hfits (getLast?_insertFrees 32768 hzero (show 39 + 1 ≤ 40 by decide)).2
  have hlog : Nat.log 2 (2 * 40 - 1) = 6 := by decide
  norm_num [StaysBelow, rand, lateDraw, hlog] at hstays

end MallocLab
