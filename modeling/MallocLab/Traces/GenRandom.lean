import MallocLab.Lib.Rounding
import MallocLab.Traces.CheckTrace

set_option autoImplicit false

/-! # The trace generator (`gen_random.pl`)

The script allocates all ids in order, and then puts the free of each id somewhere behind its
allocation, into the list that it searches for the next one. Before round `i` the entries of an
id are its allocation, and behind it the free if the id is below `i`, and the allocations are
still in order (`Generated`): so the allocation of `i` is found, at position `i` or later, and
the trace that is printed is balanced (`genRandom_balanced`). Numbers are from any ordered field
with a floor function, and each call of `rand` gives any value that it may give.
-/

namespace MallocLab

open Past Rounding Text

variable {K : Type} [Field K] [LinearOrder K] [FloorRing K]

/-! ## The script -/

/-- `rand $x` at its `n`-th call, where `draw n x` is what it draws from the range `x`; the range
0 is taken for 1. -/
def rand (draw : Nat → K → K) (n : Nat) (x : K) : K := draw n (if x = 0 then 1 else x)

/-- `int`, which cuts off towards 0. -/
def int (x : K) : Int := if 0 ≤ x then ⌊x⌋ else ⌈x⌉

/-- `+`, which adds integers as such, and other numbers as doubles. -/
def plus (x y : K) : K := if x = ⌊x⌋ ∧ y = ⌊y⌋ then x + y else double (x + y)

/-- `$op`, by its `type`. -/
inductive GenOp where
  | a (seq : Nat) (size : Int)
  | f (seq : Nat)
  deriving DecidableEq, Repr

def GenOp.seq : GenOp → Nat
  | .a seq _ => seq
  | .f seq => seq

/-- The test of the search: the type is "a" and the id is `i`. -/
def GenOp.allocates (i : Nat) : GenOp → Bool
  | .a seq _ => seq == i
  | .f _ => false

/-- `@trace` and `$total_block_size` after `i` rounds of the first loop. -/
def pushAllocs (maxBlkSize : Nat) (draw : Nat → K → K) : Nat → List GenOp × Int
  | 0 => ([], 0)
  | i + 1 =>
      let size := int (rand draw i (maxBlkSize : K))
      ((pushAllocs maxBlkSize draw i).1 ++ [.a i size],
        (pushAllocs maxBlkSize draw i).2 + size)

/-- The search of `$minval` over the next `left` positions. In Perl a position past the end would
get an entry when it is read; none is read there (`RoundFits`). -/
def findAlloc (trace : List GenOp) (i : Nat) : Nat → Nat → Nat
  | 0, minval => minval
  | left + 1, minval =>
      if (trace)[minval]?.any (GenOp.allocates i) then minval
      else findAlloc trace i left (minval + 1)

/-- `$minval` in round `i` of the second loop. -/
def searched (numBlocks i : Nat) (trace : List GenOp) : Nat := findAlloc trace i numBlocks i

/-- The sum whose integer part is `$pos`, for the number `drawn` that `rand` gives. -/
def posSum (drawn : K) (minval : Nat) : K := plus (plus drawn minval) 1

/-- `$pos` in round `i`, after `numBlocks` draws for the sizes and `i` for the rounds before. -/
def freePos (numBlocks : Nat) (draw : Nat → K → K) (i minval : Nat) : Int :=
  int (posSum (rand draw (numBlocks + i) ((numBlocks : K) + i - minval - 1)) minval)

/-- `splice @trace, $pos, 0, $op` at a position from the front; past the end it appends. -/
def splice (trace : List GenOp) (pos : Int) (op : GenOp) : List GenOp :=
  trace.take pos.toNat ++ op :: trace.drop pos.toNat

/-- `@trace` after `i` rounds of the second loop. -/
def insertFrees (numBlocks maxBlkSize : Nat) (draw : Nat → K → K) : Nat → List GenOp
  | 0 => (pushAllocs maxBlkSize draw numBlocks).1
  | i + 1 =>
      let trace := insertFrees numBlocks maxBlkSize draw i
      splice trace (freePos numBlocks draw i (searched numBlocks i trace)) (.f i)

/-- The line that is printed for `$trace[$i]`; an undefined value prints as nothing. -/
def GenOp.line : Option GenOp → String
  | some (.a seq size) => "a" ++ " " ++ (toString seq ++ " " ++ toString size)
  | some (.f seq) => "f" ++ " " ++ toString seq
  | none => " "

/-- The lines of the trace file, for any number of blocks and largest size. -/
def genRandom (numBlocks maxBlkSize : Nat) (draw : Nat → K → K) : List String :=
  let trace := insertFrees numBlocks maxBlkSize draw numBlocks
  let suggestedHeapSize := (pushAllocs maxBlkSize draw numBlocks).2 + 100
  let numOps := 2 * numBlocks
  [toString suggestedHeapSize, toString numBlocks, toString numOps, "1"]
    ++ (List.range (2 * numBlocks)).map (fun i => GenOp.line (trace)[i]?)

/-- The script as it stands. It looks for its arguments in `@argv` and not in `@ARGV`, finds
none, and takes the defaults. -/
def genRandomScript (draw : Nat → K → K) : List String := genRandom 2400 32768 draw

/-! ## The trace before each round -/

def GenOp.isAlloc : GenOp → Bool
  | .a _ _ => true
  | .f _ => false

/-- The trace before round `i` of the second loop. -/
structure Generated (numBlocks i : Nat) (trace : List GenOp) : Prop where
  length : trace.length = numBlocks + i
  seqs : ∀ op ∈ trace, op.seq < numBlocks
  inOrder : (trace.filter GenOp.isAlloc).map GenOp.seq = List.range numBlocks
  entries : ∀ j < numBlocks, ∃ size, trace.filter (fun op => op.seq = j)
    = if j < i then [.a j size, .f j] else [.a j size]

/-- One more allocation, with a new id. -/
theorem Generated.push {n : Nat} {trace : List GenOp} (hG : Generated n 0 trace) (size : Int) :
    Generated (n + 1) 0 (trace ++ [.a n size]) := by
  refine ⟨?_, fun op hop => ?_, ?_, fun j hj => ?_⟩
  · rw [List.length_append, hG.length]
    rfl
  · rcases List.mem_append.mp hop with hop | hop
    · exact Nat.lt_succ_of_lt (hG.seqs op hop)
    · rw [List.mem_singleton.mp hop]
      exact Nat.lt_succ_self n
  · rw [List.filter_append, List.map_append, hG.inOrder, List.range_succ]
    rfl
  · rw [List.filter_append]
    rcases Nat.lt_succ_iff_lt_or_eq.mp hj with hj | rfl
    · obtain ⟨size', hentries⟩ := hG.entries j hj
      have hother : [GenOp.a n size].filter (fun op => op.seq = j) = [] :=
        List.filter_cons_of_neg (by simp [GenOp.seq, (Nat.ne_of_lt hj).symm])
      exact ⟨size', by rw [hentries, hother, List.append_nil]⟩
    · have hnew : trace.filter (fun op => op.seq = j) = [] := by
        rw [List.filter_eq_nil_iff]
        intro op hop hseq
        exact absurd (of_decide_eq_true hseq) (Nat.ne_of_lt (hG.seqs op hop))
      refine ⟨size, ?_⟩
      rw [hnew, if_neg (Nat.not_lt_zero j), List.nil_append]
      exact List.filter_cons_of_pos (by simp [GenOp.seq])

/-- **The first loop** allocates all ids in order. -/
theorem generated_pushAllocs (maxBlkSize : Nat) (draw : Nat → K → K) (n : Nat) :
    Generated n 0 (pushAllocs maxBlkSize draw n).1 := by
  induction n with
  | zero =>
      exact ⟨rfl, fun _ hop => (nomatch hop), rfl, fun j hj => absurd hj (Nat.not_lt_zero j)⟩
  | succ n ih => exact ih.push _

/-! ## The search -/

/-- The search ends at the first position that passes the test. -/
theorem findAlloc_eq {trace : List GenOp} {i k : Nat} {op : GenOp} (hk : (trace)[k]? = some op)
    (hop : op.allocates i = true)
    (hbefore : ∀ n < k, ∀ op', (trace)[n]? = some op' → op'.allocates i = false)
    (left : Nat) {minval : Nat} (hle : minval ≤ k) (hlt : k < minval + left) :
    findAlloc trace i left minval = k := by
  induction left generalizing minval with
  | zero => omega
  | succ left ih =>
      rw [findAlloc]
      rcases Nat.lt_or_eq_of_le hle with hless | rfl
      · have hnot : ¬((trace)[minval]?.any (GenOp.allocates i)) = true := by
          rw [Option.any_eq_true]
          rintro ⟨op', hget, hpass⟩
          rw [hbefore minval hless op' hget] at hpass
          exact Bool.false_ne_true hpass
        rw [if_neg hnot]
        exact ih hless (by omega)
      · rw [hk]
        exact if_pos hop

/-- What passes the test is the entry of the id that is not a free. -/
theorem seq_of_allocates {op : GenOp} {i : Nat} (h : op.allocates i = true) : op.seq = i := by
  cases op with
  | a seq size => exact beq_iff_eq.mp h
  | f seq => exact absurd h Bool.false_ne_true

/-- The allocations are in order, so that of `i` has `i` others before it. -/
theorem Generated.le_length {numBlocks i : Nat} {size : Int} {trace L R : List GenOp}
    (hG : Generated numBlocks i trace) (htrace : trace = L ++ .a i size :: R) : i ≤ L.length := by
  have horder := hG.inOrder
  rw [htrace, List.filter_append, List.filter_cons_of_pos rfl, List.map_append,
    List.map_cons] at horder
  have hget : (List.range numBlocks)[((L.filter GenOp.isAlloc).map GenOp.seq).length]? = some i := by
    rw [← horder]
    simp [GenOp.seq]
  obtain ⟨hlt, heq⟩ := List.getElem?_eq_some_iff.mp hget
  rw [List.getElem_range, List.length_map] at heq
  calc i = (L.filter GenOp.isAlloc).length := heq.symm
    _ ≤ L.length := List.length_filter_le _ _

/-- **The search** finds the allocation of `i`, which is the only entry of `i`. -/
theorem Generated.search {numBlocks i : Nat} {trace : List GenOp}
    (hG : Generated numBlocks i trace) (hi : i < numBlocks) :
    ∃ size, (trace)[searched numBlocks i trace]? = some (.a i size) ∧
      trace.filter (fun op => op.seq = i) = [.a i size] := by
  obtain ⟨size, hentry⟩ := hG.entries i hi
  rw [if_neg (Nat.lt_irrefl i)] at hentry
  obtain ⟨L, R, htrace, hL, -, -⟩ := List.filter_eq_cons_iff.mp hentry
  have hget : (trace)[L.length]? = some (.a i size) := by
    rw [htrace]
    simp
  have hbefore : ∀ n < L.length, ∀ op', (trace)[n]? = some op' → op'.allocates i = false := by
    intro n hn op' hop'
    rw [htrace, List.getElem?_append_left hn] at hop'
    rw [← Bool.not_eq_true]
    intro hpass
    exact hL op' (List.mem_of_getElem? hop') (decide_eq_true (seq_of_allocates hpass))
  have hlen := hG.length
  have hlow := hG.le_length htrace
  rw [htrace, List.length_append, List.length_cons] at hlen
  have hfound : searched numBlocks i trace = L.length :=
    findAlloc_eq hget (beq_self_eq_true i) hbefore numBlocks hlow (by omega)
  exact ⟨size, by rw [hfound, hget], hentry⟩

/-! ## Sums of doubles -/

section Sums

variable [IsStrictOrderedRing K]

theorem plus_eq_double {x y : K} (hx : 0 ≤ x) (hy : 0 ≤ y) (h : x + y < 2 ^ 53) :
    plus x y = double (x + y) := by
  rw [plus]
  by_cases hint : x = ⌊x⌋ ∧ y = ⌊y⌋
  · have hsum : x + y = ((⌊x⌋ + ⌊y⌋ : Int) : K) := by
      rw [Int.cast_add, ← hint.1, ← hint.2]
    have hnonneg : 0 ≤ ⌊x⌋ + ⌊y⌋ := add_nonneg (Int.floor_nonneg.mpr hx) (Int.floor_nonneg.mpr hy)
    rw [if_pos hint, hsum, double_intCast]
    rw [abs_of_nonneg hnonneg]
    rw [hsum] at h
    exact_mod_cast h
  · exact if_neg hint

theorem plus_natCast (a b : Nat) : plus (a : K) b = a + b := by
  rw [plus, if_pos]
  rw [Int.floor_natCast, Int.floor_natCast, Int.cast_natCast, Int.cast_natCast]
  exact ⟨rfl, rfl⟩

theorem plus_mono {x x' y : K} (hx : 0 ≤ x) (hle : x ≤ x') (hy : 0 ≤ y) (h : x' + y < 2 ^ 53) :
    plus x y ≤ plus x' y := by
  rw [plus_eq_double hx hy (by linarith), plus_eq_double (hx.trans hle) hy h]
  exact double_mono (add_nonneg hx hy) (by linarith)

theorem plus_nonneg {x y : K} (hx : 0 ≤ x) (hy : 0 ≤ y) (h : x + y < 2 ^ 53) : 0 ≤ plus x y := by
  rw [plus_eq_double hx hy h]
  exact double_nonneg (add_nonneg hx hy)

/-- Integers are added without an error. -/
theorem posSum_natCast (r minval : Nat) : posSum (r : K) minval = (r + minval + 1 : Nat) := by
  calc plus (plus (r : K) minval) 1
      = plus ((r + minval : Nat) : K) (1 : Nat) := by
        rw [plus_natCast, Nat.cast_add, Nat.cast_one]
    _ = (r + minval + 1 : Nat) := by
        rw [plus_natCast]
        push_cast
        rfl

/-- The sum is at least `minval + 1`, and a draw of at most `r` adds at most `r`. -/
theorem posSum_bounds {drawn : K} {minval r : Nat} (h0 : 0 ≤ drawn) (hr : drawn ≤ r)
    (hexact : r + minval + 1 < 2 ^ 53) :
    ((minval + 1 : Nat) : K) ≤ posSum drawn minval ∧
      posSum drawn minval ≤ (r + minval + 1 : Nat) := by
  have hcast : (r : K) + minval + 1 < 2 ^ 53 := by exact_mod_cast hexact
  have hmin : (0 : K) ≤ minval := Nat.cast_nonneg minval
  have htop : plus (r : K) minval + 1 < 2 ^ 53 := by rwa [plus_natCast]
  have hle : plus drawn minval ≤ plus (r : K) minval := plus_mono h0 hr hmin (by linarith)
  have hlow : plus ((0 : Nat) : K) minval ≤ plus drawn minval :=
    plus_mono (Nat.cast_nonneg 0) (by simpa using h0) hmin (by linarith)
  have hzero : 0 ≤ plus ((0 : Nat) : K) minval := by
    rw [plus_natCast, Nat.cast_zero, zero_add]
    exact hmin
  constructor
  · calc ((minval + 1 : Nat) : K) = posSum ((0 : Nat) : K) minval := by
          rw [posSum_natCast, Nat.zero_add]
      _ ≤ posSum drawn minval := plus_mono hzero hlow zero_le_one (by linarith)
  · calc posSum drawn minval ≤ posSum (r : K) minval :=
          plus_mono (hzero.trans hlow) hle zero_le_one htop
      _ = (r + minval + 1 : Nat) := posSum_natCast r minval

end Sums

/-! ## The draw of the last round

When the position that is found is the last one, `minval`, the draw is from `[0, 1)`. Then `minval`
is even, as the list has `2 * n - 1` entries, and the sums round up exactly when the draw is within
half a digit of 1. -/

/-- The draws in `[0, 1)` that do not round up to the end of a list of `2 * n - 1` entries. -/
def StaysBelow (n : Nat) (drawn : K) : Prop :=
  if n = 1 then drawn ≤ 1 - (3 : Nat) / (2 ^ 54 : Nat)
  else drawn < 1 - (2 ^ Nat.log 2 (2 * n - 1) : Nat) / (2 ^ 53 : Nat)

section LastDraw

variable [IsStrictOrderedRing K] {minval : Nat} {drawn : K}

/-- The last digit of the doubles between `minval` and `minval + 1`, which is no power of two. -/
theorem digit_sum (heven : minval % 2 = 0) (h2 : 2 ≤ minval) (h0 : 0 ≤ drawn) (h1 : drawn < 1) :
    digit (drawn + minval) = 2 ^ Nat.log 2 (minval + 1) / 2 ^ 52 := by
  have hlow : 2 ^ Nat.log 2 (minval + 1) ≤ minval + 1 := Nat.pow_log_le_self 2 (by omega)
  have hhigh : minval + 1 < 2 ^ (Nat.log 2 (minval + 1) + 1) :=
    Nat.lt_pow_succ_log_self (by decide) (minval + 1)
  have hpos : 1 ≤ Nat.log 2 (minval + 1) := Nat.log_pos (by decide) (by omega)
  generalize Nat.log 2 (minval + 1) = L at hlow hhigh hpos ⊢
  have hless : 2 ^ L ≤ minval := by
    obtain ⟨k, rfl⟩ := Nat.exists_eq_succ_of_ne_zero (Nat.pos_iff_ne_zero.mp hpos)
    rw [Nat.pow_succ] at hlow ⊢
    omega
  have hlowK : (2 : K) ^ L ≤ minval := by exact_mod_cast hless
  have hhighK : (minval : K) + 1 ≤ 2 ^ (L + 1) := by exact_mod_cast hhigh.le
  rw [digit_eq (e := L), zpow_sub₀ two_ne_zero, zpow_natCast]
  · norm_cast
  · rw [zpow_natCast]
    linarith
  · rw [← Nat.cast_succ, zpow_natCast]
    exact lt_of_lt_of_le (by linarith) hhighK
  · omega

/-- **The first sum** rounds up to `minval + 1`, or stays a digit below. -/
theorem plus_up_or_below (heven : minval % 2 = 0) (h2 : 2 ≤ minval) (hexact : minval + 2 ≤ 2 ^ 52)
    (h0 : 0 ≤ drawn) (h1 : drawn < 1) :
    (1 - 2 ^ Nat.log 2 (minval + 1) / 2 ^ 53 ≤ drawn → minval + 1 ≤ plus drawn minval) ∧
      (drawn < 1 - 2 ^ Nat.log 2 (minval + 1) / 2 ^ 53 →
        plus drawn minval ≤ minval + 1 - 2 ^ Nat.log 2 (minval + 1) / 2 ^ 52) := by
  have hdigit := digit_sum heven h2 h0 h1
  obtain ⟨j, hj⟩ : ∃ j, 51 = Nat.log 2 (minval + 1) + j :=
    Nat.exists_eq_add_of_le (Nat.le_of_lt_succ (Nat.log_lt_of_lt_pow (by omega) (by omega)))
  generalize Nat.log 2 (minval + 1) = L at hdigit hj ⊢
  have hcast : (minval : K) + 2 ≤ 2 ^ 52 := by exact_mod_cast hexact
  have hsum : plus drawn minval = double (drawn + minval) :=
    plus_eq_double h0 (Nat.cast_nonneg _) (by linarith)
  -- `minval + 1` is an even multiple of the last digit
  have hmany : ((2 * (2 ^ j * (minval + 1)) : Int) : K) * (2 ^ L / 2 ^ 52) = minval + 1 := by
    rw [show 52 = L + j + 1 by omega, pow_succ, pow_add]
    push_cast
    field_simp
  have hhalf : (2 : K) ^ L / 2 ^ 53 = 2 ^ L / 2 ^ 52 / 2 := by
    rw [pow_succ _ 52]
    field_simp
  have hup := le_double_even (Int.mul_emod_right 2 (2 ^ j * (minval + 1))) (drawn + minval)
  have hbelow := double_le_pred (x := drawn + minval) (M := 2 * (2 ^ j * (minval + 1)))
  rw [hdigit, hmany, ← hsum] at hup hbelow
  rw [hhalf]
  constructor
  · intro h
    exact hup.mpr (by linarith)
  · intro h
    refine hbelow (not_le.mp fun hle => ?_)
    linarith [hup.mp hle]

/-- A digit below `minval + 2` is a double. -/
theorem double_below (hexact : minval + 2 ≤ 2 ^ 52) :
    double ((minval : K) + 2 - 2 ^ Nat.log 2 (minval + 1) / 2 ^ 52)
      = (minval : K) + 2 - 2 ^ Nat.log 2 (minval + 1) / 2 ^ 52 := by
  have hhigh : minval + 1 < 2 ^ (Nat.log 2 (minval + 1) + 1) :=
    Nat.lt_pow_succ_log_self (by decide) (minval + 1)
  obtain ⟨j, hj⟩ : ∃ j, 51 = Nat.log 2 (minval + 1) + j :=
    Nat.exists_eq_add_of_le (Nat.le_of_lt_succ (Nat.log_lt_of_lt_pow (by omega) (by omega)))
  generalize Nat.log 2 (minval + 1) = L at hhigh hj ⊢
  have hfew : 2 * 2 ^ j * (minval + 2) ≤ 2 ^ 53 := by
    calc 2 * 2 ^ j * (minval + 2) ≤ 2 * 2 ^ j * 2 ^ (L + 1) := Nat.mul_le_mul_left _ hhigh
      _ = 2 ^ (L + j + 2) := by ring
      _ = 2 ^ 53 := by rw [← hj]
  obtain ⟨k, hk⟩ : ∃ k, 2 * 2 ^ j * (minval + 2) = k + 1 :=
    Nat.exists_eq_succ_of_ne_zero (by positivity)
  refine double_of_mem (k := (k : Int)) (e := (L : Int) - (52 : Nat)) ?_ ?_ (by omega)
  · have hcast : (2 : K) * 2 ^ j * (minval + 2) = k + 1 := by exact_mod_cast hk
    rw [zpow_sub₀ two_ne_zero, zpow_natCast, zpow_natCast, Int.cast_natCast,
      show 52 = L + j + 1 by omega, pow_succ, pow_add]
    field_simp
    linarith
  · rw [Nat.abs_cast]
    exact_mod_cast (by omega : k < 2 ^ 53)

/-- **Both sums**, from 2 blocks on. -/
theorem posSum_lt_iff (heven : minval % 2 = 0) (h2 : 2 ≤ minval) (hexact : minval + 2 ≤ 2 ^ 52)
    (h0 : 0 ≤ drawn) (h1 : drawn < 1) :
    posSum drawn minval < minval + 2 ↔ drawn < 1 - 2 ^ Nat.log 2 (minval + 1) / 2 ^ 53 := by
  obtain ⟨hup, hbelow⟩ := plus_up_or_below heven h2 hexact h0 h1
  have hcast : (minval : K) + 2 ≤ 2 ^ 52 := by exact_mod_cast hexact
  have hmin : (0 : K) ≤ minval := Nat.cast_nonneg minval
  have hone : drawn ≤ (1 : Nat) := by
    rw [Nat.cast_one]
    exact h1.le
  have hhigh : plus drawn minval ≤ plus ((1 : Nat) : K) minval :=
    plus_mono h0 hone hmin (by rw [Nat.cast_one]; linarith)
  have hnonneg : 0 ≤ plus drawn minval := plus_nonneg h0 hmin (by linarith)
  rw [plus_natCast, Nat.cast_one] at hhigh
  have hsum : posSum drawn minval = double (plus drawn minval + 1) :=
    plus_eq_double hnonneg zero_le_one (by linarith)
  have hdigit : (0 : K) < 2 ^ Nat.log 2 (minval + 1) / 2 ^ 52 := by positivity
  by_cases hdraw : drawn < 1 - 2 ^ Nat.log 2 (minval + 1) / 2 ^ 53
  · -- the first sum is a digit below, and the second one cannot round beyond a double
    refine iff_of_true ?_ hdraw
    have hle := hbelow hdraw
    calc posSum drawn minval = double (plus drawn minval + 1) := hsum
      _ ≤ double ((minval : K) + 2 - 2 ^ Nat.log 2 (minval + 1) / 2 ^ 52) :=
          double_mono (by linarith) (by linarith)
      _ = minval + 2 - 2 ^ Nat.log 2 (minval + 1) / 2 ^ 52 := double_below hexact
      _ < minval + 2 := by linarith
  · -- the first sum is `minval + 1` already
    refine iff_of_false (not_lt.mpr ?_) hdraw
    have hle := hup (not_lt.mp hdraw)
    calc (minval : K) + 2 = double ((minval + 2 : Nat) : K) := by
          rw [double_natCast (by omega), Nat.cast_add, Nat.cast_ofNat]
      _ ≤ double (plus drawn minval + 1) := by
          refine double_mono (Nat.cast_nonneg _) ?_
          push_cast
          linarith
      _ = posSum drawn minval := hsum.symm

/-- What rounds up to the last double below 1, or to 1. -/
theorem le_double_iff_near_one (h0 : 0 ≤ drawn) (h1 : drawn < 1) :
    1 - 1 / 2 ^ 53 ≤ double drawn ↔ 1 - 3 / 2 ^ 54 < drawn := by
  rcases lt_or_ge drawn (1 / 2) with hhalf | hhalf
  · refine iff_of_false (not_le.mpr ?_) (by norm_num; linarith)
    have hmem : double (1 / 2 : K) = 1 / 2 :=
      double_of_mem (k := 1) (e := -1) (by norm_num) (by decide) (by decide)
    calc double drawn ≤ double (1 / 2 : K) := double_mono h0 hhalf.le
      _ = 1 / 2 := hmem
      _ < 1 - 1 / 2 ^ 53 := by norm_num
  · have hdigit : digit drawn = 2 ^ (-53 : Int) :=
      digit_eq (e := -1) (by norm_num; linarith) (by norm_num; linarith) (by decide)
    have hup := le_double_odd (M := 2 ^ 53 - 1) (by decide) drawn
    rw [hdigit] at hup
    norm_num at hup ⊢
    exact hup

/-- One block: the first sum is the draw itself, and its last digit is the smaller one. -/
theorem posSum_zero_lt_iff (h0 : 0 ≤ drawn) (h1 : drawn < 1) :
    posSum drawn 0 < 2 ↔ drawn ≤ 1 - 3 / 2 ^ 54 := by
  have hfirst : plus drawn ((0 : Nat) : K) = double drawn := by
    rw [Nat.cast_zero, plus_eq_double h0 (le_refl 0) (by linarith), add_zero]
  have hnonneg : 0 ≤ double drawn := double_nonneg h0
  have hle : double drawn ≤ 1 := by
    calc double drawn ≤ double ((1 : Nat) : K) := double_mono h0 (by simpa using h1.le)
      _ = 1 := by rw [double_natCast (by decide), Nat.cast_one]
  have hsum : posSum drawn 0 = double (double drawn + 1) := by
    rw [posSum, hfirst, plus_eq_double hnonneg zero_le_one (by linarith)]
  have hreach : 2 ≤ posSum drawn 0 ↔ 1 - 1 / 2 ^ 53 ≤ double drawn := by
    rcases eq_or_lt_of_le hle with hone | hless
    · -- the first sum was rounded up to 1
      refine iff_of_true ?_ (by rw [hone]; norm_num)
      rw [hsum, hone, one_add_one_eq_two]
      have htwo := double_natCast (K := K) (n := 2) (by decide)
      exact (by simpa using htwo.ge)
    · -- between 1 and 2 the digit is twice that of the draw
      have hdigit : digit (double drawn + 1) = 2 ^ (-52 : Int) := by
        rw [digit_eq (e := 0) (by simpa using hnonneg) (by norm_num; linarith) (by decide)]
        norm_num
      have hup := le_double_even (M := 2 ^ 53) (by decide) (double drawn + 1)
      rw [hdigit, ← hsum] at hup
      norm_num at hup ⊢
      rw [hup]
      constructor <;> intro h <;> linarith
  rw [← not_le, hreach, le_double_iff_near_one h0 h1, not_lt]

/-- **The draw of the last round**, for a list that ends with the allocation that is found. -/
theorem staysBelow_iff {n : Nat} (hn : 1 ≤ n) (hexact : 2 * n ≤ 2 ^ 52) (h0 : 0 ≤ drawn)
    (h1 : drawn < 1) : posSum drawn (2 * n - 2) < (2 * n : Nat) ↔ StaysBelow n drawn := by
  simp only [StaysBelow, Nat.cast_pow, Nat.cast_ofNat]
  rcases Nat.lt_or_eq_of_le hn with h2 | rfl
  · have hcast : ((2 * n : Nat) : K) = ((2 * n - 2 : Nat) : K) + 2 := by
      exact_mod_cast (by omega : 2 * n = 2 * n - 2 + 2)
    have hlen : 2 * n - 2 + 1 = 2 * n - 1 := by omega
    rw [if_neg (by omega), hcast, posSum_lt_iff (by omega) (by omega) (by omega) h0 h1, hlen]
  · rw [if_pos rfl]
    simpa using posSum_zero_lt_iff h0 h1

end LastDraw

/-! ## The place of a free -/

section Draws

variable {draw : Nat → K → K}

/-- What `rand` gives for a range that is not negative. -/
theorem rand_bounds (hdraw : ∀ n x, 0 < x → 0 ≤ draw n x ∧ draw n x < x)
    (n : Nat) {x : K} (hx : 0 ≤ x) : 0 ≤ rand draw n x ∧ rand draw n x < if x = 0 then 1 else x := by
  apply hdraw n _
  by_cases h0 : x = 0
  · rw [if_pos h0]
    exact one_pos
  · rw [if_neg h0]
    exact lt_of_le_of_ne hx (Ne.symm h0)

variable [IsStrictOrderedRing K]

theorem lt_int_iff {x : K} {n : Nat} : (n : Int) < int x ↔ ((n + 1 : Nat) : K) ≤ x := by
  rw [int]
  by_cases hx : 0 ≤ x
  · rw [if_pos hx, ← Int.add_one_le_iff, Int.le_floor]
    push_cast
    rfl
  · have hceil : ⌈x⌉ ≤ 0 := Int.ceil_le.mpr (by rw [Int.cast_zero]; exact (not_le.mp hx).le)
    have hnext : (0 : K) ≤ (n + 1 : Nat) := Nat.cast_nonneg _
    rw [if_neg hx]
    exact iff_of_false (by omega) (by linarith [not_le.mp hx])

theorem int_le_iff {x : K} (n : Nat) : int x ≤ n ↔ x < (n + 1 : Nat) := by
  rw [← not_lt, lt_int_iff, not_le]

/-- The range of round `i`, when the search ends at `minval`. -/
theorem range_eq {numBlocks i minval : Nat} (hmin : minval < numBlocks + i) :
    (numBlocks : K) + i - minval - 1 = (numBlocks + i - minval - 1 : Nat) := by
  have hcast : ((numBlocks + i : Nat) : K) = (numBlocks + i - minval - 1 : Nat) + minval + 1 := by
    exact_mod_cast (by omega : numBlocks + i = numBlocks + i - minval - 1 + minval + 1)
  push_cast at hcast
  linarith

/-- **The place** is behind the position that was found, and in the list unless the position is the
last one: then the range is 0, and the place is the end or, by rounding, one beyond it. -/
theorem freePos_bounds (hdraw : ∀ n x, 0 < x → 0 ≤ draw n x ∧ draw n x < x)
    {numBlocks i minval : Nat} (hmin : minval < numBlocks + i) (hi : i < numBlocks)
    (hexact : 2 * numBlocks ≤ 2 ^ 52) :
    minval < freePos numBlocks draw i minval ∧
      (minval + 1 < numBlocks + i → freePos numBlocks draw i minval ≤ (numBlocks + i : Nat)) := by
  have hrange := rand_bounds hdraw (numBlocks + i) (x := (numBlocks + i - minval - 1 : Nat))
    (Nat.cast_nonneg _)
  rw [freePos, lt_int_iff, int_le_iff, range_eq hmin]
  obtain ⟨h0, h1⟩ := hrange
  by_cases hlast : minval + 1 = numBlocks + i
  · rw [if_pos (by exact_mod_cast (by omega : numBlocks + i - minval - 1 = 0))] at h1
    obtain ⟨hlow, -⟩ := posSum_bounds h0 (by simpa using h1.le)
      (by omega : 1 + minval + 1 < 2 ^ 53)
    exact ⟨hlow, fun hless => absurd hlast (Nat.ne_of_lt hless)⟩
  · rw [if_neg (by exact_mod_cast (by omega : numBlocks + i - minval - 1 ≠ 0))] at h1
    obtain ⟨hlow, hhigh⟩ := posSum_bounds h0 h1.le
      (by omega : numBlocks + i - minval - 1 + minval + 1 < 2 ^ 53)
    refine ⟨hlow, fun _ => lt_of_le_of_lt hhigh ?_⟩
    exact_mod_cast (by omega : numBlocks + i - minval - 1 + minval + 1 < numBlocks + i + 1)

end Draws

/-! ## One round -/

/-- One more free, behind the allocation. -/
theorem Generated.insert {numBlocks i pos minval : Nat} {size : Int} {trace : List GenOp}
    (hG : Generated numBlocks i trace) (hi : i < numBlocks)
    (hget : (trace)[minval]? = some (.a i size))
    (hentry : trace.filter (fun op => op.seq = i) = [.a i size]) (hmin : minval < pos) :
    Generated numBlocks (i + 1) (splice trace pos (.f i)) := by
  rw [splice, Int.toNat_natCast]
  refine ⟨?_, fun op hop => ?_, ?_, fun j hj => ?_⟩
  · have hlen := hG.length
    rw [List.length_append, List.length_cons, List.length_take, List.length_drop]
    omega
  · rcases List.mem_append.mp hop with hop | hop
    · exact hG.seqs op (List.mem_of_mem_take hop)
    · rcases List.mem_cons.mp hop with rfl | hop
      · exact hi
      · exact hG.seqs op (List.mem_of_mem_drop hop)
  · rw [filter_insert_of_neg trace pos Bool.false_ne_true]
    exact hG.inOrder
  · -- the entries of `i` get the free behind the allocation, those of the others do not change
    by_cases hji : i = j
    · subst hji
      have hbehind : GenOp.a i size ∈ trace.take pos := by
        rw [← List.getElem?_take_of_lt hmin] at hget
        exact List.mem_of_getElem? hget
      refine ⟨size, ?_⟩
      rw [if_pos (Nat.lt_succ_self i)]
      exact filter_insert_behind hentry hbehind (decide_eq_true rfl)
    · obtain ⟨size', hentries⟩ := hG.entries j hj
      have hlt : j < i + 1 ↔ j < i := by omega
      refine ⟨size', ?_⟩
      rw [filter_insert_of_neg trace pos (by simp [GenOp.seq, hji]), hentries]
      simp only [hlt]

/-- **One round** leaves the trace as the next one needs it, when the free is put behind the
allocation. -/
theorem Generated.round {numBlocks i : Nat} {trace : List GenOp} {pos : Int}
    (hG : Generated numBlocks i trace) (hi : i < numBlocks)
    (hpos : searched numBlocks i trace < pos) :
    Generated numBlocks (i + 1) (splice trace pos (.f i)) := by
  obtain ⟨size, hget, hentry⟩ := hG.search hi
  lift pos to Nat using by omega
  exact hG.insert hi hget hentry (by omega)

/-- The position that is found is one of the list. -/
theorem Generated.searched_lt {numBlocks i : Nat} {trace : List GenOp}
    (hG : Generated numBlocks i trace) (hi : i < numBlocks) :
    searched numBlocks i trace < numBlocks + i := by
  obtain ⟨size, hget, -⟩ := hG.search hi
  rw [← hG.length]
  exact (List.getElem?_eq_some_iff.mp hget).1

/-- Before the last round it is not the last one: the allocation of the last id is behind it. -/
theorem Generated.searched_succ_lt {numBlocks i : Nat} {trace : List GenOp}
    (hG : Generated numBlocks i trace) (hi : i + 1 < numBlocks) :
    searched numBlocks i trace + 1 < numBlocks + i := by
  obtain ⟨size, hget, -⟩ := hG.search (by omega)
  have hlt := hG.searched_lt (by omega)
  refine lt_of_le_of_ne hlt fun hlast => ?_
  have hcut : trace = trace.take (searched numBlocks i trace) ++ [.a i size] := by
    obtain ⟨hbelow, hentry⟩ := List.getElem?_eq_some_iff.mp hget
    calc trace = trace.take (searched numBlocks i trace + 1) := by
          rw [List.take_of_length_le (by rw [hG.length, hlast])]
      _ = trace.take (searched numBlocks i trace) ++ [.a i size] := by
          rw [List.take_succ_eq_append_getElem hbelow, hentry]
  have horder := hG.inOrder
  rw [hcut, List.filter_append, List.map_append] at horder
  have hends : (List.range numBlocks).getLast? = some i := by
    rw [← horder]
    exact List.getLast?_concat
  rw [List.getLast?_range, if_neg (by omega), Option.some.injEq] at hends
  omega

/-- The position that is found is the last one when the list ends with the allocation. -/
theorem Generated.searched_last_iff {numBlocks i : Nat} {trace : List GenOp}
    (hG : Generated numBlocks i trace) (hi : i < numBlocks) :
    searched numBlocks i trace + 1 = numBlocks + i ↔
      trace.getLast?.any (GenOp.allocates i) = true := by
  obtain ⟨size, hget, hentry⟩ := hG.search hi
  have hlt := hG.searched_lt hi
  rw [List.getLast?_eq_getElem?, hG.length]
  constructor
  · intro hlast
    rw [show numBlocks + i - 1 = searched numBlocks i trace by omega, hget]
    exact beq_self_eq_true i
  · intro hany
    obtain ⟨op, hop, hpass⟩ := Option.any_eq_true _ _ |>.mp hany
    obtain ⟨L, R, rfl, hL, -, hR⟩ := List.filter_eq_cons_iff.mp hentry
    have hlen := hG.length
    rw [List.length_append, List.length_cons] at hlen
    -- the entries of `i` are all at the position after `L`
    have hplace : ∀ n op', (L ++ .a i size :: R)[n]? = some op' → op'.seq = i → n = L.length := by
      intro n op' hn hseq
      rcases Nat.lt_trichotomy n L.length with hless | heq | hmore
      · rw [List.getElem?_append_left hless] at hn
        exact absurd (decide_eq_true hseq) (hL op' (List.mem_of_getElem? hn))
      · exact heq
      · obtain ⟨m, rfl⟩ := Nat.exists_eq_add_of_lt hmore
        rw [List.getElem?_append_right (by omega), show L.length + m + 1 - L.length = m + 1 by omega,
          List.getElem?_cons_succ] at hn
        exact absurd (decide_eq_true hseq)
          (List.filter_eq_nil_iff.mp hR op' (List.mem_of_getElem? hn))
    have hfound := hplace _ _ hget rfl
    have hlast := hplace _ _ hop (seq_of_allocates hpass)
    omega

section Rounds

variable {draw : Nat → K → K}

/-- What round `i` of the second loop should find: the list has an entry at every position that
is searched, one of them is the allocation of `i`, and the place of the free is behind it and not
past the end. -/
structure RoundFits (numBlocks i : Nat) (draw : Nat → K → K) (trace : List GenOp) : Prop where
  length : trace.length = numBlocks + i
  found : ∃ size, (trace)[searched numBlocks i trace]? = some (.a i size)
  behind : searched numBlocks i trace < freePos numBlocks draw i (searched numBlocks i trace)
  inList : freePos numBlocks draw i (searched numBlocks i trace) ≤ trace.length

theorem Generated.roundFits_iff {numBlocks i : Nat} {trace : List GenOp}
    (hG : Generated numBlocks i trace) (hi : i < numBlocks) :
    RoundFits numBlocks i draw trace ↔
      searched numBlocks i trace < freePos numBlocks draw i (searched numBlocks i trace) ∧
        freePos numBlocks draw i (searched numBlocks i trace) ≤ (numBlocks + i : Nat) := by
  obtain ⟨size, hget, -⟩ := hG.search hi
  constructor
  · intro h
    exact ⟨h.behind, by rw [← hG.length]; exact h.inList⟩
  · rintro ⟨hbehind, hin⟩
    exact ⟨hG.length, ⟨size, hget⟩, hbehind, by rw [hG.length]; exact hin⟩

/-- **The second loop**, as long as every free is put behind its allocation. -/
theorem generated_insertFrees_of (numBlocks maxBlkSize : Nat) {i : Nat} (hi : i ≤ numBlocks)
    (hbehind : ∀ j < i, Generated numBlocks j (insertFrees numBlocks maxBlkSize draw j) →
      searched numBlocks j (insertFrees numBlocks maxBlkSize draw j)
        < freePos numBlocks draw j
          (searched numBlocks j (insertFrees numBlocks maxBlkSize draw j))) :
    Generated numBlocks i (insertFrees numBlocks maxBlkSize draw i) := by
  induction i with
  | zero => exact generated_pushAllocs maxBlkSize draw numBlocks
  | succ i ih =>
      have hG := ih (by omega) (fun j hj => hbehind j (by omega))
      exact hG.round hi (hbehind i (Nat.lt_succ_self i) hG)

/-- **The second loop**, whatever is drawn. -/
theorem generated_insertFrees [IsStrictOrderedRing K]
    (hdraw : ∀ n x, 0 < x → 0 ≤ draw n x ∧ draw n x < x) {numBlocks : Nat}
    (hexact : 2 * numBlocks ≤ 2 ^ 52) (maxBlkSize : Nat) {i : Nat} (hi : i ≤ numBlocks) :
    Generated numBlocks i (insertFrees numBlocks maxBlkSize draw i) :=
  generated_insertFrees_of numBlocks maxBlkSize hi fun _ hj hG =>
    (freePos_bounds hdraw (hG.searched_lt (by omega)) (by omega) hexact).1

end Rounds

end MallocLab
