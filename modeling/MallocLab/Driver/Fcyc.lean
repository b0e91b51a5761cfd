import MallocLab.Lib.Smallest

set_option autoImplicit false

/-! # The K-best sampler (`fcyc`)

`add_sample` fills the array `values`, then replaces the worst of the kept values or drops the
new one, and one insertion loop puts the array back in order. So after any number of samples
the array starts with the smallest of them (`best_addSamples`), and what `fcyc` returns is the
minimum of the samples it took, whatever the convergence test says (`fcyc_kbest`). The samples
are from any linear order with the 0 of `calloc`.
-/

namespace MallocLab

open Smallest

variable {α : Type} [LinearOrder α] [Zero α]

/-! ## The sampler -/

/-- The variables `values` and `samplecount`. -/
structure Sampler (α : Type) where
  values : List α
  samplecount : Nat

def initSampler (kbest : Nat) : Sampler α := ⟨List.replicate kbest 0, 0⟩

/-- The first half of `add_sample`: where the new value is put, if anywhere, and `values` with
it. -/
def Sampler.put (kbest : Nat) (val : α) (s : Sampler α) : Nat × List α :=
  if s.samplecount < kbest then
    (s.samplecount, s.values.set s.samplecount val)
  else if val < s.values.getD (kbest - 1) 0 then
    (kbest - 1, s.values.set (kbest - 1) val)
  else
    (0, s.values)

/-- The insertion sort of `add_sample`. -/
def insertLoop : Nat → List α → List α
  | 0, values => values
  | pos + 1, values =>
      if values.getD pos 0 > values.getD (pos + 1) 0 then
        let temp := values.getD pos 0
        insertLoop pos ((values.set pos (values.getD (pos + 1) 0)).set (pos + 1) temp)
      else
        values

def addSample (kbest : Nat) (val : α) (s : Sampler α) : Sampler α :=
  ⟨insertLoop (s.put kbest val).1 (s.put kbest val).2, s.samplecount + 1⟩

/-- `init_sampler`, and `add_sample` for each of the samples. -/
def addSamples (kbest : Nat) (samples : List α) : Sampler α :=
  samples.foldl (fun s val => addSample kbest val s) (initSampler kbest)

/-! ## `fcyc` -/

/-- `has_converged` -/
def hasConverged [One α] [Add α] [Mul α] (kbest : Nat) (epsilon : α) (s : Sampler α) : Bool :=
  decide (s.samplecount ≥ kbest) &&
    decide ((1 + epsilon) * s.values.getD 0 0 ≥ s.values.getD (kbest - 1) 0)

/-- The loop of `fcyc`, with any convergence test; `cyc n` is what the counter gives for run `n`
of the measured function. -/
def fcycLoop (kbest : Nat) (maxsamples : Int) (converged : Sampler α → Bool) (cyc : Nat → α) :
    Nat → Sampler α → Option (Sampler α)
  | 0, _ => none
  | fuel + 1, s =>
      let s := addSample kbest (cyc s.samplecount) s
      if !converged s && decide ((s.samplecount : Int) < maxsamples) then
        fcycLoop kbest maxsamples converged cyc fuel s
      else
        some s

/-- `fcyc` with any convergence test. The two loops differ in the counter that they read. -/
def fcycWith (kbest : Nat) (maxsamples : Int) (compensate : Bool) (converged : Sampler α → Bool)
    (compCyc cyc : Nat → α) (fuel : Nat) : Option α :=
  if compensate then
    (fcycLoop kbest maxsamples converged compCyc fuel (initSampler kbest)).map (·.values.getD 0 0)
  else
    (fcycLoop kbest maxsamples converged cyc fuel (initSampler kbest)).map (·.values.getD 0 0)

/-- `fcyc` -/
def fcyc [One α] [Add α] [Mul α] (kbest : Nat) (maxsamples : Int) (epsilon : α)
    (compensate : Bool) (compCyc cyc : Nat → α) (fuel : Nat) : Option α :=
  fcycWith kbest maxsamples compensate (hasConverged kbest epsilon) compCyc cyc fuel

/-! ## One sample -/

/-- **The insertion loop** inserts the entry at its start into the entries before it. -/
theorem insertLoop_eq {l : List α} (x : α) (r : List α) (hl : l.Pairwise (· ≤ ·)) :
    insertLoop l.length (l ++ x :: r) = l.orderedInsert (· ≤ ·) x ++ r := by
  -- the entry moves down, so the induction is on the entries before it, the last one first
  induction l using List.reverseRecOn generalizing r with
  | nil => rfl
  | append_singleton l y ih =>
      obtain ⟨hl', -, hy⟩ := List.pairwise_append.mp hl
      have hlen : (l ++ [y]).length = l.length + 1 := List.length_append
      have hentry : (l ++ [y] ++ x :: r).getD (l.length + 1) 0 = x := by simp
      have hbefore : (l ++ [y] ++ x :: r).getD l.length 0 = y := by simp
      rw [hlen, insertLoop, hentry, hbefore]
      by_cases hxy : y > x
      · have hswap : ((l ++ [y] ++ x :: r).set l.length x).set (l.length + 1) y
            = l ++ x :: y :: r := by simp
        have hbehind := orderedInsert_concat_of_le l (le_of_lt hxy)
        rw [if_pos hxy]
        calc insertLoop l.length (((l ++ [y] ++ x :: r).set l.length x).set (l.length + 1) y)
            = insertLoop l.length (l ++ x :: y :: r) := by rw [hswap]
          _ = l.orderedInsert (· ≤ ·) x ++ y :: r := ih (y :: r) hl'
          _ = (l ++ [y]).orderedInsert (· ≤ ·) x ++ r := by rw [hbehind, List.append_assoc]; rfl
      · have hle : y ≤ x := not_lt.mp hxy
        have hall : ∀ a ∈ l ++ [y], a ≤ x := by
          intro a ha
          rcases List.mem_append.mp ha with ha | ha
          · exact (hy a ha y (List.mem_singleton.mpr rfl)).trans hle
          · rwa [List.mem_singleton.mp ha]
        rw [if_neg hxy, orderedInsert_of_forall_le hl hall]
        simp

/-- What the array holds: the smallest samples, and the zeros of `calloc` that are left. -/
structure Best (kbest : Nat) (samples : List α) (s : Sampler α) : Prop where
  samplecount : s.samplecount = samples.length
  values : s.values = smallest kbest samples ++ List.replicate (kbest - samples.length) 0

theorem best_init (kbest : Nat) : Best kbest ([] : List α) (initSampler kbest) :=
  ⟨rfl, by simp [smallest, initSampler]⟩

/-- While the array is not full, the sample is put behind the others. -/
theorem Best.fill {kbest : Nat} {samples : List α} {s : Sampler α} (hB : Best kbest samples s)
    (hlt : samples.length < kbest) (val : α) :
    (addSample kbest val s).values = smallest kbest (samples ++ [val])
      ++ List.replicate (kbest - (samples.length + 1)) 0 := by
  have hlen : (smallest kbest samples).length = samples.length := by
    rw [length_smallest, min_eq_left (le_of_lt hlt)]
  have hfree : kbest - samples.length = kbest - (samples.length + 1) + 1 := by omega
  have hput : s.put kbest val = (samples.length, smallest kbest samples
      ++ val :: List.replicate (kbest - (samples.length + 1)) 0) := by
    rw [Sampler.put, hB.samplecount, if_pos hlt, hB.values, hfree, List.replicate_succ]
    simp [← hlen]
  have hall : ((smallest kbest samples).orderedInsert (· ≤ ·) val).length ≤ kbest := by
    rw [List.orderedInsert_length, hlen]
    exact hlt
  have hinsert := insertLoop_eq val (List.replicate (kbest - (samples.length + 1)) 0)
    (smallest_ascending kbest samples)
  rw [hlen] at hinsert
  calc insertLoop (s.put kbest val).1 (s.put kbest val).2
      = insertLoop samples.length (smallest kbest samples
          ++ val :: List.replicate (kbest - (samples.length + 1)) 0) := by rw [hput]
    _ = (smallest kbest samples).orderedInsert (· ≤ ·) val
          ++ List.replicate (kbest - (samples.length + 1)) 0 := hinsert
    _ = smallest kbest (samples ++ [val])
          ++ List.replicate (kbest - (samples.length + 1)) 0 := by
        rw [smallest_concat, List.take_of_length_le hall]

/-- When it is full, the sample takes the place of the last value, or it is dropped. -/
theorem Best.replace {kbest : Nat} {samples : List α} {s : Sampler α} (hk : 1 ≤ kbest)
    (hB : Best kbest samples s) (hle : kbest ≤ samples.length) (val : α) :
    (addSample kbest val s).values = smallest kbest (samples ++ [val]) := by
  have hlen : (smallest kbest samples).length = kbest := by
    rw [length_smallest, min_eq_right hle]
  have hvalues : s.values = smallest kbest samples := by
    rw [hB.values, Nat.sub_eq_zero_of_le hle]
    exact List.append_nil _
  have hasc := smallest_ascending kbest samples
  show insertLoop (s.put kbest val).1 (s.put kbest val).2 = _
  rw [smallest_concat, Sampler.put, hB.samplecount, if_neg (Nat.not_lt.mpr hle), hvalues]
  generalize smallest kbest samples = l at hlen hasc
  -- the last of the kept values is the worst one
  rcases List.eq_nil_or_concat' l with rfl | ⟨l, y, rfl⟩
  · rw [List.length_nil] at hlen
    omega
  · have hlast : kbest - 1 = l.length := by
      rw [List.length_append, List.length_singleton] at hlen
      omega
    have hworst : (l ++ [y]).getD l.length 0 = y := by simp
    obtain ⟨hasc', -, hy⟩ := List.pairwise_append.mp hasc
    rw [hlast, hworst]
    by_cases hval : val < y
    · have hset : (l ++ [y]).set l.length val = l ++ [val] := by simp
      rw [if_pos hval, hset, orderedInsert_concat_of_le l (le_of_lt hval)]
      show insertLoop l.length (l ++ [val]) = _
      rw [insertLoop_eq val [] hasc', List.append_nil, List.take_left']
      rw [List.orderedInsert_length]
      omega
    · have hall : ∀ a ∈ l ++ [y], a ≤ val := by
        intro a ha
        rcases List.mem_append.mp ha with ha | ha
        · exact (hy a ha y (List.mem_singleton.mpr rfl)).trans (not_lt.mp hval)
        · rw [List.mem_singleton.mp ha]
          exact not_lt.mp hval
      rw [if_neg hval, orderedInsert_of_forall_le hasc hall, List.take_left' hlen]
      rfl

/-- **One sample** in any of the three cases. -/
theorem Best.add {kbest : Nat} {samples : List α} {s : Sampler α} (hk : 1 ≤ kbest)
    (hB : Best kbest samples s) (val : α) :
    Best kbest (samples ++ [val]) (addSample kbest val s) := by
  have hlen : (samples ++ [val]).length = samples.length + 1 := List.length_append
  refine ⟨?_, ?_⟩
  · show s.samplecount + 1 = _
    rw [hB.samplecount, hlen]
  · rw [hlen]
    by_cases hlt : samples.length < kbest
    · exact hB.fill hlt val
    · have hfull : kbest - (samples.length + 1) = 0 := by omega
      rw [hB.replace hk (Nat.not_lt.mp hlt) val, hfull, List.replicate_zero, List.append_nil]

/-! ## All samples -/

theorem best_addSamples {kbest : Nat} (hk : 1 ≤ kbest) (samples : List α) :
    Best kbest samples (addSamples kbest samples) := by
  induction samples using List.reverseRecOn with
  | nil => exact best_init kbest
  | append_singleton samples val ih =>
      rw [addSamples, List.foldl_append]
      exact ih.add hk val

/-- The first of the values are the smallest samples. -/
theorem Best.take {kbest : Nat} {samples : List α} {s : Sampler α} (hB : Best kbest samples s) :
    s.values.take (min samples.length kbest) = smallest kbest samples := by
  rw [hB.values]
  exact List.take_left' (length_smallest kbest samples)

/-- The first of the values is the minimum of the samples. -/
theorem Best.isLeast {kbest : Nat} {samples : List α} {s : Sampler α} (hk : 1 ≤ kbest)
    (hB : Best kbest samples s) (hne : samples ≠ []) :
    IsLeast { y | y ∈ samples } (s.values.getD 0 0) := by
  have hpos : 0 < samples.length := List.length_pos_iff.mpr hne
  have hsmall := smallest_isSmallest kbest samples
  have hlen := hsmall.length
  rw [hB.values]
  rcases hs : smallest kbest samples with _ | ⟨x, m⟩
  · rw [hs, List.length_nil] at hlen
    omega
  · rw [hs] at hsmall
    exact hsmall.isLeast

/-! ## The loop of `fcyc` -/

/-- **The loop.** With enough fuel it ends, after one more sample at least and `maxsamples` at
most, and the array holds the smallest of all samples that were taken. -/
theorem fcycLoop_spec {kbest : Nat} (hk : 1 ≤ kbest) (maxsamples : Int)
    (converged : Sampler α → Bool) (cyc : Nat → α) {n : Nat} {s : Sampler α} (fuel : Nat)
    (hB : Best kbest ((List.range n).map cyc) s)
    (hfuel : max (n + 1 : Int) maxsamples ≤ n + fuel) :
    ∃ s', fcycLoop kbest maxsamples converged cyc fuel s = some s' ∧ n + 1 ≤ s'.samplecount ∧
      (s'.samplecount : Int) ≤ max (n + 1 : Int) maxsamples ∧
      Best kbest ((List.range s'.samplecount).map cyc) s' := by
  induction fuel generalizing n s with
  | zero => omega
  | succ fuel ih =>
      have hcount : s.samplecount = n := by rw [hB.samplecount, List.length_map, List.length_range]
      have hnext : Best kbest ((List.range (n + 1)).map cyc) (addSample kbest (cyc n) s) := by
        rw [List.range_succ, List.map_append]
        exact hB.add hk (cyc n)
      have hcount' : (addSample kbest (cyc n) s).samplecount = n + 1 := congrArg (· + 1) hcount
      rw [fcycLoop, hcount]
      generalize addSample kbest (cyc n) s = s₁ at hnext hcount'
      by_cases hmore : (!converged s₁ && decide ((s₁.samplecount : Int) < maxsamples)) = true
      · have hless : (s₁.samplecount : Int) < maxsamples :=
          of_decide_eq_true (Bool.and_eq_true_iff.mp hmore).2
        rw [hcount'] at hless
        obtain ⟨s', hloop, hge, hle, hB'⟩ := ih (n := n + 1) hnext (by omega)
        refine ⟨s', ?_, by omega, by omega, hB'⟩
        exact (if_pos hmore).trans hloop
      · refine ⟨s₁, if_neg hmore, by omega, by omega, ?_⟩
        rw [hcount']
        exact hnext

/-- With any convergence test `fcyc` ends, and returns the minimum of the samples it took. -/
theorem fcycWith_spec {kbest : Nat} (hk : 1 ≤ kbest) (maxsamples : Int) (compensate : Bool)
    (converged : Sampler α → Bool) (compCyc cyc : Nat → α) (fuel : Nat)
    (hfuel : max 1 maxsamples ≤ fuel) :
    ∃ s result, fcycLoop kbest maxsamples converged (if compensate then compCyc else cyc) fuel
        (initSampler kbest) = some s ∧
      (s.samplecount : Int) ≤ max 1 maxsamples ∧
      fcycWith kbest maxsamples compensate converged compCyc cyc fuel = some result ∧
      IsLeast ((if compensate then compCyc else cyc) '' { i | i < s.samplecount }) result := by
  have hwith : fcycWith kbest maxsamples compensate converged compCyc cyc fuel
      = (fcycLoop kbest maxsamples converged (if compensate then compCyc else cyc) fuel
        (initSampler kbest)).map (·.values.getD 0 0) := by
    cases compensate <;> rfl
  rw [hwith]
  generalize (if compensate then compCyc else cyc) = measured
  have hinit : Best kbest ((List.range 0).map measured) (initSampler kbest) := best_init kbest
  obtain ⟨s, hloop, hge, hle, hB⟩ :=
    fcycLoop_spec hk maxsamples converged measured fuel hinit (by simpa using hfuel)
  have hne : (List.range s.samplecount).map measured ≠ [] := by
    rw [ne_eq, List.map_eq_nil_iff, List.range_eq_nil]
    omega
  have hset : { y | y ∈ (List.range s.samplecount).map measured }
      = measured '' { i | i < s.samplecount } := by
    ext y
    simp
  refine ⟨s, s.values.getD 0 0, hloop, by omega, by rw [hloop]; rfl, ?_⟩
  rw [← hset]
  exact hB.isLeast hk hne

/-- The test of `fcyc` is one of them. -/
theorem fcyc_isLeast [One α] [Add α] [Mul α] {kbest : Nat} (hk : 1 ≤ kbest) (maxsamples : Int)
    (epsilon : α) (compensate : Bool) (compCyc cyc : Nat → α) (fuel : Nat)
    (hfuel : max 1 maxsamples ≤ fuel) :
    ∃ (n : Nat) (result : α), (n : Int) ≤ max 1 maxsamples ∧
      fcyc kbest maxsamples epsilon compensate compCyc cyc fuel = some result ∧
      IsLeast ((if compensate then compCyc else cyc) '' { i | i < n }) result := by
  obtain ⟨s, result, -, hle, hresult, hleast⟩ := fcycWith_spec hk maxsamples compensate
    (hasConverged kbest epsilon) compCyc cyc fuel hfuel
  exact ⟨s.samplecount, result, hle, hresult, hleast⟩

/-- **The K-best sampler.** The array starts with the smallest of the samples. Whatever the
convergence test and the counters say, `fcyc` ends after at most `maxsamples` samples, or one,
and returns their minimum. -/
theorem fcyc_kbest {kbest : Nat} (hk : 1 ≤ kbest) :
    (∀ samples : List α, IsSmallest kbest samples
      ((addSamples kbest samples).values.take (min samples.length kbest))) ∧
    ∀ (maxsamples : Int) (compensate : Bool) (converged : Sampler α → Bool)
      (compCyc cyc : Nat → α) (fuel : Nat), max 1 maxsamples ≤ fuel →
      ∃ s result, fcycLoop kbest maxsamples converged (if compensate then compCyc else cyc) fuel
          (initSampler kbest) = some s ∧
        (s.samplecount : Int) ≤ max 1 maxsamples ∧
        fcycWith kbest maxsamples compensate converged compCyc cyc fuel = some result ∧
        IsLeast ((if compensate then compCyc else cyc) '' { i | i < s.samplecount }) result := by
  constructor
  · intro samples
    rw [(best_addSamples hk samples).take]
    exact smallest_isSmallest kbest samples
  · intro maxsamples compensate converged compCyc cyc fuel hfuel
    exact fcycWith_spec hk maxsamples compensate converged compCyc cyc fuel hfuel

/-- Three samples into two slots, and a run that stops before the slots are full. -/
theorem fcyc_kbest_sample :
    IsSmallest 2 [(30 : Int), 10, 20] ((addSamples 2 [(30 : Int), 10, 20]).values.take 2) ∧
      ∃ s result, fcycLoop 2 1 (fun _ => false) (fun i => (7 - i : Int)) 1 (initSampler 2) = some s ∧
        (s.samplecount : Int) ≤ 1 ∧
        fcycWith 2 1 false (fun _ => false) (fun _ => (0 : Int)) (fun i => 7 - i) 1 = some result ∧
        IsLeast ((fun i : Nat => (7 - i : Int)) '' { i | i < s.samplecount }) result := by
  obtain ⟨hsmallest, hfcyc⟩ := fcyc_kbest (α := Int) (show 1 ≤ 2 by decide)
  exact ⟨hsmallest [30, 10, 20],
    hfcyc 1 false (fun _ => false) (fun _ => 0) (fun i => 7 - i) 1 (by decide)⟩

end MallocLab
