import MallocLab.Client.Invariant

set_option autoImplicit false

/-! # Noninterference with the arena

A trace asks for blocks by id, and a run of it translates ids to the pointers it got. What can
be seen of a run (results and the heap walk as offsets into the arena, and the heap size) is a
function of the requests alone: every run is simulated by the store of `replay`, which knows of
no memory, no arena address and no byte a client wrote. So any two runs of the same requests
agree (`runs_agree`), whatever the arenas held before.
-/

namespace MallocLab

open Logged Words Tiling BlockList

/-! ## Runs of a trace -/

/-- A request of a trace, by the id of its block. -/
inductive Req where
  | alloc (id size : Nat)
  | realloc (id size : Nat)
  | free (id : Nat)
  deriving DecidableEq

/-- The call that a request makes, when its id names a block. -/
def Req.call (names : Nat → Option Nat) : Req → Option Call
  | .alloc _ size => some (.malloc size)
  | .realloc id size => (names id).map (fun p => .realloc p size)
  | .free id => (names id).map .free

/-- The sizes of requests are at least 1. -/
def Req.Sized : Req → Prop
  | .alloc _ size => 1 ≤ size
  | .realloc _ size => 1 ≤ size
  | .free _ => True

/-- The names after a request that returned `r`. -/
def Req.rename (names : Nat → Option Nat) (r : Nat) : Req → Nat → Option Nat
  | .alloc id _ => if r = NULL then names else Function.update names id (some r)
  | .realloc id _ => if r = NULL then names else Function.update names id (some r)
  | .free id => Function.update names id none

/-- What is seen after a request: the result as an offset from the arena base, or nothing for
`NULL`; `mem_heapsize()`; and the blocks of the heap walk with their offsets and its end. -/
structure Seen where
  result : Option Int
  heapsize : Nat
  walk : Option (List (Int × Blk) × Int)
  deriving DecidableEq

def seen (h : Heap) (r : Nat) : Seen where
  result := if r = NULL then none else some (r - h.memStartBrk)
  heapsize := memHeapsize h
  walk := (heapWalk h).map
    (fun w => (w.1.map (fun x => ((x.1 : Int) - h.memStartBrk, x.2)), w.2 - h.memStartBrk))

/-- `TraceRun l qs obs s names`: a run that has made the requests `qs`, with anything written
between them, has seen `obs` after them and is in the state `s`. -/
inductive TraceRun : List Event → List Req → List Seen → Sys → (Nat → Option Nat) → Prop where
  | start {l : List Event} {s : Sys} : (allocator small).start l s →
      TraceRun l [] [] s (fun _ => none)
  | write {l : List Event} {qs : List Req} {obs : List Seen} {s s' : Sys}
      {names : Nat → Option Nat} {p r : Nat} {f : Nat → Option UInt8} :
      TraceRun l qs obs s names → Valid small s (.write p f) →
      (call (.write p f)).out s = some (r, s') →
      TraceRun (l ++ (call (.write p f)).log s) qs obs s' names
  | request {l : List Event} {qs : List Req} {obs : List Seen} {s s' : Sys}
      {names : Nat → Option Nat} {q : Req} {c : Call} {r : Nat} :
      TraceRun l qs obs s names → q.Sized → q.call names = some c → Valid small s c →
      (call c).out s = some (r, s') →
      TraceRun (l ++ (call c).log s) (qs ++ [q]) (obs ++ [seen s'.heap r]) s' (q.rename names r)

/-- A run of a trace as far as it has come. -/
structure Progress where
  log : List Event
  obs : List Seen
  sys : Sys
  names : Nat → Option Nat

instance (q : Req) : Decidable q.Sized :=
  match q with
  | .alloc _ size => inferInstanceAs (Decidable (1 ≤ size))
  | .realloc _ size => inferInstanceAs (Decidable (1 ≤ size))
  | .free _ => inferInstanceAs (Decidable True)

/-- Run one request, when it is valid and returns. -/
def Progress.step (t : Progress) (q : Req) : Option Progress :=
  match q.call t.names with
  | none => none
  | some c =>
      if q.Sized ∧ Valid small t.sys c then
        match (call c).out t.sys with
        | none => none
        | some (r, s') => some ⟨t.log ++ (call c).log t.sys, t.obs ++ [seen s'.heap r], s',
            q.rename t.names r⟩
      else none

/-- Run the requests of a trace from the heap `h`. -/
def traceExec (h : Heap) (qs : List Req) : Option Progress :=
  match mmInit.out h with
  | some (0, h') => qs.foldlM Progress.step ⟨mmInit.log h, [], ⟨h', []⟩, fun _ => none⟩
  | _ => none

theorem Progress.step_run {t t' : Progress} {q : Req} {qs : List Req}
    (hrun : TraceRun t.log qs t.obs t.sys t.names) (h : t.step q = some t') :
    TraceRun t'.log (qs ++ [q]) t'.obs t'.sys t'.names := by
  rw [Progress.step] at h
  rcases hc : q.call t.names with _ | c
  · rw [hc] at h
    cases h
  · simp only [hc] at h
    split at h
    · rename_i hvalid
      rcases hout : (MallocLab.call c).out t.sys with _ | ⟨r, s'⟩
      · rw [hout] at h
        cases h
      · rw [hout] at h
        cases h
        exact TraceRun.request hrun hvalid.1 hc hvalid.2 hout
    · cases h

/-- What `traceExec` computes is a run of the trace. -/
theorem traceExec_run {h : Heap} {qs : List Req} {t : Progress} (hf : Fresh h)
    (hexec : traceExec h qs = some t) : TraceRun t.log qs t.obs t.sys t.names := by
  have hfold : ∀ (qs done : List Req) (t₀ : Progress),
      TraceRun t₀.log done t₀.obs t₀.sys t₀.names → qs.foldlM Progress.step t₀ = some t →
        TraceRun t.log (done ++ qs) t.obs t.sys t.names := by
    intro qs
    induction qs with
    | nil =>
        intro done t₀ hrun hfold
        cases hfold
        rw [List.append_nil]
        exact hrun
    | cons q qs ih =>
        intro done t₀ hrun hfold
        rw [List.foldlM_cons] at hfold
        obtain ⟨t₁, hstep, hrest⟩ := Option.bind_eq_some_iff.mp hfold
        have hrun' := ih (done ++ [q]) t₁ (Progress.step_run hrun hstep) hrest
        rwa [List.append_assoc] at hrun'
  rw [traceExec] at hexec
  split at hexec
  · rename_i h' hout
    exact hfold qs [] _ (TraceRun.start ⟨rfl, h, hf, hout, rfl⟩) hexec
  · cases hexec

/-! ## The store without memory -/

/-- A block list, and for each id the offset of its payload from the arena base. -/
structure Store where
  blocks : List Blk
  names : Nat → Option Nat

namespace Store

/-- What is seen of a store after a request that returned the offset `o`. -/
def seen (t : Store) (o : Nat) : Seen where
  result := if o = NULL then none else some o
  heapsize := 16 + span t.blocks
  walk := some ((cells 8 (prologue :: t.blocks)).map (fun x => ((x.1 : Int), x.2)),
    16 + span t.blocks)

/-- One request. The first block after the prologue has offset 16. -/
def step (t : Store × List Seen) (q : Req) : Store × List Seen :=
  match q.call t.1.names with
  | none => t
  | some c =>
      let r := request 16 t.1.blocks c
      let t' : Store := ⟨r.2, q.rename t.1.names r.1⟩
      (t', t.2 ++ [t'.seen r.1])

/-- The requests of a trace, from the store that `mm_init` leaves. -/
def replay (qs : List Req) : Store × List Seen :=
  qs.foldl step (⟨[⟨4096, false⟩], fun _ => none⟩, [])

theorem replay_snoc (qs : List Req) (q : Req) : replay (qs ++ [q]) = step (replay qs) q :=
  List.foldl_append

end Store

/-! ## Moving requests in memory -/

/-- `r` is the result with the offset `o` in an arena at `base`, both `NULL` or neither. -/
def OffsetOf (base r o : Nat) : Prop := (r = NULL ∧ o = NULL) ∨ (r = base + o ∧ 0 < o)

/-- The call with its pointer moved by `d`. -/
def Call.shift (d : Nat) : Call → Call
  | .malloc size => .malloc size
  | .free p => .free (d + p)
  | .realloc p size => .realloc (d + p) size
  | .write p f => .write (d + p) f

/-- Requests do not depend on where the blocks lie. -/
theorem request_shift {d base : Nat} (bs : List Blk) (c : Call) (hbase : 0 < base)
    (hc : ∀ p, c.given = some p → 0 < p) :
    (request (d + base) bs (c.shift d)).2 = (request base bs c).2 ∧
      OffsetOf d (request (d + base) bs (c.shift d)).1 (request base bs c).1 := by
  -- `NULL` stays, and every other answer moves with the arena
  have hnull : OffsetOf d NULL NULL := Or.inl ⟨rfl, rfl⟩
  have hsome : ∀ o, OffsetOf d (d + base + o) (base + o) := fun o => Or.inr ⟨by omega, by omega⟩
  cases c with
  | malloc size =>
      simp only [Call.shift, request]
      cases allocate size bs with
      | none => exact ⟨rfl, hnull⟩
      | some r => exact ⟨rfl, hsome r.1⟩
  | free p =>
      simp only [Call.shift, request, Nat.add_sub_add_left]
      exact ⟨trivial, hnull⟩
  | realloc p size =>
      have hp : 0 < p := hc p rfl
      have hp0 : p ≠ NULL := by unfold NULL; omega
      have hdp : d + p ≠ NULL := by unfold NULL; omega
      simp only [Call.shift, request, Nat.add_sub_add_left, if_neg hp0, if_neg hdp]
      by_cases h0 : size = 0
      · rw [if_pos h0, if_pos h0]
        exact ⟨rfl, hnull⟩
      · rw [if_neg h0, if_neg h0]
        cases allocate size bs with
        | none => exact ⟨rfl, hnull⟩
        | some r => exact ⟨rfl, hsome r.1⟩
  | write p f => exact ⟨rfl, hnull⟩

/-! ## Every run is simulated by the store -/

theorem seen_eq {h : Heap} {t : Store} {r o : Nat} (hr : Rep h t.blocks)
    (ho : OffsetOf h.memStartBrk r o) : seen h r = t.seen o := by
  have hsize : memHeapsize h = 16 + span t.blocks := by
    rw [hr.wellFormed.heapsize, sum_cells]
  have hcells : (h.heapListp, prologue) :: cells (firstBlkp h) t.blocks
      = (cells 8 (prologue :: t.blocks)).map (fun x => (h.memStartBrk + x.1, x.2)) := by
    rw [← cells_shift, hr.listp]
    rfl
  have hwalk : (heapWalk h).map (fun w => (w.1.map (fun x => ((x.1 : Int) - h.memStartBrk, x.2)),
      (w.2 : Int) - h.memStartBrk))
        = some ((cells 8 (prologue :: t.blocks)).map (fun x => ((x.1 : Int), x.2)),
          16 + (span t.blocks : Int)) := by
    rw [hr.heapWalk, hcells, hr.brk]
    simp only [Option.map_some, List.map_map, Option.some.injEq, Prod.mk.injEq]
    refine ⟨List.map_congr_left (fun x _ => ?_), by omega⟩
    simp
  have hres : (if r = NULL then none else some ((r : Int) - h.memStartBrk))
      = if o = NULL then none else some (o : Int) := by
    rcases ho with ⟨rfl, rfl⟩ | ⟨rfl, hpos⟩
    · rfl
    · rw [if_neg (by unfold NULL; omega), if_neg (by unfold NULL; omega)]
      simp
  rw [seen, Store.seen, hsize, hwalk, hres]

/-- The names are the offsets `offs`, moved by `d`. -/
structure Named (d : Nat) (names offs : Nat → Option Nat) : Prop where
  eq : ∀ id, names id = (offs id).map (d + ·)
  pos : ∀ id o, offs id = some o → 0 < o

theorem Named.update {d : Nat} {names offs : Nat → Option Nat} (hn : Named d names offs) (id : Nat)
    (v : Option Nat) (hv : ∀ o, v = some o → 0 < o) :
    Named d (Function.update names id (v.map (d + ·))) (Function.update offs id v) := by
  refine ⟨fun i => ?_, fun i o ho => ?_⟩
  · by_cases hi : i = id
    · rw [hi, Function.update_self, Function.update_self]
    · rw [Function.update_of_ne hi, Function.update_of_ne hi]
      exact hn.eq i
  · by_cases hi : i = id
    · rw [hi, Function.update_self] at ho
      exact hv o ho
    · rw [Function.update_of_ne hi] at ho
      exact hn.pos i o ho

theorem Named.rename {d r o : Nat} {names offs : Nat → Option Nat} (hn : Named d names offs)
    (q : Req) (ho : OffsetOf d r o) : Named d (q.rename names r) (q.rename offs o) := by
  have hgot : ∀ id, Named d (if r = NULL then names else Function.update names id (some r))
      (if o = NULL then offs else Function.update offs id (some o)) := by
    intro id
    rcases ho with ⟨rfl, rfl⟩ | ⟨rfl, hpos⟩
    · exact hn
    · rw [if_neg (by unfold NULL; omega), if_neg (by unfold NULL; omega)]
      refine hn.update id (some o) (fun o' ho' => ?_)
      cases ho'
      exact hpos
  cases q with
  | alloc id size => exact hgot id
  | realloc id size => exact hgot id
  | free id => exact hn.update id none (fun o ho' => nomatch ho')

/-- An id that has a name has an offset. -/
theorem Named.of_some {d p id : Nat} {names offs : Nat → Option Nat} (hn : Named d names offs)
    (h : names id = some p) : ∃ o, offs id = some o ∧ p = d + o ∧ 0 < o := by
  rw [hn.eq id] at h
  obtain ⟨o, ho, hp⟩ := Option.map_eq_some_iff.mp h
  exact ⟨o, ho, hp.symm, hn.pos id o ho⟩

/-- A request made by name is the request made by offset, moved. -/
theorem Named.call {d : Nat} {names offs : Nat → Option Nat} (hn : Named d names offs) {q : Req}
    {c : Call} (hc : q.call names = some c) :
    ∃ c', q.call offs = some c' ∧ c = c'.shift d ∧ ∀ p, c'.given = some p → 0 < p := by
  cases q with
  | alloc id size =>
      cases hc
      exact ⟨.malloc size, rfl, rfl, fun p hp => nomatch hp⟩
  | realloc id size =>
      obtain ⟨p, hname, rfl⟩ := Option.map_eq_some_iff.mp hc
      obtain ⟨o, ho, rfl, hpos⟩ := hn.of_some hname
      refine ⟨.realloc o size, by rw [Req.call, ho]; rfl, rfl, fun p hp => ?_⟩
      cases hp
      exact hpos
  | free id =>
      obtain ⟨p, hname, rfl⟩ := Option.map_eq_some_iff.mp hc
      obtain ⟨o, ho, rfl, hpos⟩ := hn.of_some hname
      refine ⟨.free o, by rw [Req.call, ho]; rfl, rfl, fun p hp => ?_⟩
      cases hp
      exact hpos

/-- The state `s` with its names is the store `t`, moved to the arena of `s`. -/
structure Tracks (s : Sys) (names : Nat → Option Nat) (t : Store) : Prop where
  inv : Inv s t.blocks
  named : Named s.heap.memStartBrk names t.names

/-- **Simulation.** After its requests a run is in the state of the replayed store and has seen
the same. -/
theorem replay_spec {l : List Event} {qs : List Req} {obs : List Seen} {s : Sys}
    {names : Nat → Option Nat} (hrun : TraceRun l qs obs s names) (hnw : NoWrap l) :
    Tracks s names (Store.replay qs).1 ∧ obs = (Store.replay qs).2 := by
  induction hrun with
  | start hstart =>
      refine ⟨⟨(start_inv hstart hnw).1, ⟨fun id => rfl, fun id o ho => ?_⟩⟩, rfl⟩
      cases ho
  | write _ hvalid hout ih =>
      obtain ⟨ht, hobs⟩ := ih (fun e he => hnw e (List.mem_append_left _ he))
      have hstep := (call_spec (fun _ _ => small_sound) ht.inv hvalid
        (fun e he => hnw e (List.mem_append_right _ he))).out hout
      exact ⟨⟨hstep.inv, hstep.keeps.start ▸ ht.named⟩, hobs⟩
  | @request l qs obs s s' names q c r _ _ hcall hvalid hout ih =>
      obtain ⟨ht, hobs⟩ := ih (fun e he => hnw e (List.mem_append_left _ he))
      have hstep := (call_spec (fun _ _ => small_sound) ht.inv hvalid
        (fun e he => hnw e (List.mem_append_right _ he))).out hout
      obtain ⟨c', hcall', rfl, hpos⟩ := ht.named.call hcall
      -- the request at the arena's address is the store's request at 16
      have hbase : firstBlkp s.heap = s.heap.memStartBrk + 16 := rfl
      have hshift := request_shift (d := s.heap.memStartBrk) (Store.replay qs).1.blocks c'
        (by norm_num : 0 < 16) hpos
      have hinv := hstep.inv
      have hres := hstep.result
      rw [hbase] at hinv hres
      rw [hshift.1] at hinv
      have ho := hshift.2
      rw [← hres] at ho
      have hsee := seen_eq (t := ⟨(request 16 (Store.replay qs).1.blocks c').2,
        q.rename (Store.replay qs).1.names (request 16 (Store.replay qs).1.blocks c').1⟩) hinv.rep
        (hstep.keeps.start.symm ▸ ho)
      rw [Store.replay_snoc, Store.step, hcall', hobs, hsee]
      refine ⟨⟨hinv, ?_⟩, rfl⟩
      rw [hstep.keeps.start]
      exact ht.named.rename q ho

/-- **Noninterference.** Two runs that make the same requests see the same after each of them,
whatever their arenas held and their clients wrote. -/
theorem runs_agree {l₁ l₂ : List Event} {qs : List Req} {obs₁ obs₂ : List Seen} {s₁ s₂ : Sys}
    {names₁ names₂ : Nat → Option Nat} (h₁ : TraceRun l₁ qs obs₁ s₁ names₁)
    (h₂ : TraceRun l₂ qs obs₂ s₂ names₂) (hnw₁ : NoWrap l₁) (hnw₂ : NoWrap l₂) : obs₁ = obs₂ :=
  calc obs₁
    _ = (Store.replay qs).2 := (replay_spec h₁ hnw₁).2
    _ = obs₂ := (replay_spec h₂ hnw₂).2.symm

/-- An arena elsewhere, with other bytes in it than the sample arena. -/
def otherHeap : Heap := ⟨fun _ => 0, 0x2000, 0x2000, 0x2000 + MAX_HEAP, 0⟩

def sampleTrace : List Req := [.alloc 3 24, .alloc 5 8, .realloc 3 100, .free 5]

theorem runs_agree_sample : ∃ t₁ t₂, traceExec sampleHeap sampleTrace = some t₁ ∧
    traceExec otherHeap sampleTrace = some t₂ ∧ t₁.obs = t₂.obs := by
  have harena : Arena otherHeap := ⟨by decide, by decide, rfl, by decide⟩
  have hfresh : Fresh otherHeap := Fresh.reset harena rfl
  have hsome₁ : (traceExec sampleHeap sampleTrace).isSome := by decide +kernel
  have hsome₂ : (traceExec otherHeap sampleTrace).isSome := by decide +kernel
  have hnw₁ : (traceExec sampleHeap sampleTrace).all (fun t => decide (NoWrap t.log)) := by
    decide +kernel
  have hnw₂ : (traceExec otherHeap sampleTrace).all (fun t => decide (NoWrap t.log)) := by
    decide +kernel
  obtain ⟨t₁, ht₁⟩ := Option.isSome_iff_exists.mp hsome₁
  obtain ⟨t₂, ht₂⟩ := Option.isSome_iff_exists.mp hsome₂
  rw [ht₁] at hnw₁
  rw [ht₂] at hnw₂
  exact ⟨t₁, t₂, ht₁, ht₂, runs_agree (traceExec_run sampleHeap_fresh ht₁)
    (traceExec_run hfresh ht₂) (of_decide_eq_true hnw₁) (of_decide_eq_true hnw₂)⟩

end MallocLab
