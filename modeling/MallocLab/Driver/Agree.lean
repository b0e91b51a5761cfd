import MallocLab.Driver.Speed
import MallocLab.Driver.Verdict
import MallocLab.Driver.Utilization
import MallocLab.Client.Blocks

set_option autoImplicit false

/-! # The three evaluators agree

`main` takes it for granted that a trace that `eval_mm_valid` accepted will not fail in
`eval_mm_util` or `eval_mm_speed`, which exit at the first `NULL`. All three are clients of the
allocator, and their requests are those of the trace, so what they get is what the store of
`served` gets, in any arena and whatever the tables held before, as long as no sum
`mem_brk + incr` wraps around in their runs. `eval_mm_valid` accepts exactly the traces that are
served and whose reallocated ids can be read back; the other two get through exactly the traces
that are served; and all leave heaps of the same size (`evaluators_agree`).
-/

namespace MallocLab

open Logged Words Tiling BlockList

/-! ## `eval_mm_valid` -/

/-- A check of the driver failed. -/
def Refused (r : Except Failure Unit) : Prop := (∃ f, r = .error f) ∧ ¬ReportsNull r

theorem refused_range (i : Nat) (e : RangeError) : Refused (.error ⟨i, .range e⟩) := by
  refine ⟨⟨_, rfl⟩, ?_⟩
  rintro ⟨k, h | h⟩ <;> cases h

theorem refused_notPreserved (i : Nat) : Refused (.error ⟨i, .notPreserved⟩) := by
  refine ⟨⟨_, rfl⟩, ?_⟩
  rintro ⟨k, h | h⟩ <;> cases h

theorem yields_onDriver {α : Type} {T : Prop} {m : M α} {d : Driver}
    {Q : List Event → α → Heap → Prop} (hm : Yields T Event.NoWrap m d.heap Q) :
    Yields T Event.NoWrap (onDriver m) d (fun l a d' => ∃ h', Q l a h' ∧ d' = d.setHeap h') :=
  Yields.zoom hm

/-- `add_range` changes nothing but the list. -/
theorem addRangeTo_yields (d : Driver) (lo : Nat) (size : Int) :
    Yields False Event.NoWrap (addRangeTo lo size) d (fun l _ d' =>
      l = [] ∧ ∃ ranges, d' = { d with ranges := ranges }) := by
  rw [addRangeTo]
  refine Yields.reads_bind (fun a ha => ?_)
  rcases a with _ | e | ranges
  · exact Yields.never
  · exact Yields.pure ⟨rfl, d.ranges, rfl⟩
  · exact Yields.modifies_bind (Yields.pure ⟨rfl, ranges, rfl⟩)

section Valid

variable {l : List Event} {d : Driver} {live : List Live} {ids : List Nat} {t : Store}
  {numIds : Nat} {op : TraceOp}

/-- The new block is filled and remembered. -/
theorem Follow.remember {h' : Heap} {p : Nat} {n : Nat} {id : Nat} (ranges : List Range)
    (hF : Follow l ⟨h', live⟩ (Function.update d.blocks id p)
      (Function.update d.blockSizes id n) ids t) (hid : id ∈ ids) :
    ∃ live', Follow l ⟨(({ d.setHeap h' with ranges := ranges } : Driver).remember id p n).heap,
        live'⟩ (({ d.setHeap h' with ranges := ranges } : Driver).remember id p n).blocks
      (({ d.setHeap h' with ranges := ranges } : Driver).remember id p n).blockSizes ids t := by
  obtain ⟨live', hF'⟩ := hF.memset hid (UInt8.ofNat (Driver.lowByte id))
  rw [Function.update_self, Function.update_self] at hF'
  exact ⟨live', hF'⟩

/-- What `eval_mm_valid` has come to. -/
def ValidComes (served : Option Store) (ids' : List Nat) (l : List Event) (r : Except Failure Unit)
    (d' : Driver) : Prop :=
  (Refused r ∧ Arena d'.heap) ∨
    Comes served ids' l (r = .ok ()) (ReportsNull r) d'.heap d'.blocks d'.blockSizes

theorem evalAlloc_follow (i : Nat) (hF : Follow l ⟨d.heap, live⟩ d.blocks d.blockSizes ids t)
    (htype : op.type = .alloc) (hsize : 1 ≤ op.size ∧ op.size < 2 ^ 31) (hid : op.index ∉ ids) :
    Yields False Event.NoWrap (evalAlloc i op.index op.size) d (fun l' r d' =>
      ValidComes (t.serve op) (op.index :: ids) (l ++ l') r d') := by
  have hlt := (toSize_bounds hsize).2
  rw [evalAlloc]
  refine (yields_onDriver (hF.malloc htype hid hlt)).bind ?_
  rintro l' p d1 ⟨h', ⟨rfl, hnone, hA⟩ | ⟨hp, t', live', hsome, hF'⟩, rfl⟩
  · rw [if_pos rfl]
    exact Yields.pure (Or.inr (Or.inl ⟨⟨i, Or.inl rfl⟩, hnone, hA⟩))
  · rw [if_neg hp]
    refine (addRangeTo_yields _ p op.size).bind ?_
    rintro _ e d2 ⟨rfl, ranges, rfl⟩
    rcases e with _ | e
    · obtain ⟨live'', hF''⟩ := hF'.remember ranges List.mem_cons_self
      refine Yields.modifies_bind (Yields.pure ?_)
      rw [List.append_nil, List.append_nil]
      exact Or.inr (Or.inr ⟨rfl, t', live'', hsome, hF''⟩)
    · exact Yields.pure (Or.inl ⟨refused_range i e, hF'.tracks.inv.rep.arena⟩)

theorem evalRealloc_follow (i : Nat) (hF : Follow l ⟨d.heap, live⟩ d.blocks d.blockSizes ids t)
    (htype : op.type = .realloc) (hsize : 1 ≤ op.size ∧ op.size < 2 ^ 31) (hid : op.index ∈ ids) :
    Yields False Event.NoWrap (evalRealloc i op.index op.size) d (fun l' r d' =>
      ValidComes (t.serve op) ids (l ++ l') r d') := by
  obtain ⟨h1, hlt⟩ := toSize_bounds hsize
  rw [evalRealloc]
  refine Yields.reads_bind (fun oldp hp => ?_)
  obtain rfl : oldp = d.blocks op.index := hp
  refine (yields_onDriver (hF.realloc htype hid h1 hlt)).bind ?_
  rintro l' q d1 ⟨h', ⟨rfl, hnone, hA⟩ | ⟨hq, t', live', hsome, hF'⟩, rfl⟩
  · rw [if_pos rfl]
    exact Yields.pure (Or.inr (Or.inl ⟨⟨i, Or.inr rfl⟩, hnone, hA⟩))
  · rw [if_neg hq]
    refine Yields.modifies_bind ((addRangeTo_yields _ q op.size).bind ?_)
    rintro _ e d2 ⟨rfl, ranges, rfl⟩
    rcases e with _ | e
    · obtain ⟨live'', hF''⟩ := hF'.remember ranges hid
      refine Yields.reads_bind (fun b _ => ?_)
      cases b with
      | true =>
          refine Yields.modifies_bind (Yields.pure ?_)
          rw [List.append_nil, List.append_nil]
          exact Or.inr (Or.inr ⟨rfl, t', live'', hsome, hF''⟩)
      | false => exact Yields.pure (Or.inl ⟨refused_notPreserved i, hF'.tracks.inv.rep.arena⟩)
    · exact Yields.pure (Or.inl ⟨refused_range i e, hF'.tracks.inv.rep.arena⟩)

theorem evalFree_follow (hF : Follow l ⟨d.heap, live⟩ d.blocks d.blockSizes ids t)
    (htype : op.type = .free) (hid : op.index ∈ ids) :
    Yields False Event.NoWrap (evalFree op.index) d (fun l' r d' =>
      ValidComes (t.serve op) (ids.filter (· ≠ op.index)) (l ++ l') r d') := by
  rw [evalFree]
  refine Yields.reads_bind (fun p hp => ?_)
  obtain rfl : p = d.blocks op.index := hp
  refine Yields.modifies_bind ?_
  have hfree := yields_onDriver (d := { d with ranges := removeRange d.ranges (d.blocks op.index) })
    (hF.free (T := False) htype hid)
  refine hfree.bind ?_
  rintro l' ⟨⟩ d1 ⟨h', ⟨t', live', hsome, hF'⟩, rfl⟩
  refine Yields.pure ?_
  rw [List.append_nil]
  exact Or.inr (Or.inr ⟨rfl, t', live', hsome, hF'⟩)

theorem evalOp_follow (i : Nat) (hF : Follow l ⟨d.heap, live⟩ d.blocks d.blockSizes ids t)
    (hop : op.Legal numIds ids) :
    Yields False Event.NoWrap (evalOp i op) d (fun l' r d' =>
      ValidComes (t.serve op) (op.after ids) (l ++ l') r d') := by
  rcases legal_cases hop with ⟨htype, hsize, hid, hafter⟩ | ⟨htype, hsize, hid, hafter⟩ |
    ⟨htype, hid, hafter⟩
  · rw [evalOp, htype, hafter]
    exact evalAlloc_follow i hF htype hsize hid
  · rw [evalOp, htype, hafter]
    exact evalRealloc_follow i hF htype hsize hid
  · rw [evalOp, htype, hafter]
    exact evalFree_follow hF htype hid

omit op in
theorem evalOps_follow {ops : List TraceOp} (i : Nat)
    (hF : Follow l ⟨d.heap, live⟩ d.blocks d.blockSizes ids t) (hops : LegalFrom numIds ids ops) :
    Yields False Event.NoWrap (evalOps i ops) d (fun l' r d' =>
      ValidComes (t.serveAll ops) (idsAfter ids ops) (l ++ l') r d') := by
  induction ops generalizing i l d live ids t with
  | nil =>
      rw [evalOps]
      refine Yields.pure ?_
      rw [List.append_nil]
      exact Or.inr (Or.inr ⟨rfl, t, live, rfl, hF⟩)
  | cons op ops ih =>
      rw [evalOps, Store.serveAll]
      refine (evalOp_follow i hF hops.1).bind ?_
      rintro l' r d' (⟨⟨⟨f, rfl⟩, hno⟩, hA⟩ | ⟨⟨k, hk⟩, hnone, hA⟩ | ⟨rfl, t', live', hsome, hF'⟩)
      · refine Yields.pure (Or.inl ⟨⟨⟨f, rfl⟩, ?_⟩, hA⟩)
        rintro ⟨k, hk⟩
        exact hno ⟨k, hk⟩
      · rw [hnone]
        rcases hk with rfl | rfl
        · exact Yields.pure (Or.inr (Or.inl ⟨⟨k, Or.inl rfl⟩, rfl, hA⟩))
        · exact Yields.pure (Or.inr (Or.inl ⟨⟨k, Or.inr rfl⟩, rfl, hA⟩))
      · rw [hsome]
        refine (ih (i + 1) hF' hops.2).mono (fun l'' r d'' hpost => ?_)
        rw [← List.append_assoc]
        exact hpost

end Valid

theorem evalMmValid_follow {d : Driver} {trace : Trace} (hA : Arena d.heap)
    (hlegal : trace.Legal) :
    Yields True Event.NoWrap (evalMmValid trace) d (fun l r d' =>
      (r = .ok () ↔ (served trace.ops).isSome ∧ ∀ op ∈ trace.ops, op.Readable) ∧
      (r = .ok () → ∃ t live, served trace.ops = some t ∧
        Follow l ⟨d'.heap, live⟩ d'.blocks d'.blockSizes (idsAfter [] trace.ops) t) ∧
      Arena d'.heap) := by
  have hfollow : Yields False Event.NoWrap (evalMmValid trace) d (fun l r d' =>
      ValidComes (served trace.ops) (idsAfter [] trace.ops) l r d') := by
    rw [evalMmValid]
    refine (yields_onDriver (reset_fresh hA)).bind ?_
    rintro _ ⟨⟩ d1 ⟨h1, ⟨rfl, hfresh⟩, rfl⟩
    refine Yields.modifies_bind ?_
    have hinit := follow_init (T := False) hfresh d.blocks d.blockSizes
    refine (yields_onDriver (d := { d.setHeap h1 with ranges := [] }) hinit).bind ?_
    rintro l r d2 ⟨h2, ⟨rfl, hF⟩, rfl⟩
    rw [if_neg (by decide)]
    exact evalOps_follow 0 hF hlegal
  refine (hfollow.and_rely (evalMmValid_spec hA hlegal)).mono ?_
  rintro l r d' ⟨hcomes, hspec⟩
  have hok : r = .ok () → ¬Refused r ∧ ¬ReportsNull r := by
    rintro rfl
    constructor
    · rintro ⟨⟨f, hf⟩, -⟩
      cases hf
    · rintro ⟨k, h | h⟩ <;> cases h
  have hserved : r = .ok () → ∃ t live, served trace.ops = some t ∧
      Follow l ⟨d'.heap, live⟩ d'.blocks d'.blockSizes (idsAfter [] trace.ops) t := by
    intro hr
    rcases hcomes with ⟨hno, -⟩ | ⟨hno, -⟩ | ⟨-, h⟩
    · exact absurd hno (hok hr).1
    · exact absurd hno (hok hr).2
    · exact h
  have harena : Arena d'.heap := by
    rcases hcomes with ⟨-, hA'⟩ | ⟨-, -, hA'⟩ | ⟨-, t, live, -, hF⟩
    · exact hA'
    · exact hA'
    · exact hF.tracks.inv.rep.arena
  refine ⟨⟨fun hr => ?_, ?_⟩, hserved, harena⟩
  · obtain ⟨t, live, hsome, -⟩ := hserved hr
    refine ⟨by rw [hsome]; rfl, ?_⟩
    rcases hspec with hno | ⟨hall, -⟩ | ⟨-, k, hk⟩
    · exact absurd hno (hok hr).2
    · exact hall
    · exact absurd (hr.symm.trans hk) (by simp)
  · rintro ⟨hsome, hall⟩
    rcases hspec with hno | ⟨-, hr⟩ | ⟨hnot, -⟩
    · -- memory did not run out, as the trace is served
      rcases hcomes with ⟨⟨-, h⟩, -⟩ | ⟨-, hnone, -⟩ | ⟨hr, -⟩
      · exact absurd hno h
      · rw [hnone] at hsome
        cases hsome
      · exact hr
    · exact hr
    · exact absurd hall hnot

/-- **When the driver accepts the allocator.** The driver comes to a verdict on every legal trace.
When no request runs out of memory, which the store says, it accepts exactly if every id that is
reallocated has a low byte below 128. -/
theorem evalMmValid_ok_iff {d : Driver} {trace : Trace} (hA : Arena d.heap)
    (hlegal : trace.Legal) (hnw : NoWrap ((evalMmValid trace).log d)) :
    ∃ r d', (evalMmValid trace).out d = some (r, d') ∧
      ((served trace.ops).isSome →
        (r = .ok () ↔ ∀ op ∈ trace.ops, op.type = .realloc → op.index % 256 < 128)) := by
  obtain ⟨r, d', hout, hok, -⟩ := (evalMmValid_follow hA hlegal).out hnw
  refine ⟨r, d', hout, fun hserved => ?_⟩
  rw [hok]
  exact ⟨fun h => h.2, fun h => ⟨hserved, h⟩⟩

/-- A block of id 2 is moved, and the driver accepts. -/
theorem evalMmValid_ok_iff_sample : ∃ d',
    (evalMmValid ⟨3, [⟨.alloc, 2, 24⟩, ⟨.realloc, 2, 100⟩, ⟨.free, 2, 0⟩]⟩).out sampleDriver
      = some (.ok (), d') := by
  obtain ⟨r, d', hout, hok⟩ := @evalMmValid_ok_iff sampleDriver
    ⟨3, [⟨.alloc, 2, 24⟩, ⟨.realloc, 2, 100⟩, ⟨.free, 2, 0⟩]⟩ sampleHeap_arena
    ⟨⟨by decide, by decide, by decide⟩, ⟨by decide, by decide, by decide⟩,
      ⟨by decide, by decide⟩, trivial⟩ (by decide +kernel)
  obtain rfl : r = .ok () := (hok (by decide +kernel)).mpr (by decide)
  exact ⟨d', hout⟩

/-- The bytes of id 130 are negative as `char`s, so its `realloc` is refused though it is served. -/
theorem evalMmValid_refuses :
    Trace.Legal ⟨131, [⟨.alloc, 130, 16⟩, ⟨.realloc, 130, 24⟩]⟩ ∧
      (served [⟨.alloc, 130, 16⟩, ⟨.realloc, 130, 24⟩]).isSome ∧
      NoWrap ((evalMmValid ⟨131, [⟨.alloc, 130, 16⟩, ⟨.realloc, 130, 24⟩]⟩).log sampleDriver) ∧
      ((evalMmValid ⟨131, [⟨.alloc, 130, 16⟩, ⟨.realloc, 130, 24⟩]⟩).out sampleDriver).map Prod.fst
        = some (.error ⟨1, .notPreserved⟩) := by
  refine ⟨⟨⟨by decide, by decide, by decide⟩, ⟨by decide, by decide, by decide⟩, trivial⟩, ?_, ?_, ?_⟩
  · decide +kernel
  · decide +kernel
  · decide +kernel

/-! ## `eval_mm_util` -/

theorem yields_onUtil {α : Type} {T : Prop} {m : M α} {u : Util} {Q : List Event → α → Heap → Prop}
    (hm : Yields T Event.NoWrap m u.heap Q) :
    Yields T Event.NoWrap (onUtil m) u (fun l a u' => ∃ h', Q l a h' ∧ u' = u.setHeap h') :=
  Yields.zoom hm

theorem intValue_yields {u : Util} {n : Int} :
    Yields False Event.NoWrap (intValue n) u (fun l _ u' => l = [] ∧ u' = u) := by
  rw [intValue]
  by_cases h : -2 ^ 31 ≤ n ∧ n < 2 ^ 31
  · rw [if_pos h]
    exact Yields.pure ⟨rfl, rfl⟩
  · rw [if_neg h]
    exact Yields.never

theorem addTotal_yields {u : Util} {delta : Int} :
    Yields False Event.NoWrap (addTotal delta) u (fun l _ u' =>
      l = [] ∧ ∃ total, u' = u.setTotal total) := by
  rw [addTotal]
  refine Yields.reads_bind (fun sum _ => intValue_yields.bind ?_)
  rintro _ total _ ⟨rfl, rfl⟩
  exact Yields.of_out fun _ => ⟨(), _, rfl, rfl, total, rfl⟩

section Util

variable {l : List Event} {u : Util} {live : List Live} {ids : List Nat} {t : Store}
  {numIds : Nat} {op : TraceOp}

/-- What `eval_mm_util` has come to. -/
def UtilComes (served : Option Store) (ids' : List Nat) (l : List Event)
    (r : Except UtilError Unit) (u' : Util) : Prop :=
  Comes served ids' l (r = .ok ()) (∃ e, r = .error e) u'.heap u'.blocks u'.blockSizes

/-- The end of the cases `ALLOC` and `REALLOC`: the statistics change nothing else. -/
theorem utilComes_finish {t' : Store} {l l' : List Event} {served : Option Store} (delta : Int)
    (hsome : served = some t') (hF : Follow l ⟨u.heap, live⟩ u.blocks u.blockSizes ids t')
    (hl : l' = l) :
    Yields False Event.NoWrap (do
      addTotal delta
      modifies (·.raiseMax)
      return .ok ()) u (fun l'' r u' => UtilComes served ids (l' ++ l'') r u') := by
  subst hl
  refine addTotal_yields.bind ?_
  rintro _ ⟨⟩ u1 ⟨rfl, total, rfl⟩
  refine Yields.modifies_bind (Yields.pure ?_)
  rw [List.append_nil, List.append_nil]
  exact Or.inr ⟨rfl, t', live, hsome, hF⟩

theorem utilAlloc_follow (hF : Follow l ⟨u.heap, live⟩ u.blocks u.blockSizes ids t)
    (htype : op.type = .alloc) (hsize : 1 ≤ op.size ∧ op.size < 2 ^ 31) (hid : op.index ∉ ids) :
    Yields False Event.NoWrap (utilAlloc op.index op.size) u (fun l' r u' =>
      UtilComes (t.serve op) (op.index :: ids) (l ++ l') r u') := by
  have hlt := (toSize_bounds hsize).2
  rw [utilAlloc]
  refine (yields_onUtil (hF.malloc htype hid hlt)).bind ?_
  rintro l' p u1 ⟨h', ⟨rfl, hnone, hA⟩ | ⟨hp, t', live', hsome, hF'⟩, rfl⟩
  · rw [if_pos rfl]
    exact Yields.pure (Or.inl ⟨⟨_, rfl⟩, hnone, hA⟩)
  · rw [if_neg hp]
    refine Yields.modifies_bind ?_
    have hfinish := utilComes_finish
      (u := (u.setHeap h').remember op.index p (toSize op.size)) op.size hsome hF' rfl
    refine hfinish.mono (fun l'' r u' hpost => ?_)
    rw [← List.append_assoc]
    exact hpost

theorem utilRealloc_follow (hF : Follow l ⟨u.heap, live⟩ u.blocks u.blockSizes ids t)
    (htype : op.type = .realloc) (hsize : 1 ≤ op.size ∧ op.size < 2 ^ 31) (hid : op.index ∈ ids) :
    Yields False Event.NoWrap (utilRealloc op.index op.size) u (fun l' r u' =>
      UtilComes (t.serve op) ids (l ++ l') r u') := by
  obtain ⟨h1, hlt⟩ := toSize_bounds hsize
  rw [utilRealloc]
  refine Yields.reads_bind (fun oldsize _ => Yields.reads_bind (fun oldp hp => ?_))
  obtain rfl : oldp = u.blocks op.index := hp
  refine (yields_onUtil (hF.realloc htype hid h1 hlt)).bind ?_
  rintro l' q u1 ⟨h', ⟨rfl, hnone, hA⟩ | ⟨hq, t', live', hsome, hF'⟩, rfl⟩
  · rw [if_pos rfl]
    exact Yields.pure (Or.inl ⟨⟨_, rfl⟩, hnone, hA⟩)
  · rw [if_neg hq]
    refine Yields.modifies_bind (intValue_yields.bind ?_)
    rintro _ delta _ ⟨rfl, rfl⟩
    have hfinish := utilComes_finish
      (u := (u.setHeap h').remember op.index q (toSize op.size)) delta hsome hF' rfl
    refine hfinish.mono (fun l'' r u' hpost => ?_)
    rw [List.nil_append, ← List.append_assoc]
    exact hpost

theorem utilFree_follow (hF : Follow l ⟨u.heap, live⟩ u.blocks u.blockSizes ids t)
    (htype : op.type = .free) (hid : op.index ∈ ids) :
    Yields False Event.NoWrap (utilFree op.index) u (fun l' r u' =>
      UtilComes (t.serve op) (ids.filter (· ≠ op.index)) (l ++ l') r u') := by
  rw [utilFree]
  refine Yields.reads_bind (fun size _ => Yields.reads_bind (fun p hp => ?_))
  obtain rfl : p = u.blocks op.index := hp
  refine (yields_onUtil (hF.free htype hid)).bind ?_
  rintro l' ⟨⟩ u1 ⟨h', ⟨t', live', hsome, hF'⟩, rfl⟩
  refine addTotal_yields.bind ?_
  rintro _ ⟨⟩ u2 ⟨rfl, total, rfl⟩
  refine Yields.pure ?_
  rw [List.append_nil, List.append_nil]
  exact Or.inr ⟨rfl, t', live', hsome, hF'⟩

theorem utilOp_follow (hF : Follow l ⟨u.heap, live⟩ u.blocks u.blockSizes ids t)
    (hop : op.Legal numIds ids) :
    Yields False Event.NoWrap (utilOp op) u (fun l' r u' =>
      UtilComes (t.serve op) (op.after ids) (l ++ l') r u') := by
  rcases legal_cases hop with ⟨htype, hsize, hid, hafter⟩ | ⟨htype, hsize, hid, hafter⟩ |
    ⟨htype, hid, hafter⟩
  · rw [utilOp, htype, hafter]
    exact utilAlloc_follow hF htype hsize hid
  · rw [utilOp, htype, hafter]
    exact utilRealloc_follow hF htype hsize hid
  · rw [utilOp, htype, hafter]
    exact utilFree_follow hF htype hid

omit op in
theorem utilOps_follow {ops : List TraceOp}
    (hF : Follow l ⟨u.heap, live⟩ u.blocks u.blockSizes ids t) (hops : LegalFrom numIds ids ops) :
    Yields False Event.NoWrap (utilOps ops) u (fun l' r u' =>
      UtilComes (t.serveAll ops) (idsAfter ids ops) (l ++ l') r u') := by
  induction ops generalizing l u live ids t with
  | nil =>
      rw [utilOps]
      refine Yields.pure ?_
      rw [List.append_nil]
      exact Or.inr ⟨rfl, t, live, rfl, hF⟩
  | cons op ops ih =>
      rw [utilOps, Store.serveAll]
      refine (utilOp_follow hF hops.1).bind ?_
      rintro l' r u' (⟨⟨e, rfl⟩, hnone, hA⟩ | ⟨rfl, t', live', hsome, hF'⟩)
      · rw [hnone]
        exact Yields.pure (Or.inl ⟨⟨e, rfl⟩, rfl, hA⟩)
      · rw [hsome]
        refine (ih hF' hops.2).mono (fun l'' r u'' hpost => ?_)
        rw [← List.append_assoc]
        exact hpost

end Util

/-- `eval_mm_util` up to the end of its loop. -/
theorem utilRun_follow {u : Util} {numIds : Nat} {ops : List TraceOp} (hA : Arena u.heap)
    (hops : LegalFrom numIds [] ops) :
    Yields True Event.NoWrap (utilRun ops) u (fun l r u' =>
      UtilComes (served ops) (idsAfter [] ops) l r u' ∧
        ((∃ e, r = .error e) ∨ r = .ok () ∧ UtilInv u' ops)) := by
  have hfollow : Yields False Event.NoWrap (utilRun ops) u (fun l r u' =>
      UtilComes (served ops) (idsAfter [] ops) l r u') := by
    have hinit : Yields False Event.NoWrap utilInit u (fun l r u' => r = .ok () ∧
        Follow l ⟨u'.heap, []⟩ u'.blocks u'.blockSizes [] Store.initial) := by
      rw [utilInit]
      refine Yields.modifies_bind ?_
      have hreset := reset_fresh (T := False) hA
      refine (yields_onUtil (u := { u with totalSize := 0, maxTotalSize := 0 }) hreset).bind ?_
      rintro _ ⟨⟩ u1 ⟨h1, ⟨rfl, hfresh⟩, rfl⟩
      have hmm := follow_init (T := False) hfresh u.blocks u.blockSizes
      refine (yields_onUtil (u := Util.setHeap h1 { u with totalSize := 0, maxTotalSize := 0 })
        hmm).bind ?_
      rintro l r u2 ⟨h2, ⟨rfl, hF⟩, rfl⟩
      rw [if_neg (by decide)]
      refine Yields.pure ⟨rfl, ?_⟩
      rw [List.append_nil]
      exact hF
    rw [utilRun]
    refine hinit.bind ?_
    rintro l r u' ⟨rfl, hF⟩
    exact utilOps_follow hF hops
  exact hfollow.and_rely (utilRun_spec hA hops)

/-- The high-water mark of an optimal allocator: the largest total of live sizes. -/
def highWater (ops : List TraceOp) : Int := (ops.inits.map liveTotal).foldr max 0

theorem isGreatest_foldr_max (l : List Int) :
    IsGreatest { x | x = 0 ∨ x ∈ l } (l.foldr max 0) := by
  induction l with
  | nil =>
      refine ⟨Or.inl rfl, fun x hx => ?_⟩
      rcases hx with rfl | hx
      · exact le_refl _
      · cases hx
  | cons y l ih =>
      obtain ⟨hmem, hup⟩ := ih
      rw [List.foldr_cons]
      constructor
      · rcases max_choice y (l.foldr max 0) with h | h
        · rw [h]
          exact Or.inr List.mem_cons_self
        · rw [h]
          exact hmem.imp_right (List.mem_cons_of_mem y)
      · rintro x (rfl | hx)
        · exact (hup (Or.inl rfl)).trans (le_max_right _ _)
        · rcases List.mem_cons.mp hx with rfl | hx
          · exact le_max_left _ _
          · exact (hup (Or.inr hx)).trans (le_max_right _ _)

theorem highWater_eq {ops : List TraceOp} {m : Int}
    (hm : IsGreatest (liveTotal '' { ops' | ops' <+: ops }) m) : m = highWater ops := by
  have hset : liveTotal '' { ops' | ops' <+: ops }
      = { x | x = 0 ∨ x ∈ ops.inits.map liveTotal } := by
    ext x
    simp only [Set.mem_image, Set.mem_ofPred_eq, List.mem_map, List.mem_inits]
    constructor
    · exact Or.inr
    · rintro (rfl | h)
      · exact ⟨[], List.nil_prefix, rfl⟩
      · exact h
  rw [hset] at hm
  exact hm.unique (isGreatest_foldr_max _)

theorem Follow.heapsize {l : List Event} {h : Heap} {live : List Live} {blocks sizes : Nat → Nat}
    {ids : List Nat} {t : Store} (hF : Follow l ⟨h, live⟩ blocks sizes ids t) :
    memHeapsize h = t.heapsize := hF.tracks.inv.rep.heapsize

/-- **The utilization** of a legal trace, from what the store says of it. -/
theorem evalMmUtil_follow {u : Util} {trace : Trace} (hA : Arena u.heap) (hlegal : trace.Legal) :
    Yields True Event.NoWrap (evalMmUtil trace) u (fun l r u' =>
      ((∃ e, r = .error e) ∧ served trace.ops = none) ∨
      ∃ t live, served trace.ops = some t ∧
        r = .ok ((highWater trace.ops : ℚ) / (t.heapsize : ℚ)) ∧
        highWater trace.ops < t.heapsize ∧
        Follow l ⟨u'.heap, live⟩ u'.blocks u'.blockSizes (idsAfter [] trace.ops) t) := by
  rw [evalMmUtil]
  refine (utilRun_follow hA hlegal).bind ?_
  rintro l r u' ⟨⟨⟨e, rfl⟩, hnone, -⟩ | ⟨rfl, t, live, hsome, hF⟩, hinv⟩
  · exact Yields.pure (Or.inl ⟨⟨e, rfl⟩, hnone⟩)
  · obtain ⟨e, he⟩ | ⟨-, hU⟩ := hinv
    · cases he
    have hhigh : u'.maxTotalSize = highWater trace.ops := highWater_eq hU.greatest
    have hbelow := hU.below
    rw [hhigh, hF.heapsize] at hbelow
    refine Yields.reads_bind (fun ratio hratio =>
      Yields.pure (Or.inr ⟨t, live, hsome, ?_, hbelow, ?_⟩))
    · rw [hratio, hhigh, hF.heapsize]
    · rw [List.append_nil]
      exact hF

/-- **The utilization.** On every legal trace `eval_mm_util` ends. When no request runs out of
memory, it gets through, the totals are exact after each of the requests, and the ratio is below 1. -/
theorem evalMmUtil_exact {u : Util} {trace : Trace} (hA : Arena u.heap) (hlegal : trace.Legal)
    (hnw : NoWrap ((evalMmUtil trace).log u)) :
    ∃ r u', (evalMmUtil trace).out u = some (r, u') ∧
      ((served trace.ops).isSome ↔ ∃ ratio, r = .ok ratio) ∧
      ∀ ratio, r = .ok ratio →
        (ratio = (u'.maxTotalSize : ℚ) / (memHeapsize u'.heap : ℚ) ∧ ratio < 1) ∧
        ∀ ops₁ ops₂, trace.ops = ops₁ ++ ops₂ →
          ∃ u₁, (utilRun ops₁).out u = some (.ok (), u₁) ∧ Exact u₁ ops₁ ∧
            (utilOps ops₂).out u₁ = some (.ok (), u') := by
  obtain ⟨r, u', hout, hfollow⟩ := (evalMmUtil_follow hA hlegal).out hnw
  obtain ⟨r', u'', hout', hexact⟩ := evalMmUtil_ok hA hlegal hnw
  rw [hout] at hout'
  cases hout'
  refine ⟨r, u', hout, ?_, hexact⟩
  rcases hfollow with ⟨⟨e, rfl⟩, hnone⟩ | ⟨t, live, hsome, rfl, -⟩
  · rw [hnone]
    refine iff_of_false Bool.false_ne_true ?_
    rintro ⟨ratio, h⟩
    cases h
  · rw [hsome]
    exact iff_of_true rfl ⟨_, rfl⟩

theorem evalMmUtil_exact_sample : ∃ ratio u',
    (evalMmUtil utilTrace).out sampleUtil = some (.ok ratio, u') ∧ ratio < 1 := by
  obtain ⟨r, u', hout, hok, hexact⟩ :=
    evalMmUtil_exact (u := sampleUtil) sampleHeap_arena utilTrace_legal (by decide +kernel)
  obtain ⟨ratio, rfl⟩ := hok.mp (by decide +kernel)
  exact ⟨ratio, u', hout, (hexact ratio rfl).1.2⟩

/-! ## Runs of the driver are runs of a client -/

/-- A balanced trace that moves its first block. -/
def balancedTrace : Trace :=
  ⟨2, [⟨.alloc, 0, 2040⟩, ⟨.realloc, 0, 100⟩, ⟨.alloc, 1, 30⟩, ⟨.free, 0, 0⟩, ⟨.free, 1, 0⟩]⟩

theorem balancedTrace_legal : balancedTrace.Legal :=
  ⟨⟨by decide, by decide, by decide⟩, ⟨by decide, by decide, by decide⟩,
    ⟨by decide, by decide, by decide⟩, ⟨by decide, by decide⟩, ⟨by decide, by decide⟩, trivial⟩

/-- **The evaluators agree.** On every legal trace, in any arenas and with anything in their
tables, all three come to an end, provided that no sum `mem_brk + incr` wraps around on the way
(arenas with room for the largest request see to that). `eval_mm_valid` returns 1 exactly when
every request is served and every id that is reallocated can be read back; the other two go
through exactly when every request is served. So neither exits on a trace that was accepted; the
heaps that are left after a served trace have the same size, and the utilization is the high-water
mark divided by it. -/
theorem evaluators_agree {d : Driver} {u : Util} {v : Speed} {trace : Trace}
    (hd : Arena d.heap) (hu : Arena u.heap) (hv : Arena v.heap) (hlegal : trace.Legal)
    (hnd : NoWrap ((evalMmValid trace).log d)) (hnu : NoWrap ((evalMmUtil trace).log u))
    (hnv : NoWrap ((evalMmSpeed trace).log v)) :
    ∃ r d' q u' p v', (evalMmValid trace).out d = some (r, d') ∧
      (evalMmUtil trace).out u = some (q, u') ∧ (evalMmSpeed trace).out v = some (p, v') ∧
      (r = .ok () ↔ (served trace.ops).isSome ∧ ∀ op ∈ trace.ops, op.Readable) ∧
      ((∃ ratio, q = .ok ratio) ↔ (served trace.ops).isSome) ∧
      (p = .ok () ↔ (served trace.ops).isSome) ∧
      ∀ t, served trace.ops = some t → (r = .ok () → memHeapsize d'.heap = t.heapsize) ∧
        memHeapsize u'.heap = t.heapsize ∧ memHeapsize v'.heap = t.heapsize ∧
        q = .ok ((highWater trace.ops : ℚ) / (t.heapsize : ℚ)) := by
  obtain ⟨r, d', hr, hiff, hfollow, -⟩ := (evalMmValid_follow hd hlegal).out hnd
  obtain ⟨q, u', hq, hutil⟩ := (evalMmUtil_follow hu hlegal).out hnu
  obtain ⟨p, v', hp, sizes, hspeed⟩ := (evalMmSpeed_follow hv hlegal).out hnv
  refine ⟨r, d', q, u', p, v', hr, hq, hp, hiff, ?_, ?_, fun t ht => ⟨fun hok => ?_, ?_⟩⟩
  · rcases hutil with ⟨⟨e, rfl⟩, hnone⟩ | ⟨t, live, hsome, rfl, -⟩
    · rw [hnone]
      exact ⟨fun ⟨_, h⟩ => (nomatch h), fun h => (nomatch h)⟩
    · rw [hsome]
      exact ⟨fun _ => rfl, fun _ => ⟨_, rfl⟩⟩
  · rcases hspeed with ⟨⟨e, rfl⟩, hnone, -⟩ | ⟨rfl, t, live, hsome, -⟩
    · rw [hnone]
      exact ⟨fun h => (nomatch h), fun h => (nomatch h)⟩
    · rw [hsome]
      exact ⟨fun _ => rfl, fun _ => rfl⟩
  · obtain ⟨t', live, ht', hF⟩ := hfollow hok
    rw [ht] at ht'
    cases ht'
    exact hF.heapsize
  · rw [ht] at hutil hspeed
    obtain ⟨-, hno⟩ | ⟨t', live, ht', hratio, -, hF⟩ := hutil
    · cases hno
    obtain ⟨-, hno, -⟩ | ⟨-, t'', live', ht'', hF'⟩ := hspeed
    · cases hno
    cases ht'
    cases ht''
    exact ⟨hF.heapsize, hF'.heapsize, hratio⟩

/-- The samples start from full arenas and tables. -/
theorem evaluators_agree_sample :
    ∃ r d' q u' p v', (evalMmValid balancedTrace).out sampleDriver = some (r, d') ∧
      (evalMmUtil balancedTrace).out sampleUtil = some (q, u') ∧
      (evalMmSpeed balancedTrace).out ⟨sampleHeap, fun _ => 7⟩ = some (p, v') ∧
      (r = .ok () ↔ (served balancedTrace.ops).isSome ∧ ∀ op ∈ balancedTrace.ops, op.Readable) ∧
      ((∃ ratio, q = .ok ratio) ↔ (served balancedTrace.ops).isSome) ∧
      (p = .ok () ↔ (served balancedTrace.ops).isSome) ∧
      ∀ t, served balancedTrace.ops = some t → (r = .ok () → memHeapsize d'.heap = t.heapsize) ∧
        memHeapsize u'.heap = t.heapsize ∧ memHeapsize v'.heap = t.heapsize ∧
        q = .ok ((highWater balancedTrace.ops : ℚ) / (t.heapsize : ℚ)) :=
  evaluators_agree sampleHeap_arena sampleHeap_arena sampleHeap_arena balancedTrace_legal
    (by decide +kernel) (by decide +kernel) (by decide +kernel)

end MallocLab
