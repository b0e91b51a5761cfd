import MallocLab.Driver.Util
import MallocLab.Client.Safety
import MallocLab.Lib.Canonical

set_option autoImplicit false

/-! # The utilization is exact and below 1

The driver of `eval_mm_util` is a client of the allocator: its tables name the live blocks
(`Tabled`). The total is kept up request by request, and since the live payloads lie in
different blocks it is smaller than the heap, so no `int` overflows. The heap never shrinks,
so the largest total is still smaller than the heap at the end (`evalMmUtil_exact`).
-/

namespace MallocLab

open Logged Words Tiling BlockList

/-! ## The tables -/

/-- The blocks that the tables name for the ids of `sizes`. -/
def Util.named (u : Util) (sizes : List (Nat × Int)) : List Live :=
  sizes.map (fun x => ⟨u.blocks x.1, x.2.toNat, fun _ => none⟩)

/-- The tables name the live blocks, with their sizes. -/
structure Tabled (u : Util) (sizes : List (Nat × Int)) : Prop where
  nodup : (sizes.map Prod.fst).Nodup
  sized : ∀ x ∈ sizes, (u.blockSizes x.1 : Int) = x.2 ∧ x.2 < 2 ^ 31
  serves : ∃ bs, Inv ⟨u.heap, u.named sizes⟩ bs

/-- The invariant of the loop, after the requests `ops`. -/
structure UtilInv (u : Util) (ops : List TraceOp) : Prop where
  named : Tabled u (liveSizes ops)
  total : u.totalSize = liveTotal ops
  greatest : IsGreatest (liveTotal '' { ops' | ops' <+: ops }) u.maxTotalSize
  below : u.maxTotalSize < memHeapsize u.heap

theorem toSize_eq {size : Int} (h1 : 1 ≤ size) (hlt : size < 2 ^ 31) : toSize size = size.toNat := by
  unfold toSize
  omega

theorem named_remember {u : Util} {sizes : List (Nat × Int)} {id : Nat} (p n : Nat)
    (hid : ∀ x ∈ sizes, x.1 ≠ id) : (u.remember id p n).named sizes = u.named sizes := by
  refine List.map_congr_left (fun x hx => ?_)
  simp [Util.remember, Function.update_of_ne (hid x hx)]

/-- Giving up an id is giving up its block: no two ids share one. -/
theorem Tabled.filter {u : Util} {sizes : List (Nat × Int)} {id : Nat} {n : Int}
    (hN : Tabled u sizes) (hn : (id, n) ∈ sizes) :
    (u.named sizes).filter (fun l => l.ptr ≠ u.blocks id)
      = u.named (sizes.filter (·.1 ≠ id)) := by
  obtain ⟨bs, hI⟩ := hN.serves
  have hnd : (sizes.map (fun x => u.blocks x.1)).Nodup := by
    have hptrs := hI.owns.nodup
    rw [Util.named, List.map_map] at hptrs
    exact hptrs
  rw [Util.named, Util.named, List.filter_map]
  refine congrArg _ (List.filter_congr (fun x hx => ?_))
  have hiff : u.blocks x.1 = u.blocks id ↔ x.1 = id := by
    constructor
    · intro he
      exact congrArg Prod.fst (List.inj_on_of_nodup_map hnd hx hn he)
    · rintro rfl
      rfl
  simp [hiff]

/-- A new block is remembered under an id that is not in use. -/
theorem Tabled.put {u : Util} {rest : List (Nat × Int)} {bs : List Blk} {id p : Nat} {size : Int}
    (hnd : (rest.map Prod.fst).Nodup) (hid : ∀ x ∈ rest, x.1 ≠ id)
    (hsized : ∀ x ∈ rest, (u.blockSizes x.1 : Int) = x.2 ∧ x.2 < 2 ^ 31)
    (h1 : 1 ≤ size) (hlt : size < 2 ^ 31)
    (hI : Inv ⟨u.heap, ⟨p, toSize size, fun _ => none⟩ :: u.named rest⟩ bs) :
    Tabled (u.remember id p (toSize size)) ((id, size) :: rest) := by
  have hsize := toSize_eq h1 hlt
  refine ⟨?_, ?_, bs, ?_⟩
  · rw [List.map_cons, List.nodup_cons]
    refine ⟨fun hmem => ?_, hnd⟩
    obtain ⟨x, hx, hxid⟩ := List.mem_map.mp hmem
    exact hid x hx hxid
  · intro x hx
    rcases List.mem_cons.mp hx with rfl | hx
    · refine ⟨?_, hlt⟩
      show ((Function.update u.blockSizes id (toSize size) id : Nat) : Int) = size
      rw [Function.update_self]
      omega
    · show ((Function.update u.blockSizes id (toSize size) x.1 : Nat) : Int) = x.2 ∧ x.2 < 2 ^ 31
      rw [Function.update_of_ne (hid x hx)]
      exact hsized x hx
  · have hnew : (u.remember id p (toSize size)).named ((id, size) :: rest)
        = ⟨p, toSize size, fun _ => none⟩ :: u.named rest := by
      rw [Util.named, List.map_cons]
      show _ :: (u.remember id p (toSize size)).named rest = _
      rw [named_remember p _ hid, hsize]
      simp [Util.remember]
    rw [hnew]
    exact hI

/-- An id is given up. -/
theorem Tabled.drop {u : Util} {sizes : List (Nat × Int)} {bs : List Blk} {h' : Heap} {id : Nat}
    {n : Int} (hN : Tabled u sizes) (hn : (id, n) ∈ sizes)
    (hI : Inv ⟨h', (u.named sizes).filter (fun l => l.ptr ≠ u.blocks id)⟩ bs) :
    Tabled (u.setHeap h') (sizes.filter (·.1 ≠ id)) := by
  rw [hN.filter hn] at hI
  refine ⟨?_, fun x hx => hN.sized x (List.mem_filter.mp hx).1, bs, hI⟩
  exact hN.nodup.sublist (List.filter_sublist.map _)

/-- The size that is read back for an id. -/
theorem Tabled.oldsize {u : Util} {sizes : List (Nat × Int)} {id : Nat} {n : Int}
    (hN : Tabled u sizes) (hn : (id, n) ∈ sizes) :
    toInt (u.blockSizes id) = n ∧ 0 ≤ n ∧ n < 2 ^ 31 := by
  have hsized : (u.blockSizes id : Int) = n ∧ n < 2 ^ 31 := hN.sized _ hn
  refine ⟨?_, by omega, hsized.2⟩
  unfold toInt
  rw [if_pos (by omega)]
  exact hsized.1

/-- The sizes that the tables name add up to less than the heap. -/
theorem Tabled.total_lt {u : Util} {sizes : List (Nat × Int)} (hN : Tabled u sizes) :
    0 ≤ (sizes.map Prod.snd).sum ∧ (sizes.map Prod.snd).sum < memHeapsize u.heap ∧
      memHeapsize u.heap ≤ MAX_HEAP := by
  obtain ⟨bs, hI⟩ := hN.serves
  have hpos : ∀ n ∈ sizes.map Prod.snd, 0 ≤ n := by
    intro n hn
    obtain ⟨x, hx, rfl⟩ := List.mem_map.mp hn
    rw [← (hN.sized x hx).1]
    exact Int.natCast_nonneg _
  have hsum : (((u.named sizes).map Live.size).sum : Int) = (sizes.map Prod.snd).sum := by
    rw [Util.named, List.map_map, Nat.cast_list_sum, List.map_map]
    refine congrArg List.sum (List.map_congr_left (fun x hx => ?_))
    exact Int.toNat_of_nonneg (hpos x.2 (List.mem_map_of_mem hx))
  refine ⟨List.sum_nonneg hpos, ?_, hI.rep.heapsize_le⟩
  calc (sizes.map Prod.snd).sum
      = (((u.named sizes).map Live.size).sum : Int) := hsum.symm
    _ ≤ (span bs : Int) := by exact_mod_cast hI.sum_le
    _ < (memHeapsize u.heap : Int) := by
        rw [hI.rep.heapsize]
        omega

/-! ## The statistics -/

/-- The largest total, after one more request. -/
theorem greatest_concat {ops : List TraceOp} {op : TraceOp} {m : Int}
    (hm : IsGreatest (liveTotal '' { ops' | ops' <+: ops }) m) :
    IsGreatest (liveTotal '' { ops' | ops' <+: ops ++ [op] }) (max (liveTotal (ops ++ [op])) m) := by
  have hprefixes : { ops' | ops' <+: ops ++ [op] } = insert (ops ++ [op]) { ops' | ops' <+: ops } := by
    ext ops'
    exact List.prefix_concat_iff
  rw [hprefixes, Set.image_insert_eq]
  exact hm.insert _

theorem wp_addTotal {G : Event → Prop} {u : Util} {delta : Int} {Q : Unit → Util → Prop}
    (hlo : -2 ^ 31 ≤ u.totalSize + delta) (hhi : u.totalSize + delta < 2 ^ 31) :
    Wp G (addTotal delta) u Q ↔ Q () (u.setTotal (u.totalSize + delta)) := by
  rw [addTotal, wp_bind, wp_reads, wp_bind, intValue, if_pos ⟨hlo, hhi⟩, wp_pure, wp_modifies]

/-- The end of the cases `ALLOC` and `REALLOC`. -/
theorem finish_spec {u : Util} {ops : List TraceOp} {op : TraceOp} {delta : Int}
    (hN : Tabled u (liveSizes (ops ++ [op]))) (htotal : u.totalSize + delta = liveTotal (ops ++ [op]))
    (hgreatest : IsGreatest (liveTotal '' { ops' | ops' <+: ops }) u.maxTotalSize)
    (hbelow : u.maxTotalSize < memHeapsize u.heap) :
    Wp Event.Ok (do
      addTotal delta
      modifies (·.raiseMax)
      return .ok ()) u (fun (r : Except UtilError Unit) u' =>
        r = .ok () ∧ UtilInv u' (ops ++ [op])) := by
  obtain ⟨h0, hlt, hmax⟩ := hN.total_lt
  have hsum : liveTotal (ops ++ [op]) = ((liveSizes (ops ++ [op])).map Prod.snd).sum := rfl
  unfold MAX_HEAP at hmax
  rw [wp_bind, wp_addTotal (by omega) (by omega), wp_bind, wp_modifies, wp_pure, htotal]
  refine ⟨rfl, ⟨hN.nodup, hN.sized, hN.serves⟩, rfl, ?_, ?_⟩
  · -- the comparison of the source is the maximum
    have hraise : ((u.setTotal (liveTotal (ops ++ [op]))).raiseMax).maxTotalSize
        = max (liveTotal (ops ++ [op])) u.maxTotalSize := by
      show (if u.maxTotalSize < liveTotal (ops ++ [op]) then liveTotal (ops ++ [op])
        else u.maxTotalSize) = _
      split <;> omega
    rw [hraise]
    exact greatest_concat hgreatest
  · show (if u.maxTotalSize < liveTotal (ops ++ [op]) then liveTotal (ops ++ [op])
      else u.maxTotalSize) < (memHeapsize u.heap : Int)
    split <;> omega

/-! ## One request -/

theorem rely_onUtil {α : Type} {m : M α} {u : Util} {Q : α → Heap → Prop}
    (hm : Rely Event.NoWrap Event.Ok m u.heap Q) :
    Rely Event.NoWrap Event.Ok (onUtil m) u (fun a u' => ∃ h', Q a h' ∧ u' = u.setHeap h') :=
  Rely.zoom hm

/-- The request `alloc`. -/
theorem utilAlloc_spec {u : Util} {ops : List TraceOp} {index : Nat} {size : Int}
    (hU : UtilInv u ops) (hid : ∀ x ∈ liveSizes ops, x.1 ≠ index) (h1 : 1 ≤ size)
    (hlt : size < 2 ^ 31) :
    Rely Event.NoWrap Event.Ok (utilAlloc index size) u (fun r u' =>
      r = .error .mallocFailed ∨
        r = .ok () ∧ UtilInv u' (ops ++ [⟨.alloc, index, size⟩])) := by
  obtain ⟨bs, hI⟩ := hU.named.serves
  have hsize : toSize size < 2 ^ 31 := by
    unfold toSize
    omega
  have hmalloc := hI.rep.sizes_sound (hsize.trans (by norm_num)) (small_sound hsize)
  rw [utilAlloc]
  apply (rely_onUtil hmalloc).bind
  rintro p u1 ⟨h', ⟨-, rfl, rfl⟩ | ⟨o, bs', ha, rfl, hr, hK⟩, rfl⟩
  · rw [if_pos rfl]
    exact Rely.pure (Or.inl rfl)
  · have hne : firstBlkp u.heap + o ≠ NULL := firstBlkp_add_ne u.heap o
    have hI' := hI.alloc (d := fun _ => none) ha hr hK (fun i v _ hv => nomatch hv)
    have hput : Tabled ((u.setHeap h').remember index (firstBlkp u.heap + o) (toSize size))
        ((index, size) :: liveSizes ops) :=
      Tabled.put hU.named.nodup hid hU.named.sized h1 hlt hI'
    have hsizes : liveSizes (ops ++ [⟨.alloc, index, size⟩]) = (index, size) :: liveSizes ops := by
      rw [liveSizes_concat]
      refine congrArg _ (List.filter_eq_self.mpr (fun x hx => ?_))
      exact decide_eq_true (hid x hx)
    -- the heap never shrinks, so the old maximum stays below it
    have hgrown : memHeapsize u.heap ≤ memHeapsize h' := by
      rw [hI.rep.heapsize, hr.heapsize]
      exact Nat.add_le_add_left (span_allocate ha) 16
    have hbelow := hU.below
    have htotal : u.totalSize + size = liveTotal (ops ++ [⟨.alloc, index, size⟩]) :=
      calc u.totalSize + size
        _ = size + ((liveSizes ops).map Prod.snd).sum := by rw [hU.total, liveTotal, add_comm]
        _ = liveTotal (ops ++ [⟨.alloc, index, size⟩]) := by
          rw [liveTotal, hsizes, List.map_cons, List.sum_cons]
    rw [← hsizes] at hput
    rw [if_neg hne]
    refine Wp.bind_rely ((wp_modifies _ _).mpr (Wp.rely ?_))
    refine (finish_spec hput htotal hU.greatest ?_).mono (fun _ _ hpost => Or.inr hpost)
    show u.maxTotalSize < (memHeapsize h' : Int)
    omega

/-- The request `realloc`. -/
theorem utilRealloc_spec {u : Util} {ops : List TraceOp} {index : Nat} {size n : Int}
    (hU : UtilInv u ops) (hn : (index, n) ∈ liveSizes ops) (h1 : 1 ≤ size)
    (hlt : size < 2 ^ 31) :
    Rely Event.NoWrap Event.Ok (utilRealloc index size) u (fun r u' =>
      r = .error .reallocFailed ∨
        r = .ok () ∧ UtilInv u' (ops ++ [⟨.realloc, index, size⟩])) := by
  have hN := hU.named
  obtain ⟨bs, hI⟩ := hN.serves
  have hsize : 1 ≤ toSize size ∧ toSize size < 2 ^ 31 := by
    unfold toSize
    omega
  have hlive : Sys.IsLive ⟨u.heap, u.named (liveSizes ops)⟩ (u.blocks index) :=
    ⟨_, List.mem_map_of_mem hn, rfl⟩
  obtain ⟨l, m, -, -, -, hm, -⟩ := hI.isLive hlive
  have hmalloc := hI.rep.sizes_sound (hsize.2.trans (by norm_num)) (small_sound hsize.2)
  obtain ⟨hold, hn0, hnlt⟩ := hN.oldsize hn
  rw [utilRealloc]
  refine Rely.reads_bind (fun oldsize ho => ?_)
  obtain rfl : n = oldsize := (Eq.trans ho hold).symm
  refine Rely.reads_bind (fun oldp hp => ?_)
  obtain rfl : oldp = u.blocks index := hp
  apply (rely_onUtil (mmRealloc_spec hI.rep hm hsize.1 hmalloc)).bind
  rintro q u1 ⟨h', ⟨-, rfl, rfl⟩ | ⟨o, bs', ha, rfl, hr, hK, -⟩, rfl⟩
  · rw [if_pos rfl]
    exact Rely.pure (Or.inl rfl)
  · have hne : firstBlkp u.heap + o ≠ NULL := firstBlkp_add_ne u.heap o
    have hI' := hI.move (d := fun _ => none) hlive ha hr hK (fun i v _ hv => nomatch hv)
    -- the table without the old size and with the new one
    have hI'' : Inv ⟨h', ⟨firstBlkp u.heap + o, toSize size, fun _ => none⟩ ::
        u.named ((liveSizes ops).filter (·.1 ≠ index))⟩
        (freeAt (u.blocks index - firstBlkp u.heap) bs') := by
      rw [← hN.filter hn]
      exact hI'
    have hput : Tabled ((u.setHeap h').remember index (firstBlkp u.heap + o) (toSize size))
        ((index, size) :: (liveSizes ops).filter (·.1 ≠ index)) := by
      refine Tabled.put (hN.nodup.sublist (List.filter_sublist.map _)) (fun x hx => ?_)
        (fun x hx => hN.sized x (List.mem_filter.mp hx).1) h1 hlt hI''
      exact of_decide_eq_true (List.mem_filter.mp hx).2
    have hsizes : liveSizes (ops ++ [⟨.realloc, index, size⟩])
        = (index, size) :: (liveSizes ops).filter (·.1 ≠ index) := liveSizes_concat _ _
    have hgrown : memHeapsize u.heap ≤ memHeapsize h' := by
      rw [hI.rep.heapsize, hr.heapsize, span_freeAt]
      exact Nat.add_le_add_left (span_allocate ha) 16
    have hbelow := hU.below
    have htotal : u.totalSize + (size - n) = liveTotal (ops ++ [⟨.realloc, index, size⟩]) :=
      calc u.totalSize + (size - n)
        _ = size + (((liveSizes ops).map Prod.snd).sum - n) := by
          rw [hU.total, liveTotal]
          ring
        _ = size + (((liveSizes ops).filter (·.1 ≠ index)).map Prod.snd).sum := by
          rw [sum_filter_ne hN.nodup hn]
        _ = liveTotal (ops ++ [⟨.realloc, index, size⟩]) := by
          rw [liveTotal, hsizes, List.map_cons, List.sum_cons]
    rw [← hsizes] at hput
    rw [if_neg hne]
    refine Wp.bind_rely ((wp_modifies _ _).mpr (Wp.rely ?_))
    rw [wp_bind, intValue, if_pos (by omega), wp_pure]
    refine (finish_spec hput htotal hU.greatest ?_).mono (fun _ _ hpost => Or.inr hpost)
    show u.maxTotalSize < (memHeapsize h' : Int)
    omega

theorem UtilInv.exact {u : Util} {ops : List TraceOp} (hU : UtilInv u ops) : Exact u ops := by
  obtain ⟨h0, hlt, hheap⟩ := hU.named.total_lt
  have htotal : u.totalSize = ((liveSizes ops).map Prod.snd).sum := hU.total
  unfold MAX_HEAP at hheap
  exact ⟨hU.total, ⟨by omega, by omega⟩, hU.greatest, hU.below⟩

/-- After a `free` the total is smaller, and the maximum stays. -/
theorem UtilInv.freed {u : Util} {ops : List TraceOp} {index : Nat} {n size : Int} {h' : Heap}
    (hU : UtilInv u ops) (hn : (index, n) ∈ liveSizes ops) (hn0 : 0 ≤ n)
    (hdrop : Tabled (u.setHeap h') ((liveSizes ops).filter (·.1 ≠ index)))
    (hsame : memHeapsize h' = memHeapsize u.heap) :
    UtilInv ((u.setHeap h').setTotal (u.totalSize + -n)) (ops ++ [⟨.free, index, size⟩]) := by
  have hsizes : liveSizes (ops ++ [⟨.free, index, size⟩])
      = (liveSizes ops).filter (·.1 ≠ index) := liveSizes_concat _ _
  have htotal : liveTotal (ops ++ [⟨.free, index, size⟩]) = u.totalSize + -n := by
    rw [liveTotal, hsizes, sum_filter_ne hU.named.nodup hn, hU.total, liveTotal, sub_eq_add_neg]
  have hmax : liveTotal ops ≤ u.maxTotalSize := hU.greatest.2 ⟨ops, List.prefix_refl ops, rfl⟩
  have hless := hU.total
  refine ⟨?_, htotal.symm, ?_, ?_⟩
  · rw [hsizes]
    exact ⟨hdrop.nodup, hdrop.sized, hdrop.serves⟩
  · have hstay : u.maxTotalSize
        = max (liveTotal (ops ++ [⟨.free, index, size⟩])) u.maxTotalSize := by omega
    show IsGreatest _ u.maxTotalSize
    rw [hstay]
    exact greatest_concat hU.greatest
  · show u.maxTotalSize < (memHeapsize h' : Int)
    rw [hsame]
    exact hU.below

/-- The request `free`. -/
theorem utilFree_spec {u : Util} {ops : List TraceOp} {index : Nat} {n size : Int}
    (hU : UtilInv u ops) (hn : (index, n) ∈ liveSizes ops) :
    Rely Event.NoWrap Event.Ok (utilFree index) u (fun r u' =>
      r = .ok () ∧ UtilInv u' (ops ++ [⟨.free, index, size⟩])) := by
  have hN := hU.named
  obtain ⟨bs, hI⟩ := hN.serves
  have hlive : Sys.IsLive ⟨u.heap, u.named (liveSizes ops)⟩ (u.blocks index) :=
    ⟨_, List.mem_map_of_mem hn, rfl⟩
  obtain ⟨l, m, -, -, -, hm, -⟩ := hI.isLive hlive
  obtain ⟨hold, hn0, hnlt⟩ := hN.oldsize hn
  rw [utilFree]
  refine Rely.reads_bind (fun oldsize ho => ?_)
  obtain rfl : n = oldsize := (Eq.trans ho hold).symm
  refine Rely.reads_bind (fun p hp => ?_)
  obtain rfl : p = u.blocks index := hp
  apply (rely_onUtil (mmFree_allocated hI.rep hm).rely).bind
  rintro _ u1 ⟨h', ⟨hr, hK⟩, rfl⟩
  have hdrop : Tabled (u.setHeap h') ((liveSizes ops).filter (·.1 ≠ index)) :=
    hN.drop hn (hI.release hlive hr hK)
  have hsame : memHeapsize h' = memHeapsize u.heap := by
    rw [hI.rep.heapsize, hr.heapsize, span_freeAt]
  have hU' : UtilInv ((u.setHeap h').setTotal (u.totalSize + -n)) (ops ++ [⟨.free, index, size⟩]) :=
    hU.freed hn hn0 hdrop hsame
  -- the new total is one of live blocks, so it is an `int`
  obtain ⟨h0, hlt⟩ : 0 ≤ (u.setHeap h').totalSize + -n ∧ (u.setHeap h').totalSize + -n < 2 ^ 31 :=
    hU'.exact.range
  exact Wp.bind_rely ((wp_addTotal (by omega) hlt).mpr (Rely.pure ⟨rfl, hU'⟩))

/-! ## Whole traces -/

/-- The ids that are allocated are those with a size. -/
def SameIds (ids : List Nat) (ops : List TraceOp) : Prop :=
  ∀ id, id ∈ ids ↔ ∃ n, (id, n) ∈ liveSizes ops

theorem SameIds.after {numIds : Nat} {ids : List Nat} {ops : List TraceOp} {op : TraceOp}
    (hids : SameIds ids ops) (hop : op.Legal numIds ids) :
    SameIds (op.after ids) (ops ++ [op]) := by
  obtain ⟨type, index, size⟩ := op
  -- an id that is given a size, and an id that loses it
  have hput : ∀ id, (∃ n, (id, n) ∈ (index, size) :: (liveSizes ops).filter (·.1 ≠ index))
      ↔ id = index ∨ id ∈ ids := by
    intro id
    rw [hids id]
    constructor
    · rintro ⟨n, hn⟩
      rcases List.mem_cons.mp hn with he | hn
      · exact Or.inl (congrArg Prod.fst he)
      · exact Or.inr ⟨n, (List.mem_filter.mp hn).1⟩
    · intro hid
      by_cases he : id = index
      · exact ⟨size, he ▸ List.mem_cons_self⟩
      · obtain ⟨n, hn⟩ := hid.resolve_left he
        exact ⟨n, List.mem_cons_of_mem _ (List.mem_filter.mpr ⟨hn, decide_eq_true he⟩)⟩
  intro id
  rw [liveSizes_concat]
  cases type with
  | alloc =>
      show id ∈ index :: ids ↔ _
      rw [List.mem_cons]
      exact (hput id).symm
  | realloc =>
      show id ∈ ids ↔ _
      refine Iff.trans ?_ (hput id).symm
      constructor
      · exact Or.inr
      · rintro (rfl | hid)
        · exact hop.2.2
        · exact hid
  | free =>
      show id ∈ ids.filter (· ≠ index) ↔ ∃ n, (id, n) ∈ (liveSizes ops).filter (·.1 ≠ index)
      simp only [List.mem_filter, hids id]
      exact exists_and_right.symm

/-- What one legal request does. -/
theorem utilOp_spec {u : Util} {ops : List TraceOp} {op : TraceOp} {numIds : Nat} {ids : List Nat}
    (hU : UtilInv u ops) (hids : SameIds ids ops) (hop : op.Legal numIds ids) :
    Rely Event.NoWrap Event.Ok (utilOp op) u (fun r u' =>
      (∃ e, r = .error e) ∨ r = .ok () ∧ UtilInv u' (ops ++ [op])) := by
  obtain ⟨type, index, size⟩ := op
  obtain ⟨-, hop⟩ := hop
  cases type with
  | alloc =>
      -- an id that is not allocated has no size in the table
      obtain ⟨⟨h1, hlt⟩, hid⟩ := hop
      have hfresh : ∀ x ∈ liveSizes ops, x.1 ≠ index := by
        rintro x hx rfl
        exact hid ((hids _).mpr ⟨x.2, hx⟩)
      exact (utilAlloc_spec hU hfresh h1 hlt).mono (fun _ _ hpost => hpost.imp_left (fun h => ⟨_, h⟩))
  | realloc =>
      obtain ⟨⟨h1, hlt⟩, hid⟩ := hop
      obtain ⟨n, hn⟩ := (hids _).mp hid
      exact (utilRealloc_spec hU hn h1 hlt).mono
        (fun _ _ hpost => hpost.imp_left (fun h => ⟨_, h⟩))
  | free =>
      obtain ⟨n, hn⟩ := (hids _).mp hop
      exact (utilFree_spec hU hn).mono (fun _ _ hpost => Or.inr hpost)

theorem utilOps_spec {u : Util} {done ops : List TraceOp} {numIds : Nat} {ids : List Nat}
    (hU : UtilInv u done) (hids : SameIds ids done) (hops : LegalFrom numIds ids ops) :
    Rely Event.NoWrap Event.Ok (utilOps ops) u (fun r u' =>
      (∃ e, r = .error e) ∨ r = .ok () ∧ UtilInv u' (done ++ ops)) := by
  induction ops generalizing u done ids with
  | nil =>
      rw [utilOps, List.append_nil]
      exact Rely.pure (Or.inr ⟨rfl, hU⟩)
  | cons op ops ih =>
      rw [utilOps]
      apply (utilOp_spec hU hids hops.1).bind
      rintro r u' (⟨e, rfl⟩ | ⟨rfl, hU'⟩)
      · exact Rely.pure (Or.inl ⟨e, rfl⟩)
      · have hrest := ih hU' (hids.after hops.1) hops.2
        rw [List.append_assoc] at hrest
        exact hrest

/-- An empty heap with nothing live. -/
theorem utilInit_spec {u : Util} (hA : Arena u.heap) :
    Rely Event.NoWrap Event.Ok utilInit u (fun r u' => r = .ok () ∧ UtilInv u' []) := by
  have hreset : Rely Event.NoWrap Event.Ok memResetBrk u.heap
      (fun _ h' => Arena h' ∧ h'.memBrk = h'.memStartBrk) :=
    ((wp_modifies _ _).mpr ⟨⟨hA.aligned, hA.nonnull, hA.maxAddr, hA.fits⟩, rfl⟩).rely
  rw [utilInit]
  refine Wp.bind_rely ((wp_modifies _ _).mpr ?_)
  apply (rely_onUtil (u := { u with totalSize := 0, maxTotalSize := 0 }) hreset).bind
  rintro _ u1 ⟨h1, ⟨hA1, hbrk⟩, rfl⟩
  apply (rely_onUtil (mmInit_spec hA1 hbrk)).bind
  rintro r u2 ⟨h2, ⟨rfl, hr, -⟩, rfl⟩
  rw [if_neg (by decide)]
  refine Rely.pure ⟨rfl, ⟨List.nodup_nil, fun _ hx => (nomatch hx), _, inv_init hr⟩, rfl, ?_, ?_⟩
  · have hnil : { ops' : List TraceOp | ops' <+: [] } = {[]} := by
      ext ops'
      exact List.prefix_nil
    rw [hnil, Set.image_singleton]
    exact isGreatest_singleton
  · show (0 : Int) < memHeapsize h2
    rw [hr.heapsize]
    omega

theorem utilRun_spec {u : Util} {numIds : Nat} {ops : List TraceOp} (hA : Arena u.heap)
    (hops : LegalFrom numIds [] ops) :
    Rely Event.NoWrap Event.Ok (utilRun ops) u (fun r u' =>
      (∃ e, r = .error e) ∨ r = .ok () ∧ UtilInv u' ops) := by
  rw [utilRun]
  apply (utilInit_spec hA).bind
  rintro r u' ⟨rfl, hU⟩
  exact utilOps_spec hU (fun id => by simp [liveSizes]) hops

/-! ## Prefixes -/

theorem utilOps_append (ops₁ ops₂ : List TraceOp) :
    utilOps (ops₁ ++ ops₂) = (do
      match (← utilOps ops₁) with
      | .error e => return .error e
      | .ok () => utilOps ops₂) := by
  induction ops₁ with
  | nil => rfl
  | cons op ops₁ ih =>
      rw [List.cons_append, utilOps, utilOps, bind_bind, ih]
      refine congrArg _ (funext (fun r => ?_))
      cases r with
      | error e => rfl
      | ok _ => rfl

theorem utilRun_append (ops₁ ops₂ : List TraceOp) :
    utilRun (ops₁ ++ ops₂) = (do
      match (← utilRun ops₁) with
      | .error e => return .error e
      | .ok () => utilOps ops₂) := by
  rw [utilRun, utilRun, bind_bind, utilOps_append]
  refine congrArg _ (funext (fun r => ?_))
  cases r with
  | error e => rfl
  | ok _ => rfl

theorem legalFrom_first {numIds : Nat} {ids : List Nat} {ops₁ ops₂ : List TraceOp}
    (hops : LegalFrom numIds ids (ops₁ ++ ops₂)) : LegalFrom numIds ids ops₁ := by
  induction ops₁ generalizing ids with
  | nil => trivial
  | cons op ops₁ ih => exact ⟨hops.1, ih hops.2⟩

/-- The loop got through the first requests, when it got through all of them. -/
theorem utilRun_first {u u' : Util} {numIds : Nat} {ops₁ ops₂ : List TraceOp} (hA : Arena u.heap)
    (hops : LegalFrom numIds [] (ops₁ ++ ops₂)) (hnw : NoWrap ((utilRun (ops₁ ++ ops₂)).log u))
    (hout : (utilRun (ops₁ ++ ops₂)).out u = some (.ok (), u')) :
    ∃ u₁, (utilRun ops₁).out u = some (.ok (), u₁) ∧ Exact u₁ ops₁ ∧
      (utilOps ops₂).out u₁ = some (.ok (), u') := by
  rw [utilRun_append] at hnw hout
  obtain ⟨-, r, u₁, hout₁, hpost⟩ :=
    utilRun_spec hA (legalFrom_first hops) (fun e he => hnw e (mem_log_bind he _))
  rw [out_bind, hout₁] at hout
  rcases hpost with ⟨e, rfl⟩ | ⟨rfl, hU⟩
  · cases hout
  · exact ⟨u₁, hout₁, hU.exact, hout⟩

/-- When `eval_mm_util` gets through, the totals were exact after each of the requests, and the ratio
is below 1. -/
theorem evalMmUtil_ok {u : Util} {trace : Trace} (hA : Arena u.heap) (hlegal : trace.Legal)
    (hnw : NoWrap ((evalMmUtil trace).log u)) :
    ∃ r u', (evalMmUtil trace).out u = some (r, u') ∧ ∀ ratio, r = .ok ratio →
      (ratio = (u'.maxTotalSize : ℚ) / (memHeapsize u'.heap : ℚ) ∧ ratio < 1) ∧
      ∀ ops₁ ops₂, trace.ops = ops₁ ++ ops₂ →
        ∃ u₁, (utilRun ops₁).out u = some (.ok (), u₁) ∧ Exact u₁ ops₁ ∧
          (utilOps ops₂).out u₁ = some (.ok (), u') := by
  rw [evalMmUtil] at hnw ⊢
  have hrun : NoWrap ((utilRun trace.ops).log u) := fun e he => hnw e (mem_log_bind he _)
  obtain ⟨-, r, u', hout, hpost⟩ := utilRun_spec hA hlegal hrun
  rw [out_bind, hout]
  rcases hpost with ⟨e, rfl⟩ | ⟨rfl, hU⟩
  · exact ⟨.error e, u', rfl, fun _ h => nomatch h⟩
  · refine ⟨_, u', rfl, ?_⟩
    rintro ratio h
    cases h
    refine ⟨⟨rfl, ?_⟩, fun ops₁ ops₂ hops => ?_⟩
    · have hbelow := hU.below
      have hpos : (0 : ℚ) < (memHeapsize u'.heap : ℚ) := by
        have h0 := hU.named.total_lt
        have h1 : 0 < memHeapsize u'.heap := by omega
        exact_mod_cast h1
      rw [div_lt_one hpos]
      exact_mod_cast hbelow
    · rw [Trace.Legal, hops] at hlegal
      rw [hops] at hrun hout
      exact utilRun_first hA hlegal hrun hout

/-- The driver over the sample arena, with empty tables. -/
def sampleUtil : Util := ⟨sampleHeap, fun _ => 0, fun _ => 0, 0, 0⟩

/-- A trace that moves its first block. -/
def utilTrace : Trace :=
  ⟨2, [⟨.alloc, 0, 2040⟩, ⟨.realloc, 0, 100⟩, ⟨.alloc, 1, 30⟩, ⟨.free, 0, 0⟩]⟩

theorem utilTrace_legal : utilTrace.Legal :=
  ⟨⟨by decide, by decide, by decide⟩, ⟨by decide, by decide, by decide⟩,
    ⟨by decide, by decide, by decide⟩, ⟨by decide, by decide⟩, trivial⟩

end MallocLab
