import MallocLab.Driver.Valid
import MallocLab.Client.Safety

set_option autoImplicit false

/-! # When the driver accepts the allocator

The driver is a client of the allocator: its tables name the live blocks, and the byte it
fills a block with is the last one written there (`Serves`). So on a legal trace no range is
ever refused, and the bytes looked at after a `mm_realloc` are those of the old block. But the
look-up compares a signed `char` with a value between 0 and 255, and fails for every id whose
low byte is 128 or more. The driver accepts exactly the traces that `mm_realloc` no such id
(`evalMmValid_ok_iff`).
-/

namespace MallocLab

open Logged Words Tiling BlockList

/-! ## The tables -/

/-- The block of an allocated id, filled with the low byte of the id. -/
def Driver.liveOf (d : Driver) (id : Nat) : Live :=
  ⟨d.blocks id, d.blockSizes id, fun _ => some (UInt8.ofNat (Driver.lowByte id))⟩

/-- The range of a block. -/
def Live.range (l : Live) : Range := ⟨l.ptr, l.ptr + l.size - 1⟩

/-- The tables of the driver name the live blocks, one for each allocated id, and every recorded
range is that of a live block. -/
structure Tables (d : Driver) (ids : List Nat) (live : List Live) : Prop where
  mem_live : ∀ l, l ∈ live ↔ ∃ id ∈ ids, d.liveOf id = l
  inj : ∀ i ∈ ids, ∀ j ∈ ids, d.blocks i = d.blocks j → i = j
  small : ∀ id ∈ ids, d.blockSizes id < 2 ^ 31
  ranges : ∀ q ∈ d.ranges, ∃ l ∈ live, l.range = q
  distinct : (d.ranges.map Range.lo).Nodup

/-- The invariant of the loop: the heap serves the blocks that the tables name. -/
def Serves (d : Driver) (ids : List Nat) : Prop :=
  ∃ live bs, Inv ⟨d.heap, live⟩ bs ∧ Tables d ids live

theorem Tables.live {d : Driver} {ids : List Nat} {live : List Live} {id : Nat}
    (hT : Tables d ids live) (hid : id ∈ ids) : d.liveOf id ∈ live :=
  (hT.mem_live _).mpr ⟨id, hid, rfl⟩

/-- Only the set of the allocated ids matters. -/
theorem Serves.congr {d : Driver} {ids ids' : List Nat} (hS : Serves d ids)
    (hids : ∀ id, id ∈ ids ↔ id ∈ ids') : Serves d ids' := by
  obtain ⟨live, bs, hI, hT⟩ := hS
  refine ⟨live, bs, hI, ⟨fun l => ?_, ?_, ?_, hT.ranges, hT.distinct⟩⟩
  · simp only [hT.mem_live l, hids]
  · intro i hi j hj
    exact hT.inj i ((hids i).mpr hi) j ((hids j).mpr hj)
  · intro id hid
    exact hT.small id ((hids id).mpr hid)

theorem mem_removeRange {q : Range} {lo : Nat} : ∀ {ranges : List Range},
    (ranges.map Range.lo).Nodup → q ∈ removeRange ranges lo → q ∈ ranges ∧ q.lo ≠ lo := by
  intro ranges hnd hq
  induction ranges with
  | nil => cases hq
  | cons p ps ih =>
      rw [List.map_cons, List.nodup_cons] at hnd
      rw [removeRange] at hq
      by_cases hp : p.lo = lo
      · rw [if_pos hp] at hq
        refine ⟨List.mem_cons_of_mem _ hq, fun hlo => hnd.1 ?_⟩
        rw [hp, ← hlo]
        exact List.mem_map_of_mem hq
      · rw [if_neg hp] at hq
        rcases List.mem_cons.mp hq with rfl | hq
        · exact ⟨List.mem_cons_self, hp⟩
        · obtain ⟨hmem, hlo⟩ := ih hnd.2 hq
          exact ⟨List.mem_cons_of_mem _ hmem, hlo⟩

theorem Tables.setHeap {d : Driver} {ids : List Nat} {live : List Live} (hT : Tables d ids live)
    (h : Heap) : Tables (d.setHeap h) ids live :=
  ⟨hT.mem_live, hT.inj, hT.small, hT.ranges, hT.distinct⟩

/-- An id is given up: its range is removed. -/
theorem Tables.remove {d : Driver} {ids : List Nat} {live : List Live} {id : Nat}
    (hT : Tables d ids live) (hid : id ∈ ids) :
    Tables { d with ranges := removeRange d.ranges (d.blocks id) }
      (ids.filter (· ≠ id)) (live.filter (fun l => l.ptr ≠ d.blocks id)) := by
  refine ⟨fun l => ?_, ?_, ?_, ?_, ?_⟩
  · constructor
    · intro hl
      obtain ⟨hl, hne⟩ := List.mem_filter.mp hl
      obtain ⟨i, hi, rfl⟩ := (hT.mem_live l).mp hl
      refine ⟨i, List.mem_filter.mpr ⟨hi, decide_eq_true ?_⟩, rfl⟩
      rintro rfl
      exact of_decide_eq_true hne rfl
    · rintro ⟨i, hi, rfl⟩
      obtain ⟨hi, hne⟩ := List.mem_filter.mp hi
      refine List.mem_filter.mpr ⟨hT.live hi, decide_eq_true ?_⟩
      exact fun hb => of_decide_eq_true hne (hT.inj i hi id hid hb)
  · intro i hi j hj
    exact hT.inj i (List.mem_filter.mp hi).1 j (List.mem_filter.mp hj).1
  · intro i hi
    exact hT.small i (List.mem_filter.mp hi).1
  · intro q hq
    obtain ⟨hq, hlo⟩ := mem_removeRange hT.distinct hq
    obtain ⟨l, hl, rfl⟩ := hT.ranges q hq
    exact ⟨l, List.mem_filter.mpr ⟨hl, decide_eq_true hlo⟩, rfl⟩
  · exact hT.distinct.sublist ((removeRange_sublist _ _).map _)

/-! ## A new block -/

/-- The range of a new block is never refused. -/
theorem addRange_new {d : Driver} {ids : List Nat} {live : List Live} {l : Live} {bs : List Blk}
    {size : Int} (hT : Tables d ids live) (hI : Inv ⟨d.heap, l :: live⟩ bs)
    (hsize : l.size = toSize size) (h1 : 1 ≤ size) (hlt : size < 2 ^ 31) :
    addRange d.heap d.ranges l.ptr size = some (.ok (l.range :: d.ranges)) := by
  obtain ⟨n, -, hln, hal, hlo, hup⟩ := hI.payload List.mem_cons_self
  have hbrk := hI.rep.brk_lt
  simp only at hlo hup hbrk
  have hs : (l.size : Int) = size := by
    rw [hsize]
    unfold toSize
    omega
  have hhi : rangeHi l.ptr size = l.ptr + l.size - 1 := by
    have heq : (rangeHi l.ptr size : Int) = l.ptr + size - 1 := rangeHi_eq (by omega) (by omega)
    omega
  have htop : memHeapHi d.heap = d.heap.memBrk - 1 := sub32_eq (by omega) hbrk
  have hrange : (⟨l.ptr, rangeHi l.ptr size⟩ : Range) = l.range := by rw [hhi, Live.range]
  have h0 : 0 < size := by omega
  rcases addRange_cases d.heap d.ranges l.ptr h0 with ⟨hwhy, -⟩ | ⟨-, hok⟩
  · exfalso
    rcases hwhy with hmis | hout | ⟨q, hq, hend⟩
    · exact hmis hal
    · rw [hhi, outsideHeap, htop, memHeapLo] at hout
      omega
    · -- the recorded range is that of another live block
      obtain ⟨k, hk, rfl⟩ := hT.ranges q hq
      obtain ⟨y, ⟨h3, h4⟩, h5, h6⟩ := shares_of_endpointIn (by omega) hend
      have hk1 := (hI.owns.room k (List.mem_cons_of_mem _ hk)).1
      have hapart := (List.pairwise_cons.mp hI.apart).1 k hk y
      unfold Live.Covers at hapart
      rw [hhi] at h4
      simp only [Live.range] at h3 h4 h5 h6
      exact hapart (by omega) (by omega)
  · rw [hok, hrange]

/-- Filling a block is a write of the client. -/
theorem write_memset {h : Heap} {l : Live} {live : List Live} (c : UInt8)
    (hne : ∀ k ∈ live, k.ptr ≠ l.ptr) :
    Sys.write ⟨h, l :: live⟩ l.ptr (fun _ => some c)
      = ⟨memset h l.ptr c l.size, { l with data := fun _ => some c } :: live⟩ := by
  have hfind : Sys.find ⟨h, l :: live⟩ l.ptr = some l := List.find?_cons_of_pos (decide_eq_true rfl)
  have hself : l.note l.ptr (fun _ => some c) = { l with data := fun _ => some c } := if_pos rfl
  have hmap : live.map (Live.note l.ptr (fun _ => some c)) = live := by
    refine (List.map_congr_left (fun k hk => ?_)).trans (List.map_id live)
    exact if_neg (hne k hk)
  rw [Sys.write, hfind]
  simp only [List.map_cons, hself, hmap]
  rfl

/-- A new id in the tables, with its block. -/
theorem Tables.insert {d d' : Driver} {ids : List Nat} {live : List Live} {id : Nat}
    (hT : Tables d ids live) (hold : ∀ i ∈ ids, d'.liveOf i = d.liveOf i)
    (hne : ∀ k ∈ live, k.ptr ≠ (d'.liveOf id).ptr) (hlt : (d'.liveOf id).size < 2 ^ 31)
    (hranges : d'.ranges = (d'.liveOf id).range :: d.ranges) :
    Tables d' (id :: ids) (d'.liveOf id :: live) := by
  have hlive : ∀ k, k ∈ live ↔ ∃ i ∈ ids, d'.liveOf i = k := by
    intro k
    rw [hT.mem_live k]
    constructor
    · rintro ⟨i, hi, rfl⟩
      exact ⟨i, hi, hold i hi⟩
    · rintro ⟨i, hi, rfl⟩
      exact ⟨i, hi, (hold i hi).symm⟩
  refine ⟨fun k => ?_, ?_, ?_, ?_, ?_⟩
  · rw [List.mem_cons, hlive k, List.exists_mem_cons_iff, eq_comm]
  · -- an old id and the new one name different blocks
    have hother : ∀ j ∈ ids, d'.blocks j ≠ d'.blocks id :=
      fun j hj => hne _ ((hlive _).mpr ⟨j, hj, rfl⟩)
    intro i hi j hj he
    rcases List.mem_cons.mp hi with hi | hi <;> rcases List.mem_cons.mp hj with hj | hj
    · exact hi.trans hj.symm
    · exact absurd (hi ▸ he.symm) (hother j hj)
    · exact absurd (hj ▸ he) (hother i hi)
    · apply hT.inj i hi j hj
      calc d.blocks i
        _ = d'.blocks i := (congrArg Live.ptr (hold i hi)).symm
        _ = d'.blocks j := he
        _ = d.blocks j := congrArg Live.ptr (hold j hj)
  · intro i hi
    rcases List.mem_cons.mp hi with rfl | hi
    · exact hlt
    · exact (congrArg Live.size (hold i hi)).trans_lt (hT.small i hi)
  · rw [hranges]
    refine List.forall_mem_cons.mpr ⟨⟨_, List.mem_cons_self, rfl⟩, fun q hq => ?_⟩
    obtain ⟨k, hk, hkq⟩ := hT.ranges q hq
    exact ⟨k, List.mem_cons_of_mem _ hk, hkq⟩
  · rw [hranges]
    refine List.nodup_cons.mpr ⟨fun hmem => ?_, hT.distinct⟩
    obtain ⟨q, hq, hlo⟩ := List.mem_map.mp hmem
    obtain ⟨k, hk, rfl⟩ := hT.ranges q hq
    exact hne k hk hlo

/-- A new block is recorded, filled and remembered under a new id. -/
theorem Tables.remember {d : Driver} {ids : List Nat} {live : List Live} {l : Live}
    {bs : List Blk} {id : Nat} (hT : Tables d ids live) (hI : Inv ⟨d.heap, l :: live⟩ bs)
    (hid : id ∉ ids) (hlt : l.size < 2 ^ 31) :
    Serves (({ d with ranges := l.range :: d.ranges } : Driver).remember id l.ptr l.size)
      (id :: ids) := by
  generalize hd' : ({ d with ranges := l.range :: d.ranges } : Driver).remember id l.ptr l.size = d'
  -- two live blocks never start at one address
  have hne : ∀ k ∈ live, k.ptr ≠ l.ptr := by
    intro k hk he
    have hnd := hI.owns.nodup
    rw [List.map_cons, List.nodup_cons] at hnd
    exact hnd.1 (he ▸ List.mem_map_of_mem hk)
  have hnew : d'.liveOf id = ⟨l.ptr, l.size, fun _ => some (UInt8.ofNat (Driver.lowByte id))⟩ := by
    subst hd'
    simp [Driver.liveOf, Driver.remember]
  have hold : ∀ i ∈ ids, d'.liveOf i = d.liveOf i := by
    intro i hi
    have hii : i ≠ id := fun he => hid (he ▸ hi)
    subst hd'
    simp [Driver.liveOf, Driver.remember, Function.update_of_ne hii]
  -- filling the block is a write of the client
  have hfill := (hI.write ⟨l, List.mem_cons_self, rfl⟩
    (fun _ => some (UInt8.ofNat (Driver.lowByte id)))).1
  rw [write_memset _ hne, ← hnew] at hfill
  refine ⟨d'.liveOf id :: live, bs, ?_, hT.insert hold ?_ ?_ ?_⟩
  · subst hd'
    exact hfill
  · rw [hnew]
    exact hne
  · rw [hnew]
    exact hlt
  · rw [hnew, ← hd']
    rfl

/-! ## The look-up -/

theorem lowByte_eq (index : Nat) : Driver.lowByte index = index % 256 :=
  Nat.and_two_pow_sub_one_eq_mod index 8

/-- A byte is read back through a `char *` as its own value exactly when it is below 128. -/
theorem charValue_ofNat {n : Nat} (hn : n < 256) : charValue (UInt8.ofNat n) = n ↔ n < 128 := by
  have hback : (UInt8.ofNat n).toNat = n := by
    rw [UInt8.toNat_ofNat']
    exact Nat.mod_eq_of_lt hn
  rw [charValue, hback]
  split <;> omega

/-- When the old bytes were copied, the look-up depends on the id alone. -/
theorem preserved_iff {d : Driver} {index q : Nat} {size : Int} (h1 : 1 ≤ size)
    (hlt : size < 2 ^ 31) (hold : 1 ≤ d.blockSizes index ∧ d.blockSizes index < 2 ^ 31)
    (hmem : ∀ j, j < min (d.blockSizes index) (toSize size) →
      d.heap.mem (q + j) = UInt8.ofNat (Driver.lowByte index)) :
    d.preserved index q size = true ↔ index % 256 < 128 := by
  -- the loop of the source runs over the bytes that were copied
  have hcount : (d.checkSize index size).toNat = min (d.blockSizes index) (toSize size) := by
    unfold Driver.checkSize toInt toSize
    rw [if_pos hold.2]
    simp only
    split <;> omega
  have hpos : 0 < min (d.blockSizes index) (toSize size) := by
    unfold toSize
    omega
  rw [Driver.preserved, decide_eq_true_iff, hcount, ← lowByte_eq]
  have hbyte : Driver.lowByte index < 256 := by
    rw [lowByte_eq]
    omega
  constructor
  · intro hall
    have h0 := hall 0 hpos
    rw [hmem 0 hpos] at h0
    exact (charValue_ofNat hbyte).mp h0
  · intro hlow j hj
    rw [hmem j hj]
    exact (charValue_ofNat hbyte).mpr hlow

/-! ## One request -/

theorem rely_onDriver {α : Type} {m : M α} {d : Driver} {Q : α → Heap → Prop}
    (hm : Rely Event.NoWrap Event.Ok m d.heap Q) :
    Rely Event.NoWrap Event.Ok (onDriver m) d (fun a d' => ∃ h', Q a h' ∧ d' = d.setHeap h') :=
  Rely.zoom hm

theorem addRangeTo_ok {d : Driver} {lo : Nat} {size : Int} {ranges : List Range}
    (hok : addRange d.heap d.ranges lo size = some (.ok ranges)) :
    Wp Event.Ok (addRangeTo lo size) d
      (fun e d' => e = none ∧ d' = { d with ranges := ranges }) := by
  rw [addRangeTo, wp_bind, wp_reads, hok]
  simp only [wp_bind, wp_modifies, wp_pure, and_self]

/-- The request `alloc`. -/
theorem alloc_spec {d : Driver} {ids : List Nat} {index : Nat} {size : Int} (i : Nat)
    (hS : Serves d ids) (hid : index ∉ ids) (h1 : 1 ≤ size) (hlt : size < 2 ^ 31) :
    Rely Event.NoWrap Event.Ok (evalAlloc i index size) d (fun r d' =>
      r = .error ⟨i, .mallocFailed⟩ ∨ r = .ok () ∧ Serves d' (index :: ids)) := by
  obtain ⟨live, bs, hI, hT⟩ := hS
  have hsize : toSize size < 2 ^ 31 := by
    unfold toSize
    omega
  have hmalloc := hI.rep.sizes_sound (hsize.trans (by norm_num)) (small_sound hsize)
  rw [evalAlloc]
  apply (rely_onDriver hmalloc).bind
  rintro p d1 ⟨h', ⟨-, rfl, rfl⟩ | ⟨o, bs', ha, rfl, hr, hK⟩, rfl⟩
  · rw [if_pos rfl]
    exact Rely.pure (Or.inl rfl)
  · have hne : firstBlkp d.heap + o ≠ NULL := firstBlkp_add_ne d.heap o
    have hI' := hI.alloc (d := fun _ => none) ha hr hK (fun i v _ hv => nomatch hv)
    have hok := addRange_new (hT.setHeap h') hI' rfl h1 hlt
    rw [if_neg hne]
    refine Wp.bind_rely ((addRangeTo_ok hok).mono ?_)
    rintro e d2 ⟨rfl, rfl⟩
    refine Wp.bind_rely ((wp_modifies _ _).mpr (Rely.pure (Or.inr ⟨rfl, ?_⟩)))
    exact (hT.setHeap h').remember hI' hid hsize

/-- The request `free`. -/
theorem free_spec {d : Driver} {ids : List Nat} {index : Nat}
    (hS : Serves d ids) (hid : index ∈ ids) :
    Rely Event.NoWrap Event.Ok (evalFree index) d (fun r d' =>
      r = .ok () ∧ Serves d' (ids.filter (· ≠ index))) := by
  obtain ⟨live, bs, hI, hT⟩ := hS
  have hlive : Sys.IsLive ⟨d.heap, live⟩ (d.blocks index) := ⟨_, hT.live hid, rfl⟩
  obtain ⟨l, n, -, -, -, hn, -⟩ := hI.isLive hlive
  rw [evalFree]
  refine Rely.reads_bind (fun p hp => ?_)
  obtain rfl : p = d.blocks index := hp
  -- the range is removed before the block is freed
  refine Wp.bind_rely ((wp_modifies _ _).mpr ?_)
  have hfree := rely_onDriver (d := { d with ranges := removeRange d.ranges (d.blocks index) })
    (mmFree_allocated hI.rep hn).rely
  apply hfree.bind
  rintro _ d1 ⟨h', ⟨hr, hK⟩, rfl⟩
  refine Rely.pure ⟨rfl, ?_⟩
  exact ⟨_, _, hI.release hlive hr hK, (hT.remove hid).setHeap h'⟩

/-- The part of `realloc` after the old range is removed. -/
theorem look_spec {d : Driver} {ids : List Nat} {live : List Live} {l : Live} {bs : List Blk}
    {index : Nat} {size : Int} (i : Nat) (hT : Tables d ids live)
    (hI : Inv ⟨d.heap, l :: live⟩ bs) (hid : index ∉ ids) (hsize : l.size = toSize size)
    (h1 : 1 ≤ size) (hlt : size < 2 ^ 31)
    (hold : 1 ≤ d.blockSizes index ∧ d.blockSizes index < 2 ^ 31)
    (hcopied : ∀ j, j < min (d.blockSizes index) (toSize size) →
      d.heap.mem (l.ptr + j) = UInt8.ofNat (Driver.lowByte index)) :
    Rely Event.NoWrap Event.Ok (do
      match (← addRangeTo l.ptr size) with
      | some e => return .error ⟨i, .range e⟩
      | none =>
          if (← reads (fun d => d.preserved index l.ptr size)) then
            modifies (·.remember index l.ptr (toSize size))
            return .ok ()
          else
            return .error ⟨i, .notPreserved⟩) d (fun (r : Except Failure Unit) d' =>
      (index % 256 < 128 ∧ r = .ok () ∧ Serves d' (index :: ids)) ∨
      (¬index % 256 < 128 ∧ r = .error ⟨i, .notPreserved⟩)) := by
  have hok := addRange_new hT hI hsize h1 hlt
  -- the test of the source says that the id is below 128 modulo 256
  have hlook := preserved_iff (d := { d with ranges := l.range :: d.ranges }) h1 hlt hold hcopied
  have hsmall : l.size < 2 ^ 31 := by
    rw [hsize]
    unfold toSize
    omega
  have hnew := hT.remember hI hid hsmall
  rw [hsize] at hnew
  refine Wp.bind_rely ((addRangeTo_ok hok).mono ?_)
  rintro e d1 ⟨rfl, rfl⟩
  refine Rely.reads_bind (fun b hb => Rely.ite (fun hyes => ?_) (fun hno => ?_))
  · refine Wp.bind_rely ((wp_modifies _ _).mpr (Rely.pure (Or.inl ⟨?_, rfl, ?_⟩)))
    · exact hlook.mp (hb.symm.trans hyes)
    · exact hnew
  · exact Rely.pure (Or.inr ⟨fun hlow => hno (hb.trans (hlook.mpr hlow)), rfl⟩)

/-- The request `realloc`: the outcome depends on the id. -/
theorem realloc_spec {d : Driver} {ids : List Nat} {index : Nat} {size : Int} (i : Nat)
    (hS : Serves d ids) (hid : index ∈ ids) (h1 : 1 ≤ size) (hlt : size < 2 ^ 31) :
    Rely Event.NoWrap Event.Ok (evalRealloc i index size) d (fun r d' =>
      r = .error ⟨i, .reallocFailed⟩ ∨
      (index % 256 < 128 ∧ r = .ok () ∧ Serves d' ids) ∨
      (¬index % 256 < 128 ∧ r = .error ⟨i, .notPreserved⟩)) := by
  obtain ⟨live, bs, hI, hT⟩ := hS
  have hsize : 1 ≤ toSize size ∧ toSize size < 2 ^ 31 := by
    unfold toSize
    omega
  have hl := hT.live hid
  have hlive : Sys.IsLive ⟨d.heap, live⟩ (d.blocks index) := ⟨_, hl, rfl⟩
  obtain ⟨hl1, n, hn, hle⟩ := hI.owns.room _ hl
  have hmalloc := hI.rep.sizes_sound (hsize.2.trans (by norm_num)) (small_sound hsize.2)
  rw [evalRealloc]
  refine Rely.reads_bind (fun p hp => ?_)
  obtain rfl : p = d.blocks index := hp
  apply (rely_onDriver (mmRealloc_spec hI.rep hn hsize.1 hmalloc)).bind
  rintro q d1 ⟨h', ⟨-, rfl, rfl⟩ | ⟨o, bs', ha, rfl, hr, hK, hbytes⟩, rfl⟩
  · rw [if_pos rfl]
    exact Rely.pure (Or.inl rfl)
  · have hne : firstBlkp d.heap + o ≠ NULL := firstBlkp_add_ne d.heap o
    -- the bytes that were copied are those the old block was filled with
    have hcopied : ∀ j, j < min (d.blockSizes index) (toSize size) →
        h'.mem (firstBlkp d.heap + o + j) = UInt8.ofNat (Driver.lowByte index) := by
      intro j hj
      simp only [Driver.liveOf] at hle
      rw [hbytes j (by omega) (by omega)]
      exact hI.holds _ hl j _ (by simp only [Driver.liveOf]; omega) rfl
    have hI' := hI.move (d := fun _ => none) hlive ha hr hK (fun i v _ hv => nomatch hv)
    have hself : ∀ id, id ∈ index :: ids.filter (· ≠ index) ↔ id ∈ ids := by
      intro id
      rw [List.mem_cons, List.mem_filter, decide_eq_true_iff]
      by_cases hii : id = index
      · exact ⟨fun _ => hii ▸ hid, fun _ => Or.inl hii⟩
      · exact ⟨fun h => (h.resolve_left hii).1, fun h => Or.inr ⟨h, hii⟩⟩
    have hrest := look_spec i ((hT.setHeap h').remove hid) hI' (by simp) rfl h1 hlt
      ⟨hl1, hT.small index hid⟩ hcopied
    rw [if_neg hne]
    refine Wp.bind_rely ((wp_modifies _ _).mpr (hrest.mono ?_))
    rintro r d2 (⟨hlow, hr, hS⟩ | ⟨hhigh, hr⟩)
    · exact Or.inr (Or.inl ⟨hlow, hr, hS.congr hself⟩)
    · exact Or.inr (Or.inr ⟨hhigh, hr⟩)

/-! ## Whole traces -/

/-- The request passes the look-up, if it has one. -/
def TraceOp.Readable (op : TraceOp) : Prop := op.type = .realloc → op.index % 256 < 128

/-- The driver reports that a call returned `NULL`. -/
def ReportsNull (r : Except Failure Unit) : Prop :=
  ∃ i, r = .error ⟨i, .mallocFailed⟩ ∨ r = .error ⟨i, .reallocFailed⟩

/-- What one legal request answers. -/
theorem evalOp_spec {d : Driver} {numIds : Nat} {ids : List Nat} {op : TraceOp} (i : Nat)
    (hS : Serves d ids) (hop : op.Legal numIds ids) :
    Rely Event.NoWrap Event.Ok (evalOp i op) d (fun r d' =>
      ReportsNull r ∨ (op.Readable ∧ r = .ok () ∧ Serves d' (op.after ids)) ∨
        (¬op.Readable ∧ r = .error ⟨i, .notPreserved⟩)) := by
  obtain ⟨type, index, size⟩ := op
  obtain ⟨-, hop⟩ := hop
  cases type with
  | alloc =>
      obtain ⟨⟨h1, hlt⟩, hid⟩ := hop
      refine (alloc_spec i hS hid h1 hlt).mono (fun r d' hpost => ?_)
      rcases hpost with hfail | ⟨hr, hS'⟩
      · exact Or.inl ⟨i, Or.inl hfail⟩
      · exact Or.inr (Or.inl ⟨fun h => (nomatch h), hr, hS'⟩)
  | realloc =>
      obtain ⟨⟨h1, hlt⟩, hid⟩ := hop
      refine (realloc_spec i hS hid h1 hlt).mono (fun r d' hpost => ?_)
      rcases hpost with hfail | ⟨hlow, hr, hS'⟩ | ⟨hhigh, hr⟩
      · exact Or.inl ⟨i, Or.inr hfail⟩
      · exact Or.inr (Or.inl ⟨fun _ => hlow, hr, hS'⟩)
      · exact Or.inr (Or.inr ⟨fun h => hhigh (h rfl), hr⟩)
  | free =>
      refine (free_spec hS hop).mono (fun r d' hpost => ?_)
      exact Or.inr (Or.inl ⟨fun h => (nomatch h), hpost.1, hpost.2⟩)

/-- What the loop answers: it fails at the first request that is not readable. -/
theorem evalOps_spec {d : Driver} {numIds : Nat} {ids : List Nat} {ops : List TraceOp} (i : Nat)
    (hS : Serves d ids) (hops : LegalFrom numIds ids ops) :
    Rely Event.NoWrap Event.Ok (evalOps i ops) d (fun r _ =>
      ReportsNull r ∨ ((∀ op ∈ ops, op.Readable) ∧ r = .ok ()) ∨
        ((¬∀ op ∈ ops, op.Readable) ∧ ∃ k, r = .error ⟨k, .notPreserved⟩)) := by
  induction ops generalizing d ids i with
  | nil =>
      rw [evalOps]
      exact Rely.pure (Or.inr (Or.inl ⟨fun _ h => (nomatch h), rfl⟩))
  | cons op ops ih =>
      rw [evalOps]
      apply (evalOp_spec i hS hops.1).bind
      rintro r d' (⟨k, rfl | rfl⟩ | ⟨hread, rfl, hS'⟩ | ⟨hno, rfl⟩)
      · exact Rely.pure (Or.inl ⟨k, Or.inl rfl⟩)
      · exact Rely.pure (Or.inl ⟨k, Or.inr rfl⟩)
      · refine (ih (i + 1) hS' hops.2).mono (fun r d'' hpost => ?_)
        rw [List.forall_mem_cons]
        rcases hpost with hmem | ⟨hall, hr⟩ | ⟨hsome, hr⟩
        · exact Or.inl hmem
        · exact Or.inr (Or.inl ⟨⟨hread, hall⟩, hr⟩)
        · exact Or.inr (Or.inr ⟨fun h => hsome h.2, hr⟩)
      · refine Rely.pure (Or.inr (Or.inr ⟨fun h => ?_, i, rfl⟩))
        exact hno (h op List.mem_cons_self)

/-- A trace starts with no id allocated. -/
theorem serves_nil {h : Heap} {blocks blockSizes : Nat → Nat} (hr : Rep h [⟨4096, false⟩]) :
    Serves ⟨h, [], blocks, blockSizes⟩ [] := by
  refine ⟨[], _, inv_init hr, ⟨fun l => ?_, ?_, ?_, ?_, List.nodup_nil⟩⟩
  · simp
  · intro i hi
    cases hi
  · intro i hi
    cases hi
  · intro q hq
    cases hq

theorem evalMmValid_spec {d : Driver} {trace : Trace} (hA : Arena d.heap) (hlegal : trace.Legal) :
    Rely Event.NoWrap Event.Ok (evalMmValid trace) d (fun r _ =>
      ReportsNull r ∨ ((∀ op ∈ trace.ops, op.Readable) ∧ r = .ok ()) ∨
        ((¬∀ op ∈ trace.ops, op.Readable) ∧ ∃ k, r = .error ⟨k, .notPreserved⟩)) := by
  have hreset : Rely Event.NoWrap Event.Ok memResetBrk d.heap
      (fun _ h' => Arena h' ∧ h'.memBrk = h'.memStartBrk) :=
    ((wp_modifies _ _).mpr ⟨⟨hA.aligned, hA.nonnull, hA.maxAddr, hA.fits⟩, rfl⟩).rely
  rw [evalMmValid]
  apply (rely_onDriver hreset).bind
  rintro _ d1 ⟨h1, ⟨hA1, hbrk⟩, rfl⟩
  refine Wp.bind_rely ((wp_modifies _ _).mpr ?_)
  have hinit := rely_onDriver (d := { d.setHeap h1 with ranges := [] }) (mmInit_spec hA1 hbrk)
  apply hinit.bind
  rintro r d2 ⟨h2, ⟨rfl, hr, -⟩, rfl⟩
  rw [if_neg (by decide)]
  exact evalOps_spec 0 (serves_nil hr) hlegal

/-- The driver over the sample arena, with empty tables. -/
def sampleDriver : Driver := ⟨sampleHeap, [], fun _ => 0, fun _ => 0⟩

end MallocLab
