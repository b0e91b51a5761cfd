import MallocLab.Client.System
import MallocLab.Heap.Realloc

set_option autoImplicit false

/-! # The invariant of all runs

`Inv s bs`: the heap encodes the block list `bs`, which is coalesced and not empty, its
allocated blocks are exactly the blocks the client holds, each with room for the size asked
for, and the last values the client wrote are in memory. Every valid call preserves it, and
does to the block list what `request` says (`call_spec`), so the allocator with its clients
refines a machine on block lists.
-/

namespace MallocLab

open Logged Words Tiling BlockList

/-! ## Live blocks and allocated blocks -/

/-- The live blocks are exactly the allocated blocks `xs`. -/
structure Owns (xs : List (Nat × Blk)) (live : List Live) : Prop where
  nodup : (live.map Live.ptr).Nodup
  room : ∀ l ∈ live, 1 ≤ l.size ∧ ∃ n, (l.ptr, ⟨n, true⟩) ∈ xs ∧ l.size + 8 ≤ n
  owned : ∀ x ∈ xs, ∃ l ∈ live, l.ptr = x.1

theorem Owns.add {xs ys : List (Nat × Blk)} {live : List Live} {l : Live} {n : Nat}
    (hO : Owns xs live) (hys : ∀ x, x ∈ ys ↔ x = (l.ptr, ⟨n, true⟩) ∨ x ∈ xs)
    (hfresh : ∀ x ∈ xs, x.1 ≠ l.ptr) (h1 : 1 ≤ l.size) (hn : l.size + 8 ≤ n) :
    Owns ys (l :: live) := by
  refine ⟨?_, ?_, ?_⟩
  · rw [List.map_cons, List.nodup_cons]
    refine ⟨fun hmem => ?_, hO.nodup⟩
    obtain ⟨k, hk, hkp⟩ := List.mem_map.mp hmem
    obtain ⟨-, m, hm, -⟩ := hO.room k hk
    exact hfresh _ hm hkp
  · intro k hk
    rcases List.mem_cons.mp hk with rfl | hk
    · exact ⟨h1, n, (hys _).mpr (Or.inl rfl), hn⟩
    · obtain ⟨hk1, m, hm, hle⟩ := hO.room k hk
      exact ⟨hk1, m, (hys _).mpr (Or.inr hm), hle⟩
  · intro x hx
    rcases (hys x).mp hx with rfl | hx
    · exact ⟨l, List.mem_cons_self, rfl⟩
    · obtain ⟨k, hk, hkx⟩ := hO.owned x hx
      exact ⟨k, List.mem_cons_of_mem _ hk, hkx⟩

theorem Owns.drop {xs ys : List (Nat × Blk)} {live : List Live} {p : Nat} (hO : Owns xs live)
    (hys : ∀ x, x ∈ ys ↔ x ∈ xs ∧ x.1 ≠ p) : Owns ys (live.filter (fun l => l.ptr ≠ p)) := by
  refine ⟨?_, ?_, ?_⟩
  · exact hO.nodup.sublist (List.filter_sublist.map _)
  · intro l hl
    obtain ⟨hl, hne⟩ := List.mem_filter.mp hl
    obtain ⟨h1, n, hn, hle⟩ := hO.room l hl
    exact ⟨h1, n, (hys _).mpr ⟨hn, of_decide_eq_true hne⟩, hle⟩
  · intro x hx
    obtain ⟨hx, hne⟩ := (hys x).mp hx
    obtain ⟨l, hl, hlx⟩ := hO.owned x hx
    refine ⟨l, List.mem_filter.mpr ⟨hl, ?_⟩, hlx⟩
    rw [hlx]
    exact decide_eq_true hne

/-- The last values written are in memory. -/
def Holds (h : Heap) (live : List Live) : Prop :=
  ∀ l ∈ live, ∀ i v, i < l.size → l.data i = some v → h.mem (l.ptr + i) = v

/-- Payloads that are kept hold what they held. -/
theorem Holds.keeps {h h' : Heap} {xs : List (Nat × Blk)} {live : List Live} (hH : Holds h live)
    (hK : Keeps xs h h') (hroom : ∀ l ∈ live, ∃ n, (l.ptr, ⟨n, true⟩) ∈ xs ∧ l.size + 8 ≤ n) :
    Holds h' live := by
  intro l hl i v hi hv
  obtain ⟨n, hn, hle⟩ := hroom l hl
  rw [← hH l hl i v hi hv]
  exact hK.mem _ hn (l.ptr + i) (by simp only; omega) (by simp only; omega)

theorem Holds.mono {h : Heap} {live live' : List Live} (hH : Holds h live)
    (hsub : ∀ l ∈ live', l ∈ live) : Holds h live' :=
  fun l hl => hH l (hsub l hl)

theorem Holds.cons {h : Heap} {l : Live} {live : List Live}
    (hl : ∀ i v, i < l.size → l.data i = some v → h.mem (l.ptr + i) = v) (hH : Holds h live) :
    Holds h (l :: live) := by
  intro k hk
  rcases List.mem_cons.mp hk with rfl | hk
  · exact hl
  · exact hH k hk

/-! ## The invariant -/

structure Inv (s : Sys) (bs : List Blk) : Prop where
  rep : Rep s.heap bs
  coalesced : Coalesced bs
  nonempty : bs ≠ []
  owns : Owns (allocs (firstBlkp s.heap) bs) s.live
  holds : Holds s.heap s.live

/-- What a call does to the block list, for payloads counted from the address `base`. -/
def request (base : Nat) (bs : List Blk) : Call → Nat × List Blk
  | .malloc size =>
      match allocate size bs with
      | none => (NULL, bs)
      | some (o, bs') => (base + o, bs')
  | .free p => (NULL, freeAt (p - base) bs)
  | .realloc p size =>
      if size = 0 then (NULL, freeAt (p - base) bs)
      else
        match allocate size bs with
        | none => (NULL, bs)
        | some (o, bs') => (base + o, if p = NULL then bs' else freeAt (p - base) bs')
  | .write _ _ => (NULL, bs)

/-- The allocated blocks a call is not given. -/
def others (s : Sys) (bs : List Blk) (c : Call) : List (Nat × Blk) :=
  (allocs (firstBlkp s.heap) bs).filter (fun x => c.given ≠ some x.1)

/-- What a call does to a state: the result and the block list are those of `request`, the
payloads of the other blocks are kept, and a block that moved takes its bytes along. -/
structure Refines (s : Sys) (bs : List Blk) (c : Call) (r : Nat) (s' : Sys) : Prop where
  result : r = (request (firstBlkp s.heap) bs c).1
  inv : Inv s' (request (firstBlkp s.heap) bs c).2
  keeps : Keeps (others s bs c) s.heap s'.heap
  copied : ∀ p size n, c = .realloc p size → 1 ≤ size → r ≠ NULL →
    (p, ⟨n, true⟩) ∈ allocs (firstBlkp s.heap) bs →
      ∀ i, i < size → i + 8 < n → s'.heap.mem (r + i) = s.heap.mem (p + i)

theorem Inv.find {s : Sys} {bs : List Blk} {l : Live} (hI : Inv s bs) (hl : l ∈ s.live) :
    s.find l.ptr = some l := by
  have hnd := hI.owns.nodup
  unfold Sys.find
  generalize s.live = live at hl hnd
  induction live with
  | nil => cases hl
  | cons k live ih =>
      rw [List.map_cons, List.nodup_cons] at hnd
      rcases List.mem_cons.mp hl with rfl | hl
      · simp
      · have hne : k.ptr ≠ l.ptr := fun he => hnd.1 (he ▸ List.mem_map_of_mem hl)
        rw [List.find?_cons_of_neg (by simpa using hne)]
        exact ih hl hnd.2

/-- A live pointer is an allocated block. -/
theorem Inv.isLive {s : Sys} {bs : List Blk} {p : Nat} (hI : Inv s bs) (hp : s.IsLive p) :
    ∃ l n, l ∈ s.live ∧ l.ptr = p ∧ s.find p = some l ∧
      (p, ⟨n, true⟩) ∈ allocs (firstBlkp s.heap) bs ∧ l.size + 8 ≤ n := by
  obtain ⟨l, hl, rfl⟩ := hp
  obtain ⟨-, n, hn, hle⟩ := hI.owns.room l hl
  exact ⟨l, n, hl, rfl, hI.find hl, hn, hle⟩

theorem Inv.not_null {s : Sys} {bs : List Blk} (hI : Inv s bs) : ∀ l ∈ s.live, l.ptr ≠ NULL := by
  intro l hl
  obtain ⟨-, n, hn, -⟩ := hI.owns.room l hl
  exact ne_null_of_mem_allocs hn

/-! ## The calls -/

/-- `mm_init` establishes the invariant. -/
theorem inv_init {h : Heap} (hr : Rep h [⟨4096, false⟩]) : Inv ⟨h, []⟩ [⟨4096, false⟩] := by
  refine ⟨hr, List.isChain_singleton _, by simp, ⟨List.nodup_nil, by simp, ?_⟩, by simp [Holds]⟩
  intro x hx
  cases hx

theorem Rep.heapFull_iff {h : Heap} {bs : List Blk} (hr : Rep h bs) :
    HeapFull h ↔ ∀ b ∈ bs, b.mark = true := by
  rw [HeapFull, hr.heapWalk]
  constructor
  · rintro ⟨r, hwalk, hfull⟩ b hb
    cases hwalk
    obtain ⟨L, R, rfl⟩ := List.append_of_mem hb
    exact hfull (firstBlkp h + span L, b) (List.mem_cons_of_mem _ (cell_mid _ L b R))
  · intro hfull
    refine ⟨_, rfl, fun x hx => ?_⟩
    rcases List.mem_cons.mp hx with rfl | hx
    · rfl
    · exact hfull x.2 (mem_of_mem_cells hx)

theorem Rep.sizes_sound {h : Heap} {bs : List Blk} {size : Nat} (hr : Rep h bs)
    (hlt : size < 2 ^ 32) (hs : sound h size) :
    Rely Event.NoWrap Event.Ok (mmMalloc size) h (Served h bs size) := by
  rcases hs with hs | ⟨hlo, hfull, hno⟩
  · exact mmMalloc_spec hr (by omega)
  · exact mmMalloc_stuck hr hlo hlt (hr.heapFull_iff.mp hfull) hno

/-- A new block. -/
theorem Inv.alloc {s : Sys} {bs bs' : List Blk} {size o : Nat} {h' : Heap}
    {d : Nat → Option UInt8} (hI : Inv s bs) (ha : allocate size bs = some (o, bs'))
    (hr : Rep h' bs') (hK : Keeps (allocs (firstBlkp s.heap) bs) s.heap h')
    (hd : ∀ i v, i < size → d i = some v → h'.mem (firstBlkp s.heap + o + i) = v) :
    Inv ((s.setHeap h').add ⟨firstBlkp s.heap + o, size, d⟩) bs' := by
  obtain ⟨hco, hne, -⟩ := allocate_keeps ha
  obtain ⟨n, hn, hmem, hfresh⟩ := allocate_allocs ha hI.rep.sizes (firstBlkp s.heap)
  have hbase : firstBlkp h' = firstBlkp s.heap := congrArg (· + 16) hK.start
  refine ⟨hr, hco hI.coalesced, hne, ?_, ?_⟩
  · show Owns (allocs (firstBlkp h') bs') _
    rw [hbase]
    exact hI.owns.add hmem hfresh (allocate_pos ha) hn
  · exact Holds.cons hd (hI.holds.keeps hK (fun l hl => (hI.owns.room l hl).2))

/-- A block given back. -/
theorem Inv.release {s : Sys} {bs : List Blk} {p : Nat} {h' : Heap} (hI : Inv s bs)
    (hp : s.IsLive p) (hr : Rep h' (freeAt (p - firstBlkp s.heap) bs))
    (hK : Keeps (allocs (firstBlkp s.heap) (freeAt (p - firstBlkp s.heap) bs)) s.heap h') :
    Inv ((s.setHeap h').drop p) (freeAt (p - firstBlkp s.heap) bs) := by
  obtain ⟨l, n, hl, rfl, -, hn, -⟩ := hI.isLive hp
  have hbase : firstBlkp h' = firstBlkp s.heap := congrArg (· + 16) hK.start
  have howns := hI.owns.drop (mem_freeAt hI.rep.sizes.pos hn)
  refine ⟨hr, coalesced_freeAt _ hI.coalesced, freeAt_ne_nil _ hI.nonempty, ?_, ?_⟩
  · show Owns (allocs (firstBlkp h') _) _
    rw [hbase]
    exact howns
  · refine Holds.keeps (hI.holds.mono ?_) hK (fun k hk => (howns.room k hk).2)
    exact fun k hk => (List.mem_filter.mp hk).1

/-- A block moved: a new one for an old one. -/
theorem Inv.move {s : Sys} {bs bs' : List Blk} {p size o : Nat} {h' : Heap}
    {d : Nat → Option UInt8} (hI : Inv s bs) (hp : s.IsLive p)
    (ha : allocate size bs = some (o, bs')) (hr : Rep h' (freeAt (p - firstBlkp s.heap) bs'))
    (hK : Keeps ((allocs (firstBlkp s.heap) bs).filter (·.1 ≠ p)) s.heap h')
    (hd : ∀ i v, i < size → d i = some v → h'.mem (firstBlkp s.heap + o + i) = v) :
    Inv (((s.setHeap h').drop p).add ⟨firstBlkp s.heap + o, size, d⟩)
      (freeAt (p - firstBlkp s.heap) bs') := by
  obtain ⟨l, m, hl, rfl, -, hm, -⟩ := hI.isLive hp
  obtain ⟨hco, hne, hpos⟩ := allocate_keeps ha
  obtain ⟨n, hn, hmem, hfresh⟩ := allocate_allocs ha hI.rep.sizes (firstBlkp s.heap)
  have hbase : firstBlkp h' = firstBlkp s.heap := congrArg (· + 16) hK.start
  -- both blocks are allocated for a moment, so the new one is not the old one
  have hne' : firstBlkp s.heap + o ≠ l.ptr := (hfresh _ hm).symm
  have howns := Owns.drop (p := l.ptr)
    (hI.owns.add (l := ⟨firstBlkp s.heap + o, size, d⟩) hmem hfresh (allocate_pos ha) hn)
    (mem_freeAt (hpos hI.rep.sizes.pos) ((hmem _).mpr (Or.inr hm)))
  rw [List.filter_cons_of_pos (by simpa using hne')] at howns
  refine ⟨hr, coalesced_freeAt _ (hco hI.coalesced), freeAt_ne_nil _ hne, ?_, ?_⟩
  · show Owns (allocs (firstBlkp h') _) _
    rw [hbase]
    exact howns
  · refine Holds.cons hd (Holds.keeps (hI.holds.mono ?_) hK (fun k hk => ?_))
    · exact fun k hk => (List.mem_filter.mp hk).1
    · obtain ⟨hk, hkp⟩ := List.mem_filter.mp hk
      obtain ⟨-, i, hi, hle⟩ := hI.owns.room k hk
      exact ⟨i, List.mem_filter.mpr ⟨hi, by simpa using hkp⟩, hle⟩

theorem Owns.note {xs : List (Nat × Blk)} {live : List Live} (hO : Owns xs live) (p : Nat)
    (f : Nat → Option UInt8) : Owns xs (live.map (Live.note p f)) := by
  refine ⟨?_, ?_, ?_⟩
  · have hptr : Live.ptr ∘ Live.note p f = Live.ptr := funext (note_ptr p f)
    rw [List.map_map, hptr]
    exact hO.nodup
  · intro k hk
    obtain ⟨l, hl, rfl⟩ := List.mem_map.mp hk
    rw [note_ptr, note_size]
    exact hO.room l hl
  · intro x hx
    obtain ⟨l, hl, hlx⟩ := hO.owned x hx
    exact ⟨l.note p f, List.mem_map_of_mem hl, (note_ptr p f l).trans hlx⟩

theorem fill_edits (h : Heap) (p n : Nat) (f : Nat → Option UInt8) :
    Edits p (p + n) h (h.fill p n f) :=
  ⟨rfl, rfl, rfl, rfl, agreeOff_patch h.mem p n (fun i => (f i).getD (h.mem (p + i)))⟩

theorem fill_mem {h : Heap} {p n i : Nat} (f : Nat → Option UInt8) (hi : i < n) :
    (h.fill p n f).mem (p + i) = (f i).getD (h.mem (p + i)) := by
  have hback : p + i - p = i := by omega
  show patch h.mem p n (fun i => (f i).getD (h.mem (p + i))) (p + i) = (f i).getD (h.mem (p + i))
  rw [patch_in (by omega), hback]

/-- The client writes into a payload. -/
theorem Inv.write {s : Sys} {bs : List Blk} {p : Nat} (hI : Inv s bs) (hp : s.IsLive p)
    (f : Nat → Option UInt8) :
    Inv (s.write p f) bs ∧
      Keeps (others s bs (.write p f)) s.heap (s.write p f).heap := by
  obtain ⟨l, n, hl, rfl, hfind, hn, hle⟩ := hI.isLive hp
  have hE := fill_edits s.heap l.ptr l.size f
  have hs : s.write l.ptr f
      = ⟨s.heap.fill l.ptr l.size f, s.live.map (Live.note l.ptr f)⟩ := by
    rw [Sys.write, hfind]
  rw [hs]
  -- the other allocated blocks are apart from the one written
  have hoff : ∀ x ∈ allocs (firstBlkp s.heap) bs, x.1 ≠ l.ptr →
      x.1 + x.2.size ≤ l.ptr ∨ l.ptr + n ≤ x.1 :=
    fun x hx hne => cells_apart_of_ne (mem_allocs.mp hx).1 (mem_allocs.mp hn).1 hne
  have hK : Keeps (others s bs (.write l.ptr f)) s.heap (s.heap.fill l.ptr l.size f) := by
    refine hE.keeps (fun x hx => ?_)
    obtain ⟨hx, hne⟩ := List.mem_filter.mp hx
    have := hoff x hx (fun he => by simp [Call.given, he] at hne)
    omega
  refine ⟨⟨?_, hI.coalesced, hI.nonempty, hI.owns.note l.ptr f, ?_⟩, hK⟩
  · exact hI.rep.payload (mem_allocs.mp hn).1 (hE.mono (Nat.le_refl _) (by simp only; omega))
  · intro k' hk' i v hi hv
    obtain ⟨k, hk, rfl⟩ := List.mem_map.mp hk'
    rw [note_size] at hi
    rw [note_ptr]
    by_cases hkp : k.ptr = l.ptr
    · have hkl : some k = some l := (hI.find hk).symm.trans (hkp ▸ hfind)
      cases hkl
      rw [Live.note, if_pos rfl] at hv
      show (s.heap.fill l.ptr l.size f).mem (l.ptr + i) = v
      rw [fill_mem f hi]
      simp only at hv
      rcases hf : f i with _ | b
      · rw [hf] at hv
        exact hI.holds l hl i v hi hv
      · rw [hf] at hv
        exact Option.some.inj hv
    · rw [Live.note, if_neg hkp] at hv
      obtain ⟨-, m, hm, hkle⟩ := hI.owns.room k hk
      have := hoff _ hm hkp
      rw [← hI.holds k hk i v hi hv]
      exact hE.mem _ (by simp only at this; omega)

theorem rely_onHeap {α : Type} {A : Event → Prop} {m : M α} {s : Sys} {Q : α → Heap → Prop}
    (hm : Rely A Event.Ok m s.heap Q) :
    Rely A Event.Ok (onHeap m) s (fun a s' => ∃ h', Q a h' ∧ s' = s.setHeap h') :=
  Rely.zoom hm

theorem refines_none {s : Sys} {bs : List Blk} {c : Call} (hI : Inv s bs)
    (hc : request (firstBlkp s.heap) bs c = (NULL, bs)) : Refines s bs c NULL s := by
  refine ⟨by rw [hc], by rw [hc]; exact hI, Keeps.refl _ _, ?_⟩
  intro p size n _ _ h0
  exact absurd rfl h0

theorem others_sub {s : Sys} {bs : List Blk} {c : Call} :
    ∀ x ∈ others s bs c, x ∈ allocs (firstBlkp s.heap) bs :=
  fun _ hx => (List.mem_filter.mp hx).1

theorem others_ne {s : Sys} {bs : List Blk} {c : Call} {p : Nat} (hc : c.given = some p) :
    ∀ x ∈ others s bs c, x.1 ≠ p := by
  rintro x hx rfl
  have hne := (List.mem_filter.mp hx).2
  rw [hc] at hne
  simp at hne

/-- A freed block, for `mm_free` and for `mm_realloc` to size 0. -/
theorem refines_free {s : Sys} {bs : List Blk} {c : Call} {p : Nat} {h' : Heap} (hI : Inv s bs)
    (hp : s.IsLive p) (hgiven : c.given = some p)
    (hc : request (firstBlkp s.heap) bs c = (NULL, freeAt (p - firstBlkp s.heap) bs))
    (hr : Rep h' (freeAt (p - firstBlkp s.heap) bs))
    (hK : Keeps (allocs (firstBlkp s.heap) (freeAt (p - firstBlkp s.heap) bs)) s.heap h') :
    Refines s bs c NULL ((s.setHeap h').drop p) := by
  obtain ⟨l, n, -, -, -, hn, -⟩ := hI.isLive hp
  refine ⟨by rw [hc], by rw [hc]; exact hI.release hp hr hK, hK.mono (fun x hx => ?_), ?_⟩
  · exact (mem_freeAt hI.rep.sizes.pos hn x).mpr ⟨others_sub x hx, others_ne hgiven x hx⟩
  · intro _ _ _ _ _ h0
    exact absurd rfl h0

/-- `mm_free` never asks for more heap: nothing has to be assumed. -/
theorem call_free {A : Event → Prop} {s : Sys} {bs : List Blk} {p : Nat} (hI : Inv s bs)
    (hp : s.IsLive p) : Rely A Event.Ok (call (.free p)) s (Refines s bs (.free p)) := by
  obtain ⟨l, n, -, -, -, hn, -⟩ := hI.isLive hp
  apply (rely_onHeap (mmFree_allocated hI.rep hn).rely).bind
  rintro _ s1 ⟨h', ⟨hr, hK⟩, rfl⟩
  refine Wp.bind_rely ((wp_modifies _ _).mpr (Rely.pure ?_))
  exact refines_free hI hp rfl rfl hr hK

/-- `mm_realloc` to size 0 frees. -/
theorem realloc_zero {s : Sys} {bs : List Blk} {p : Nat} (hI : Inv s bs) (hp : s.IsLive p) :
    Rely Event.NoWrap Event.Ok (call (.realloc p 0)) s (Refines s bs (.realloc p 0)) := by
  obtain ⟨l, n, -, -, -, hn, -⟩ := hI.isLive hp
  have hfree : Rely Event.NoWrap Event.Ok (mmRealloc p 0) s.heap (fun q h' => q = NULL ∧
      Rep h' (freeAt (p - firstBlkp s.heap) bs) ∧
        Keeps (allocs (firstBlkp s.heap) (freeAt (p - firstBlkp s.heap) bs)) s.heap h') := by
    rw [mmRealloc, if_pos rfl]
    exact (mmFree_allocated hI.rep hn).rely.bind (fun _ _ hpost => Rely.pure ⟨rfl, hpost⟩)
  apply (rely_onHeap hfree).bind
  rintro q s1 ⟨h', ⟨rfl, hr, hK⟩, rfl⟩
  refine Wp.bind_rely ((wp_modifies _ _).mpr (Rely.pure ?_))
  exact refines_free hI hp rfl rfl hr hK

theorem drop_not_live {s : Sys} {p : Nat} (hp : ∀ l ∈ s.live, l.ptr ≠ p) : s.drop p = s := by
  have hall : s.live.filter (fun l => l.ptr ≠ p) = s.live :=
    List.filter_eq_self.mpr (fun l hl => decide_eq_true (hp l hl))
  rw [Sys.drop, hall]

/-- `mm_realloc` of `NULL` is `mm_malloc`. -/
theorem realloc_null {s : Sys} {bs : List Blk} {size : Nat} (hI : Inv s bs) (h1 : 1 ≤ size)
    (hmalloc : Rely Event.NoWrap Event.Ok (mmMalloc size) s.heap (Served s.heap bs size)) :
    Rely Event.NoWrap Event.Ok (call (.realloc NULL size)) s
      (Refines s bs (.realloc NULL size)) := by
  have h0 : size ≠ 0 := by omega
  have hm : mmRealloc NULL size = mmMalloc size := by rw [mmRealloc, if_neg h0, if_pos rfl]
  rw [call, hm]
  apply (rely_onHeap hmalloc).bind
  rintro q s1 ⟨h', ⟨hnone, rfl, rfl⟩ | ⟨o, bs', ha, rfl, hr, hK⟩, rfl⟩
  · refine Wp.bind_rely ((wp_modifies _ _).mpr (Rely.pure ?_))
    rw [Sys.realloced, if_neg h0, if_pos rfl]
    exact refines_none hI (by simp [request, h0, hnone])
  · refine Wp.bind_rely ((wp_modifies _ _).mpr (Rely.pure ?_))
    have hne : firstBlkp s.heap + o ≠ NULL := firstBlkp_add_ne s.heap o
    have hdrop : (s.setHeap h').drop NULL = s.setHeap h' := drop_not_live hI.not_null
    have hreq : request (firstBlkp s.heap) bs (.realloc NULL size) = (firstBlkp s.heap + o, bs') := by
      simp [request, h0, ha]
    rw [Sys.realloced, if_neg h0, if_neg hne, hdrop]
    refine ⟨by rw [hreq], ?_, hK.mono others_sub, ?_⟩
    · rw [hreq]
      refine hI.alloc ha hr hK (fun i v hi hv => ?_)
      -- nothing is known of the block at `NULL`
      have hfind : (s.setHeap h').find NULL = none :=
        List.find?_eq_none.mpr (fun l hl => by simpa using hI.not_null l hl)
      rw [Sys.known, hfind] at hv
      cases hv
    · rintro p size' n hc _ _ hn
      cases hc
      obtain ⟨l, hl, hlp⟩ := hI.owns.owned _ hn
      exact absurd hlp (hI.not_null l hl)

/-- `mm_realloc` of a live block to a size of at least 1 moves it. -/
theorem realloc_live {s : Sys} {bs : List Blk} {p size : Nat} (hI : Inv s bs) (hp : s.IsLive p)
    (h1 : 1 ≤ size)
    (hmalloc : Rely Event.NoWrap Event.Ok (mmMalloc size) s.heap (Served s.heap bs size)) :
    Rely Event.NoWrap Event.Ok (call (.realloc p size)) s (Refines s bs (.realloc p size)) := by
  have h0 : size ≠ 0 := by omega
  obtain ⟨l, n, hl, hlp, hfind, hn, hle⟩ := hI.isLive hp
  have hp0 : p ≠ NULL := hlp ▸ hI.not_null l hl
  apply (rely_onHeap (mmRealloc_spec hI.rep hn h1 hmalloc)).bind
  rintro q s1 ⟨h', ⟨hnone, rfl, rfl⟩ | ⟨o, bs', ha, rfl, hr, hK, hbytes⟩, rfl⟩
  · refine Wp.bind_rely ((wp_modifies _ _).mpr (Rely.pure ?_))
    rw [Sys.realloced, if_neg h0, if_pos rfl]
    exact refines_none hI (by simp [request, h0, hnone])
  · refine Wp.bind_rely ((wp_modifies _ _).mpr (Rely.pure ?_))
    have hne : firstBlkp s.heap + o ≠ NULL := firstBlkp_add_ne s.heap o
    have hreq : request (firstBlkp s.heap) bs (.realloc p size)
        = (firstBlkp s.heap + o, freeAt (p - firstBlkp s.heap) bs') := by
      simp [request, h0, ha, hp0]
    rw [Sys.realloced, if_neg h0, if_neg hne]
    refine ⟨by rw [hreq], ?_, hK.mono (fun x hx => ?_), ?_⟩
    · rw [hreq]
      refine hI.move hp ha hr hK (fun i v hi hv => ?_)
      have hfind' : (s.setHeap h').find p = some l := hfind
      rw [Sys.known, hfind'] at hv
      -- what is known of the new block are the bytes that were copied
      by_cases him : i < min l.size size
      · simp only [if_pos him] at hv
        rw [hbytes i hi (by omega), ← hlp]
        exact hI.holds l hl i v (by omega) hv
      · simp only [if_neg him] at hv
        cases hv
    · exact List.mem_filter.mpr ⟨others_sub x hx, decide_eq_true (others_ne rfl x hx)⟩
    · rintro p' size' n' hc _ _ hn' i hi hin
      cases hc
      have hsame := allocs_unique hI.rep.sizes.pos hn' hn rfl
      cases hsame
      exact hbytes i hi hin

/-- **Refinement.** A valid call does to the block list what `request` says, and keeps the
invariant. -/
theorem call_spec {sizes : Heap → Nat → Prop} (hsizes : ∀ h size, sizes h size → sound h size)
    {s : Sys} {bs : List Blk} (hI : Inv s bs) {c : Call} (hc : Valid sizes s c) :
    Rely Event.NoWrap Event.Ok (call c) s (Refines s bs c) := by
  cases c with
  | malloc size =>
      apply (rely_onHeap (hI.rep.sizes_sound hc.1 (hsizes _ _ hc.2))).bind
      rintro p s1 ⟨h', ⟨hnone, rfl, rfl⟩ | ⟨o, bs', ha, rfl, hr, hK⟩, rfl⟩
      · refine Wp.bind_rely ((wp_modifies _ _).mpr (Rely.pure ?_))
        exact refines_none hI (by simp [request, hnone])
      · refine Wp.bind_rely ((wp_modifies _ _).mpr (Rely.pure ?_))
        have hne : firstBlkp s.heap + o ≠ NULL := firstBlkp_add_ne s.heap o
        have hreq : request (firstBlkp s.heap) bs (.malloc size) = (firstBlkp s.heap + o, bs') := by
          simp [request, ha]
        rw [Sys.malloced, if_neg hne]
        refine ⟨by rw [hreq], ?_, hK.mono others_sub, fun _ _ _ hc => nomatch hc⟩
        rw [hreq]
        exact hI.alloc ha hr hK (fun i v _ hv => nomatch hv)
  | free p => exact call_free hI hc
  | realloc p size =>
      obtain ⟨hlt, hsz, hp⟩ := hc
      have hmalloc := hI.rep.sizes_sound hlt (hsizes _ _ hsz)
      by_cases h0 : size = 0
      · -- the special cases of the source: size 0, and no old block
        subst h0
        rcases hp with hp | ⟨-, h1⟩
        · exact realloc_zero hI hp
        · omega
      · rcases hp with hp | ⟨rfl, h1⟩
        · exact realloc_live hI hp (by omega) hmalloc
        · exact realloc_null hI h1 hmalloc
  | write p f =>
      refine Wp.bind_rely ((wp_modifies _ _).mpr (Rely.pure ?_))
      obtain ⟨hinv, hkeeps⟩ := hI.write hc f
      exact ⟨rfl, hinv, hkeeps, fun _ _ _ hc => nomatch hc⟩

/-! ## Runs -/

/-- A run starts with one free block. -/
theorem start_inv {sizes : Heap → Nat → Prop} {log : List Event} {s : Sys}
    (hstart : (allocator sizes).start log s) (hnw : NoWrap log) :
    Inv s [⟨4096, false⟩] ∧ ∀ e ∈ log, e.Ok := by
  obtain ⟨hlive, h, hfresh, hout, rfl⟩ := hstart
  obtain ⟨g, live⟩ := s
  cases hlive
  obtain ⟨harena, hbrk⟩ := hfresh.arena
  have hinit := mmInit_spec harena hbrk hnw
  exact ⟨inv_init (hinit.out hout).2.1, hinit.1⟩

/-- **Every run keeps the invariant**, and all its accesses stay inside the heap. -/
theorem run_inv {sizes : Heap → Nat → Prop} (hsizes : ∀ h size, sizes h size → sound h size)
    {log : List Event} {s : Sys} (hrun : Run (allocator sizes) log s) (hnw : NoWrap log) :
    (∃ bs, Inv s bs) ∧ ∀ e ∈ log, e.Ok := by
  refine hrun.invariant (A := Event.NoWrap) (G := Event.Ok) (I := fun s => ∃ bs, Inv s bs) ?_ ?_ hnw
  · intro l s hstart hA
    obtain ⟨hI, hG⟩ := start_inv hstart hA
    exact ⟨⟨_, hI⟩, hG⟩
  · rintro s c ⟨bs, hI⟩ hc
    exact (call_spec hsizes hI hc).mono (fun _ _ hpost => ⟨_, hpost.inv⟩)

/-- Every valid call returns. -/
theorem run_returns {sizes : Heap → Nat → Prop} (hsizes : ∀ h size, sizes h size → sound h size)
    {log : List Event} {s : Sys} (hrun : Run (allocator sizes) log s) (hnw : NoWrap log)
    {c : Call} (hc : Valid sizes s c) (hcnw : NoWrap ((call c).log s)) :
    ∃ r s', (call c).out s = some (r, s') := by
  obtain ⟨⟨bs, hI⟩, -⟩ := run_inv hsizes hrun hnw
  obtain ⟨-, r, s', hout, -⟩ := call_spec hsizes hI hc hcnw
  exact ⟨r, s', hout⟩

end MallocLab
