import MallocLab.Driver.NoWrap
import MallocLab.Lib.Growth

set_option autoImplicit false

/-! # How much a trace may hold

The store of `served` refuses a request when the heap would have to grow beyond `MAX_HEAP`. It
grows only where no free block is large enough, and then it is not larger than what the live
blocks and the holes between them need, nor than what all requests so far have asked for
together (`Peopled`). So a trace is served whenever the less of the two stays below `MAX_HEAP`,
however long it is, and the evaluators of the driver get through it.
-/

namespace MallocLab

open Logged Words Tiling BlockList

/-! ## What a request does to the store -/

section Serve

variable {t : Store} {op : TraceOp}

theorem serve_alloc (htype : op.type = .alloc) :
    t.serve op = (allocate (toSize op.size) t.blocks).map
      (fun r => ⟨r.2, Function.update t.names op.index (some (16 + r.1))⟩) := by
  have hreq : op.req = .alloc op.index (toSize op.size) := by rw [TraceOp.req, htype]
  rw [Store.serve, hreq, htype]
  show (if _ ∧ (request 16 t.blocks (.malloc (toSize op.size))).1 = NULL then none
    else some (⟨(request 16 t.blocks (.malloc (toSize op.size))).2, _⟩ : Store)) = _
  rw [request]
  cases ha : allocate (toSize op.size) t.blocks with
  | none => exact if_pos ⟨by decide, rfl⟩
  | some r =>
      have hne : 16 + r.1 ≠ NULL := by
        unfold NULL
        omega
      refine (if_neg (fun h => hne h.2)).trans ?_
      simp only [Option.map_some, Req.rename, if_neg hne]

theorem serve_realloc {p : Nat} (htype : op.type = .realloc) (hsize : 1 ≤ toSize op.size)
    (hname : t.names op.index = some p) (hp : p ≠ NULL) :
    t.serve op = (allocate (toSize op.size) t.blocks).map
      (fun r => ⟨freeAt (p - 16) r.2, Function.update t.names op.index (some (16 + r.1))⟩) := by
  have hreq : op.req = .realloc op.index (toSize op.size) := by rw [TraceOp.req, htype]
  have hcall : op.req.call t.names = some (.realloc p (toSize op.size)) := by
    rw [hreq, Req.call, hname]
    rfl
  rw [Store.serve, hcall, htype, hreq]
  simp only [request, if_neg (show ¬toSize op.size = 0 by omega), if_neg hp]
  cases ha : allocate (toSize op.size) t.blocks with
  | none => exact if_pos ⟨by decide, rfl⟩
  | some r =>
      have hne : 16 + r.1 ≠ NULL := by
        unfold NULL
        omega
      refine (if_neg (fun h => hne h.2)).trans ?_
      simp only [Option.map_some, Req.rename, if_neg hne]

theorem serve_free {p : Nat} (htype : op.type = .free) (hname : t.names op.index = some p) :
    t.serve op
      = some ⟨freeAt (p - 16) t.blocks, Function.update t.names op.index none⟩ := by
  have hreq : op.req = .free op.index := by rw [TraceOp.req, htype]
  have hcall : op.req.call t.names = some (.free p) := by
    rw [hreq, Req.call, hname]
    rfl
  rw [Store.serve, hcall, htype, hreq]
  exact if_neg (fun h => h.1 rfl)

end Serve

/-! ## Sizes of blocks -/

/-- Sizes stay multiples of 8 from 16 on. -/
theorem SizesOk.allocate {size o : Nat} {bs bs' : List Blk} (h : SizesOk bs)
    (ha : allocate size bs = some (o, bs')) : SizesOk bs' := by
  have hreq := requestSize_mod size
  have hge : 16 ≤ requestSize size := by
    have h1 := allocate_pos ha
    unfold requestSize
    omega
  have hext := requestSize_le_extension size
  have hext8 : extension size % 8 = 0 := by
    unfold extension growth
    omega
  rw [MallocLab.allocate, if_neg (by have h1 := allocate_pos ha; omega)] at ha
  obtain ⟨L, c, R, -, rfl, hac, hbs⟩ := firstFit_some hext ha
  have hall : SizesOk (L ++ ⟨c, false⟩ :: R) := by
    rcases hbs with ⟨rfl, -⟩ | ⟨hrel, -⟩
    · exact h
    · rw [← hrel]
      refine sizes_release (P := fun s => s % 8 = 0 ∧ 16 ≤ s) (fun x y hx hy => ?_) h ?_ ?_
      · omega
      · exact fun b hb => absurd hb List.not_mem_nil
      · omega
  have hc := hall ⟨c, false⟩ (by simp)
  simp only at hc
  rw [List.append_assoc, sizesOk_append, sizesOk_append]
  rw [sizesOk_append, sizesOk_cons] at hall
  refine ⟨hall.1, ?_, hall.2.2⟩
  exact sizes_carve (P := fun s => s % 8 = 0 ∧ 16 ≤ s) ⟨hreq, hge⟩ hc (fun hm => by omega)

theorem SizesOk.freeAt {bs : List Blk} (h : SizesOk bs) (o : Nat) : SizesOk (freeAt o bs) := by
  unfold BlockList.freeAt
  rcases hs : splitAt o bs with _ | ⟨L, b, R⟩
  · exact h
  · rw [splitAt_eq hs, sizesOk_append, sizesOk_cons] at h
    refine sizes_release (P := fun s => s % 8 = 0 ∧ 16 ≤ s) (fun x y hx hy => ?_) h.1 h.2.2 h.2.1
    omega

/-- What a request of `n` bytes takes: its block may be 8 bytes larger than asked for, when
the rest would be no block. -/
def blockBound (n : Nat) : Nat := requestSize n + DSIZE

theorem blockBound_le (n : Nat) : blockBound n ≤ n + 23 := by
  unfold blockBound requestSize DSIZE
  omega

theorem front_mod {bs : List Blk} (h : SizesOk bs) : front bs % 8 = 0 := by
  rcases List.eq_nil_or_concat bs with rfl | ⟨L, ⟨c, _ | _⟩, rfl⟩
  · rfl
  · rw [List.concat_eq_append, sizesOk_append] at h
    rw [List.concat_eq_append, front_concat_free]
    exact h.1.span
  · rw [List.concat_eq_append] at h ⊢
    have hspan := h.span
    rw [front_concat_alloc]
    simpa using hspan

/-! ## The store during a trace -/

/-- The blocks of the live ids, with the most that each can take. -/
def Store.rooms (t : Store) (sizes : List (Nat × Int)) : List (Nat × Nat) :=
  sizes.map (fun x => ((t.names x.1).getD NULL, blockBound (toSize x.2)))

/-- What all requests take together. -/
def volume (ops : List TraceOp) : Nat :=
  ((ops.filter (·.type ≠ .free)).map (fun op => blockBound (toSize op.size))).sum

/-- The store after the requests `done`, with the ids `ids` allocated. -/
structure Peopled (t : Store) (ids : List Nat) (done : List TraceOp) : Prop where
  coalesced : Coalesced t.blocks
  nonempty : t.blocks ≠ []
  sizes : SizesOk t.blocks
  same : SameIds ids done
  nodup : ((liveSizes done).map Prod.fst).Nodup
  named : ∀ x ∈ liveSizes done, ∃ p, t.names x.1 = some p ∧ p ≠ NULL
  housed : Housed 16 t.blocks (t.rooms (liveSizes done))
  ahead : front t.blocks ≤ volume done

theorem peopled_initial : Peopled Store.initial [] [] where
  coalesced := List.isChain_singleton _
  nonempty := List.cons_ne_nil _ _
  sizes := by
    intro b hb
    rw [List.mem_singleton.mp hb]
    decide
  same := fun id => by simp [liveSizes]
  nodup := List.nodup_nil
  named := fun x hx => absurd hx List.not_mem_nil
  housed := ⟨[], List.Perm.refl _, List.Forall₂.nil⟩
  ahead := le_refl _

/-- An id that changes its name changes nothing for the others. -/
theorem rooms_update {t : Store} {sizes : List (Nat × Int)} {id : Nat} (bs : List Blk)
    (v : Option Nat) (hid : ∀ x ∈ sizes, x.1 ≠ id) :
    Store.rooms ⟨bs, Function.update t.names id v⟩ sizes = t.rooms sizes := by
  apply List.map_congr_left
  intro x hx
  simp only [Function.update_of_ne (hid x hx)]

/-- The entry of an id comes first, and then the others. -/
theorem perm_cons_filter_ne {sizes : List (Nat × Int)} {id : Nat} {n : Int}
    (hnd : (sizes.map Prod.fst).Nodup) (hn : (id, n) ∈ sizes) :
    sizes.Perm ((id, n) :: sizes.filter (·.1 ≠ id)) := by
  induction sizes with
  | nil => cases hn
  | cons x sizes ih =>
      rw [List.map_cons, List.nodup_cons] at hnd
      rcases List.mem_cons.mp hn with rfl | hn
      · have hall : sizes.filter (·.1 ≠ id) = sizes := by
          refine List.filter_eq_self.mpr (fun y hy => decide_eq_true ?_)
          rintro rfl
          exact hnd.1 (List.mem_map.mpr ⟨y, hy, rfl⟩)
        rw [List.filter_cons_of_neg (by simp), hall]
      · have hne : x.1 ≠ id := by
          rintro rfl
          exact hnd.1 (List.mem_map.mpr ⟨_, hn, rfl⟩)
        rw [List.filter_cons_of_pos (by simpa using hne)]
        exact ((ih hnd.2 hn).cons x).trans (List.Perm.swap _ _ _)

theorem nodup_filter_ne {sizes : List (Nat × Int)} (id : Nat)
    (hnd : (sizes.map Prod.fst).Nodup) : ((sizes.filter (·.1 ≠ id)).map Prod.fst).Nodup :=
  hnd.sublist (List.filter_sublist.map _)

theorem nodup_enter {sizes : List (Nat × Int)} (id : Nat) (n : Int)
    (hnd : (sizes.map Prod.fst).Nodup) :
    (((id, n) :: sizes.filter (·.1 ≠ id)).map Prod.fst).Nodup := by
  rw [List.map_cons, List.nodup_cons]
  refine ⟨fun hmem => ?_, nodup_filter_ne id hnd⟩
  obtain ⟨x, hx, he⟩ := List.mem_map.mp hmem
  exact of_decide_eq_true (List.mem_filter.mp hx).2 he

theorem allocate_eq {size : Nat} (h1 : 1 ≤ size) (bs : List Blk) :
    allocate size bs = firstFit 16 (MAX_HEAP - 16) (extension size) (requestSize size) bs := by
  rw [allocate, if_neg (by omega)]

section Steps

variable {t : Store} {ids : List Nat} {done : List TraceOp} {op : TraceOp} {numIds : Nat}

/-- What a new block does to the store. -/
theorem Peopled.carve {n o : Nat} {bs : List Blk} (hP : Peopled t ids done)
    (ha : allocate n t.blocks = some (o, bs)) :
    (Coalesced bs ∧ bs ≠ []) ∧ SizesOk bs ∧ Housed 16 bs ((16 + o, blockBound n) :: t.rooms (liveSizes done)) ∧
      front bs ≤ volume done + blockBound n := by
  have hsizes := hP.sizes.allocate ha
  obtain ⟨hcoal, hne, -⟩ := allocate_keeps ha
  refine ⟨⟨hcoal hP.coalesced, hne⟩, hsizes, ?_⟩
  rw [allocate_eq (allocate_pos ha)] at ha
  have hle := requestSize_le_extension n
  have hmod := requestSize_mod n
  constructor
  · obtain ⟨s, hs, hlt, hmem, hadd⟩ := hP.housed.add (by norm_num) hle ha
    have h8 := (hsizes _ (mem_of_mem_cells (mem_allocs.mp hmem).1)).1
    apply hadd
    simp only at h8
    unfold blockBound DSIZE
    omega
  · have hfront := front_firstFit (by norm_num) hle ha
    have h1 := front_mod hsizes
    have h2 := front_mod hP.sizes
    have hahead := hP.ahead
    unfold blockBound DSIZE
    omega

theorem volume_concat (done : List TraceOp) (op : TraceOp) :
    volume (done ++ [op])
      = volume done + if op.type ≠ .free then blockBound (toSize op.size) else 0 := by
  unfold volume
  rw [List.filter_append, List.map_append, List.sum_append]
  by_cases h : op.type ≠ .free
  · rw [if_pos h, List.filter_cons_of_pos (by simpa using h)]
    simp
  · rw [if_neg h, List.filter_cons_of_neg (by simpa using h)]
    simp

/-- The block at `p` is entered for the id of the request. -/
theorem Peopled.enter {bs : List Blk} {p : Nat} (hP : Peopled t ids done)
    (hop : op.Legal numIds ids) (htype : op.type ≠ .free) (hcoal : Coalesced bs ∧ bs ≠ [])
    (hok : SizesOk bs) (hp : p ≠ NULL)
    (hhoused : Housed 16 bs ((p, blockBound (toSize op.size)) ::
      t.rooms ((liveSizes done).filter (·.1 ≠ op.index))))
    (hfront : front bs ≤ volume done + blockBound (toSize op.size)) :
    Peopled ⟨bs, Function.update t.names op.index (some p)⟩ (op.after ids) (done ++ [op]) := by
  have hsizes : liveSizes (done ++ [op])
      = (op.index, op.size) :: (liveSizes done).filter (·.1 ≠ op.index) := by
    rw [liveSizes_concat, TraceOp.resize]
    cases h : op.type with
    | free => exact absurd h htype
    | alloc => rfl
    | realloc => rfl
  have hne : ∀ x ∈ (liveSizes done).filter (·.1 ≠ op.index), x.1 ≠ op.index :=
    fun x hx => of_decide_eq_true (List.mem_filter.mp hx).2
  refine ⟨hcoal.1, hcoal.2, hok, hP.same.after hop, ?_, ?_, ?_, ?_⟩
  · rw [hsizes]
    exact nodup_enter _ _ hP.nodup
  · rw [hsizes]
    intro x hx
    rcases List.mem_cons.mp hx with rfl | hx
    · exact ⟨p, Function.update_self .., hp⟩
    · obtain ⟨q, hq, hq0⟩ := hP.named x (List.mem_filter.mp hx).1
      exact ⟨q, (Function.update_of_ne (hne x hx) _ _).trans hq, hq0⟩
  · have hself : (Function.update t.names op.index (some p) op.index).getD NULL = p := by
      rw [Function.update_self]
      rfl
    have hrest := rooms_update (t := t) bs (some p) hne
    rw [hsizes, Store.rooms, List.map_cons]
    simp only [hself]
    rw [Store.rooms] at hrest
    rw [hrest]
    exact hhoused
  · rw [volume_concat, if_pos htype]
    exact hfront

/-- **One request** keeps the account of the store. -/
theorem Peopled.serve {t' : Store} (hP : Peopled t ids done) (hop : op.Legal numIds ids)
    (hserve : t.serve op = some t') : Peopled t' (op.after ids) (done ++ [op]) := by
  have hne : ∀ o, 16 + o ≠ NULL := by
    unfold NULL
    omega
  rcases legal_cases hop with ⟨htype, hsize, hid, -⟩ | ⟨htype, hsize, hid, -⟩ | ⟨htype, hid, -⟩
  · -- the id has no block yet
    have hall : (liveSizes done).filter (·.1 ≠ op.index) = liveSizes done := by
      refine List.filter_eq_self.mpr (fun x hx => decide_eq_true fun he => ?_)
      exact hid ((hP.same _).mpr ⟨x.2, he ▸ hx⟩)
    rw [serve_alloc htype] at hserve
    obtain ⟨⟨o, bs⟩, ha, rfl⟩ := Option.map_eq_some_iff.mp hserve
    obtain ⟨hcoal, hok, hhoused, hfront⟩ := hP.carve ha
    refine hP.enter hop (by rw [htype]; decide) hcoal hok (hne o) ?_ hfront
    rw [hall]
    exact hhoused
  · obtain ⟨n, hn⟩ := (hP.same _).mp hid
    obtain ⟨p, hname, hp⟩ := hP.named _ hn
    rw [serve_realloc htype (toSize_bounds hsize).1 hname hp] at hserve
    obtain ⟨⟨o, bs⟩, ha, rfl⟩ := Option.map_eq_some_iff.mp hserve
    obtain ⟨hcoal, hok, hhoused, hfront⟩ := hP.carve ha
    refine hP.enter hop (by rw [htype]; decide)
      ⟨coalesced_freeAt _ hcoal.1, freeAt_ne_nil _ hcoal.2⟩ (hok.freeAt _) (hne o) ?_
      ((front_freeAt _ _).trans hfront)
    -- the old block is the next one in the account
    have hperm := (perm_cons_filter_ne hP.nodup hn).map
      (fun x => ((t.names x.1).getD NULL, blockBound (toSize x.2)))
    rw [List.map_cons, hname] at hperm
    refine Housed.drop (k := blockBound (toSize n)) (hhoused.perm ?_) hok.pos
    exact (List.Perm.swap _ _ _).trans (hperm.symm.cons _)
  · obtain ⟨n, hn⟩ := (hP.same _).mp hid
    obtain ⟨p, hname, hp⟩ := hP.named _ hn
    rw [serve_free htype hname] at hserve
    cases hserve
    have hsizes : liveSizes (done ++ [op]) = (liveSizes done).filter (·.1 ≠ op.index) := by
      rw [liveSizes_concat, TraceOp.resize, htype]
    have hne : ∀ x ∈ (liveSizes done).filter (·.1 ≠ op.index), x.1 ≠ op.index :=
      fun x hx => of_decide_eq_true (List.mem_filter.mp hx).2
    refine ⟨coalesced_freeAt _ hP.coalesced, freeAt_ne_nil _ hP.nonempty, hP.sizes.freeAt _,
      hP.same.after hop, ?_, ?_, ?_, ?_⟩
    · rw [hsizes]
      exact nodup_filter_ne _ hP.nodup
    · rw [hsizes]
      intro x hx
      obtain ⟨q, hq, hq0⟩ := hP.named x (List.mem_filter.mp hx).1
      exact ⟨q, (Function.update_of_ne (hne x hx) _ _).trans hq, hq0⟩
    · have hperm := (perm_cons_filter_ne hP.nodup hn).map
        (fun x => ((t.names x.1).getD NULL, blockBound (toSize x.2)))
      rw [List.map_cons, hname] at hperm
      rw [hsizes, rooms_update _ _ hne]
      exact Housed.drop (hP.housed.perm hperm.symm) hP.sizes.pos
    · rw [volume_concat, if_neg (by rw [htype]; decide)]
      exact (front_freeAt _ _).trans hP.ahead

end Steps

/-! ## Growth -/

/-- What the live blocks and the holes between them take, where `n` bytes do not fit. -/
def crowd (sizes : List (Nat × Int)) (n : Nat) : Nat :=
  (sizes.map (fun x => blockBound (toSize x.2))).sum + (sizes.length + 1) * (requestSize n - 1)

/-- How far the heap may have to grow for `n` bytes, after the requests `done`. -/
def need (done : List TraceOp) (n : Nat) : Nat :=
  min (crowd (liveSizes done) n) (volume done + requestSize n) + extension n

section Growth

variable {t : Store} {ids : List Nat} {done : List TraceOp} {op : TraceOp} {numIds B : Nat}

theorem Peopled.span_le {n : Nat} (hP : Peopled t ids done)
    (hno : splitFit (requestSize n) t.blocks = none) :
    span t.blocks + extension n ≤ need done n := by
  have hpos : 0 < requestSize n := by
    have hle := le_requestSize n
    omega
  have hcrowd : span t.blocks ≤ crowd (liveSizes done) n := by
    obtain ⟨hheld, hlen⟩ := hP.housed.held
    have hspan := span_le_held hP.coalesced hno
    rw [Store.rooms, List.length_map] at hlen
    rw [Store.rooms, List.map_map] at hheld
    rw [hlen] at hspan
    calc span t.blocks
        ≤ held t.blocks + ((liveSizes done).length + 1) * (requestSize n - 1) := hspan
      _ ≤ crowd (liveSizes done) n := Nat.add_le_add_right hheld _
  have hvolume : span t.blocks ≤ volume done + requestSize n := by
    have hlt := span_lt_front hpos hno
    have hahead := hP.ahead
    omega
  exact Nat.add_le_add_right (le_min hcrowd hvolume) _

/-- **A request is served** when the heap may grow as far as it needs to. -/
theorem Peopled.serves (hP : Peopled t ids done) (hop : op.Legal numIds ids)
    (hneed : op.type ≠ .free → need done (toSize op.size) ≤ B) (hB : B ≤ MAX_HEAP - 16) :
    ∃ t', t.serve op = some t' ∧ span t'.blocks ≤ max (span t.blocks) B := by
  have hfit : op.type ≠ .free → 1 ≤ toSize op.size →
      ∃ o bs, allocate (toSize op.size) t.blocks = some (o, bs) ∧
        span bs ≤ max (span t.blocks) B := by
    intro htype h1
    rw [allocate_eq h1]
    refine firstFit_bounded (requestSize_le_extension _) (fun hno => ?_) hB
    calc span t.blocks + extension (toSize op.size)
        ≤ need done (toSize op.size) := hP.span_le hno
      _ ≤ B := hneed htype
  rcases legal_cases hop with ⟨htype, hsize, -⟩ | ⟨htype, hsize, hid, -⟩ | ⟨htype, hid, -⟩
  · obtain ⟨o, bs, ha, hspan⟩ := hfit (by rw [htype]; decide) (toSize_bounds hsize).1
    refine ⟨⟨bs, Function.update t.names op.index (some (16 + o))⟩, ?_, hspan⟩
    rw [serve_alloc htype, ha]
    rfl
  · obtain ⟨n, hn⟩ := (hP.same _).mp hid
    obtain ⟨p, hname, hp⟩ := hP.named _ hn
    obtain ⟨o, bs, ha, hspan⟩ := hfit (by rw [htype]; decide) (toSize_bounds hsize).1
    refine ⟨⟨freeAt (p - 16) bs, Function.update t.names op.index (some (16 + o))⟩, ?_, ?_⟩
    · rw [serve_realloc htype (toSize_bounds hsize).1 hname hp, ha]
      rfl
    · rw [span_freeAt]
      exact hspan
  · obtain ⟨n, hn⟩ := (hP.same _).mp hid
    obtain ⟨p, hname, hp⟩ := hP.named _ hn
    refine ⟨⟨freeAt (p - 16) t.blocks, Function.update t.names op.index none⟩,
      serve_free htype hname, ?_⟩
    rw [span_freeAt]
    exact le_max_left _ _

/-- **A trace is served**, by induction on what is left of it. -/
theorem Peopled.run {ops : List TraceOp} (hP : Peopled t ids done)
    (hops : LegalFrom numIds ids ops) (hB : B ≤ MAX_HEAP - 16)
    (hneed : ∀ pre op, pre ++ [op] <+: ops → op.type ≠ .free →
      need (done ++ pre) (toSize op.size) ≤ B) :
    ∃ t', t.serveAll ops = some t' ∧ Peopled t' (idsAfter ids ops) (done ++ ops) ∧
      span t'.blocks ≤ max (span t.blocks) B := by
  induction ops generalizing t ids done with
  | nil =>
      refine ⟨t, rfl, ?_, le_max_left _ _⟩
      rw [List.append_nil]
      exact hP
  | cons op ops ih =>
      have hfirst : op.type ≠ .free → need done (toSize op.size) ≤ B := by
        intro htype
        have h := hneed [] op ⟨ops, rfl⟩ htype
        rw [List.append_nil] at h
        exact h
      obtain ⟨t1, hserve, hspan⟩ := hP.serves hops.1 hfirst hB
      have hrest : ∀ pre op', pre ++ [op'] <+: ops → op'.type ≠ .free →
          need (done ++ [op] ++ pre) (toSize op'.size) ≤ B := by
        intro pre op' hpre htype
        rw [List.append_assoc]
        exact hneed (op :: pre) op' ((List.cons_prefix_cons).mpr ⟨rfl, hpre⟩) htype
      obtain ⟨t', hall, hP', hspan'⟩ := ih (hP.serve hops.1 hserve) hops.2 hrest
      refine ⟨t', ?_, ?_, ?_⟩
      · rw [Store.serveAll, hserve]
        exact hall
      · rw [List.append_assoc] at hP'
        exact hP'
      · calc span t'.blocks
            ≤ max (span t1.blocks) B := hspan'
          _ ≤ max (max (span t.blocks) B) B := max_le_max hspan (le_refl B)
          _ = max (span t.blocks) B := by rw [max_assoc, max_self]

/-- What `mm_init` leaves is a free block of 4096 bytes, and the heap grows no further than the
requests need. -/
theorem served_within {trace : Trace} (hlegal : trace.Legal) (hB : B ≤ MAX_HEAP - 16)
    (hneed : ∀ pre op, pre ++ [op] <+: trace.ops → op.type ≠ .free →
      need pre (toSize op.size) ≤ B) :
    ∃ t, served trace.ops = some t ∧ t.heapsize ≤ 16 + max CHUNKSIZE B := by
  obtain ⟨t, hserved, -, hspan⟩ := peopled_initial.run hlegal hB hneed
  exact ⟨t, hserved, Nat.add_le_add_left hspan 16⟩

end Growth

/-! ## Bounds that can be read off the trace -/

theorem extension_le (n : Nat) : extension n ≤ max (n + 15) CHUNKSIZE + DSIZE := by
  unfold extension growth requestSize CHUNKSIZE DSIZE
  omega

theorem extension_le_of_le {n S : Nat} (h : n ≤ S) :
    extension n ≤ max (S + 15) CHUNKSIZE + DSIZE := by
  have hmax : max (n + 15) CHUNKSIZE ≤ max (S + 15) CHUNKSIZE :=
    max_le_max (Nat.add_le_add_right h 15) (le_refl _)
  calc extension n
      ≤ max (n + 15) CHUNKSIZE + DSIZE := extension_le n
    _ ≤ max (S + 15) CHUNKSIZE + DSIZE := Nat.add_le_add_right hmax _

/-- A live size is that of a request. -/
theorem mem_liveSizes {ops : List TraceOp} {x : Nat × Int} (hx : x ∈ liveSizes ops) :
    ∃ op ∈ ops, op.type ≠ .free ∧ op.size = x.2 := by
  induction ops using List.reverseRecOn with
  | nil => cases hx
  | append_singleton ops op ih =>
      rw [liveSizes_concat] at hx
      have hold : x ∈ (liveSizes ops).filter (·.1 ≠ op.index) →
          ∃ op' ∈ ops ++ [op], op'.type ≠ .free ∧ op'.size = x.2 := by
        intro hmem
        obtain ⟨op', hop', h⟩ := ih (List.mem_filter.mp hmem).1
        exact ⟨op', List.mem_append_left _ hop', h⟩
      have hnew : op.type ≠ .free → x ∈ (op.index, op.size) :: (liveSizes ops).filter (·.1 ≠ op.index)
          → ∃ op' ∈ ops ++ [op], op'.type ≠ .free ∧ op'.size = x.2 := by
        intro htype hmem
        rcases List.mem_cons.mp hmem with rfl | hmem
        · exact ⟨op, by simp, htype, rfl⟩
        · exact hold hmem
      rw [TraceOp.resize] at hx
      cases htype : op.type with
      | free =>
          rw [htype] at hx
          exact hold hx
      | alloc =>
          rw [htype] at hx
          exact hnew (by rw [htype]; decide) hx
      | realloc =>
          rw [htype] at hx
          exact hnew (by rw [htype]; decide) hx

section Bounds

variable {trace : Trace} {pre : List TraceOp} {op : TraceOp} {S : Nat}

theorem toSize_le {n : Int} (h : 1 ≤ n ∧ n < 2 ^ 31) : (toSize n : Int) = n := by
  unfold toSize
  omega

theorem Trace.Legal.size_ok (hlegal : trace.Legal) (hop : op ∈ trace.ops) (htype : op.type ≠ .free) :
    1 ≤ op.size ∧ op.size < 2 ^ 31 := (legal_of_mem hlegal op hop).2 htype

theorem Trace.Legal.toSize_le (hlegal : trace.Legal)
    (hS : ∀ op ∈ trace.ops, op.type ≠ .free → op.size ≤ S) (hop : op ∈ trace.ops)
    (htype : op.type ≠ .free) : toSize op.size ≤ S := by
  have heq := MallocLab.toSize_le (hlegal.size_ok hop htype)
  have hle := hS op hop htype
  omega

/-- The live blocks take what was asked for and 23 bytes each. -/
theorem liveSizes_rooms (hlegal : trace.Legal) (hpre : pre <+: trace.ops) :
    ((((liveSizes pre).map (fun x => blockBound (toSize x.2))).sum : Nat) : Int)
      ≤ liveTotal pre + 23 * (liveSizes pre).length := by
  have hone : ∀ x ∈ liveSizes pre, (blockBound (toSize x.2) : Int) ≤ x.2 + 23 := by
    intro x hx
    obtain ⟨op, hop, htype, hsize⟩ := mem_liveSizes hx
    have heq := MallocLab.toSize_le (hlegal.size_ok (hpre.subset hop) htype)
    have hle := blockBound_le (toSize x.2)
    rw [← hsize] at hle ⊢
    omega
  have hsum : ∀ sizes : List (Nat × Int), (∀ x ∈ sizes, (blockBound (toSize x.2) : Int) ≤ x.2 + 23) →
      (((sizes.map (fun x => blockBound (toSize x.2))).sum : Nat) : Int)
        ≤ (sizes.map Prod.snd).sum + 23 * sizes.length := by
    intro sizes h
    induction sizes with
    | nil => simp
    | cons x sizes ih =>
        obtain ⟨hx, hrest⟩ := List.forall_mem_cons.mp h
        have hle := ih hrest
        simp only [List.map_cons, List.sum_cons, List.length_cons]
        push_cast at hle ⊢
        omega
  exact hsum _ hone

/-- What the heap needs for the live blocks, when there are never more than `K` of them with `L`
bytes in all. -/
theorem need_le_population {K L : Nat} (hlegal : trace.Legal)
    (hS : ∀ op ∈ trace.ops, op.type ≠ .free → op.size ≤ S)
    (hK : ∀ pre, pre <+: trace.ops → (liveSizes pre).length ≤ K)
    (hL : ∀ pre, pre <+: trace.ops → liveTotal pre ≤ L) (hpre : pre ++ [op] <+: trace.ops)
    (htype : op.type ≠ .free) : need pre (toSize op.size)
      ≤ L + 23 * K + (K + 1) * (S + 14) + max (S + 15) CHUNKSIZE + DSIZE := by
  have hpre' : pre <+: trace.ops := (List.prefix_append pre [op]).trans hpre
  have hsize := hlegal.toSize_le hS (hpre.subset (by simp)) htype
  have hrooms := liveSizes_rooms hlegal hpre'
  have hlen := hK pre hpre'
  have hheld := hL pre hpre'
  have hholes : ((liveSizes pre).length + 1) * (requestSize (toSize op.size) - 1)
      ≤ (K + 1) * (S + 14) := by
    apply Nat.mul_le_mul (Nat.add_le_add_right hlen 1)
    unfold requestSize
    omega
  have hext : extension (toSize op.size) ≤ max (S + 15) CHUNKSIZE + DSIZE :=
    extension_le_of_le hsize
  calc need pre (toSize op.size)
      ≤ crowd (liveSizes pre) (toSize op.size) + extension (toSize op.size) :=
        Nat.add_le_add_right (min_le_left _ _) _
    _ ≤ L + 23 * K + (K + 1) * (S + 14) + (max (S + 15) CHUNKSIZE + DSIZE) := by
        apply Nat.add_le_add _ hext
        unfold crowd
        omega

theorem volume_le (hlegal : trace.Legal) (hpre : pre <+: trace.ops) :
    (volume pre : Int) ≤ ((pre.filter (·.type ≠ .free)).map (fun op => op.size + 23)).sum := by
  induction pre using List.reverseRecOn with
  | nil => exact le_refl _
  | append_singleton pre op ih =>
      have hle := ih ((List.prefix_append pre [op]).trans hpre)
      rw [volume_concat, List.filter_append, List.map_append, List.sum_append]
      by_cases htype : op.type ≠ .free
      · have heq := MallocLab.toSize_le (hlegal.size_ok (hpre.subset (by simp)) htype)
        have hbound := blockBound_le (toSize op.size)
        rw [if_pos htype, List.filter_cons_of_pos (by simpa using htype)]
        simp only [List.filter_nil, List.map_cons, List.map_nil, List.sum_cons, List.sum_nil]
        push_cast
        omega
      · rw [if_neg htype, List.filter_cons_of_neg (by simpa using htype)]
        simpa using hle

/-- What the heap needs when all requests together ask for `V` bytes, 23 more for each. -/
theorem need_le_volume {V : Nat} (hlegal : trace.Legal)
    (hS : ∀ op ∈ trace.ops, op.type ≠ .free → op.size ≤ S)
    (hV : ((trace.ops.filter (·.type ≠ .free)).map (fun op => op.size + 23)).sum ≤ (V : Int))
    (hpre : pre ++ [op] <+: trace.ops) (htype : op.type ≠ .free) :
    need pre (toSize op.size) ≤ V + max (S + 15) CHUNKSIZE + DSIZE := by
  have hsize := hlegal.toSize_le hS (hpre.subset (by simp)) htype
  have hext : extension (toSize op.size) ≤ max (S + 15) CHUNKSIZE + DSIZE :=
    extension_le_of_le hsize
  have hvolume : volume (pre ++ [op]) ≤ V := by
    have hpart := volume_le hlegal hpre
    obtain ⟨rest, hrest⟩ := hpre
    have hnonneg : 0 ≤ ((rest.filter (·.type ≠ .free)).map (fun op => op.size + 23)).sum := by
      apply List.sum_nonneg
      intro x hx
      obtain ⟨op', hop', rfl⟩ := List.mem_map.mp hx
      obtain ⟨hmem, htype'⟩ := List.mem_filter.mp hop'
      have hok := hlegal.size_ok (hrest ▸ List.mem_append_right _ hmem) (of_decide_eq_true htype')
      omega
    rw [← hrest, List.filter_append, List.map_append, List.sum_append] at hV
    omega
  rw [volume_concat, if_pos htype] at hvolume
  have hreq : requestSize (toSize op.size) ≤ blockBound (toSize op.size) := Nat.le_add_right _ _
  calc need pre (toSize op.size)
      ≤ volume pre + requestSize (toSize op.size) + extension (toSize op.size) :=
        Nat.add_le_add_right (min_le_right _ _) _
    _ ≤ V + (max (S + 15) CHUNKSIZE + DSIZE) := Nat.add_le_add (by omega) hext

end Bounds

/-! ## The evaluators -/

/-- An arena whose break cannot wrap around in requests up to `limit` bytes. -/
structure ArenaFor (limit : Nat) (h : Heap) : Prop where
  arena : Arena h
  brk : h.memBrk ≤ h.memMaxAddr
  room : h.memMaxAddr ≤ 2 ^ 31 ∨ h.memMaxAddr + max (limit + 15) CHUNKSIZE + DSIZE < 2 ^ 32

theorem ArenaFor.within {limit : Nat} {h : Heap} (hA : ArenaFor limit h) :
    Within 0 h.memMaxAddr h := by
  refine ⟨⟨Nat.zero_le _, ?_⟩, ⟨Nat.zero_le _, hA.brk⟩, rfl⟩
  rw [hA.arena.maxAddr]
  exact Nat.le_add_right _ _

/-- The evaluators get through the trace, each with a heap of at most `limit` bytes. -/
structure GetThrough (d : Driver) (u : Util) (v : Speed) (trace : Trace) (limit : Nat) : Prop where
  valid : (∀ op ∈ trace.ops, op.Readable) → ∃ d', (evalMmValid trace).out d = some (.ok (), d') ∧
    memHeapsize d'.heap ≤ limit
  util : ∃ ratio u', (evalMmUtil trace).out u = some (.ok ratio, u') ∧
    memHeapsize u'.heap ≤ limit ∧ (highWater trace.ops : ℚ) / limit ≤ ratio
  speed : ∃ v', (evalMmSpeed trace).out v = some (.ok (), v') ∧ memHeapsize v'.heap ≤ limit

section Evaluators

variable {d : Driver} {u : Util} {v : Speed} {trace : Trace} {S : Nat}

theorem ArenaFor.roomy {h : Heap} (hA : ArenaFor S h) (hlegal : trace.Legal)
    (hS : ∀ op ∈ trace.ops, op.type ≠ .free → op.size ≤ S) :
    ∀ op ∈ trace.ops, op.Roomy h.memMaxAddr :=
  fun _ hop htype => room_of_le hA.room (hlegal.toSize_le hS hop htype)

/-- The utilization in every arena that has room. -/
theorem evalMmUtil_served (hu : ArenaFor S u.heap) (hlegal : trace.Legal)
    (hS : ∀ op ∈ trace.ops, op.type ≠ .free → op.size ≤ S) :
    (served trace.ops = none ∧ ∃ e u', (evalMmUtil trace).out u = some (.error e, u')) ∨
      ∃ t u', served trace.ops = some t ∧ memHeapsize u'.heap = t.heapsize ∧
        (evalMmUtil trace).out u
          = some (.ok ((highWater trace.ops : ℚ) / (t.heapsize : ℚ)), u') := by
  have hnw : NoWrap ((evalMmUtil trace).log u) := noWrap_of_stays
    (evalMmUtil_always (room_of_le hu.room (Nat.zero_le S)) (hu.roomy hlegal hS) u hu.within).1
  obtain ⟨q, u', hout, ⟨⟨e, rfl⟩, hno⟩ | ⟨t, live, ht, rfl, -, hF⟩⟩ :=
    (evalMmUtil_follow hu.arena hlegal).out hnw
  · exact Or.inl ⟨hno, e, u', hout⟩
  · exact Or.inr ⟨t, u', ht, hF.heapsize, hout⟩

/-- What is served is served in every arena that has room. -/
theorem getThrough {limit : Nat} {t : Store} (hd : ArenaFor S d.heap) (hu : ArenaFor S u.heap)
    (hv : ArenaFor S v.heap) (hlegal : trace.Legal)
    (hS : ∀ op ∈ trace.ops, op.type ≠ .free → op.size ≤ S) (hserved : served trace.ops = some t)
    (hlimit : t.heapsize ≤ limit) : GetThrough d u v trace limit := by
  constructor
  · intro hread
    have hnw : NoWrap ((evalMmValid trace).log d) := noWrap_of_stays
      (evalMmValid_always (room_of_le hd.room (Nat.zero_le S)) (hd.roomy hlegal hS) d hd.within).1
    obtain ⟨r, d', hout, hiff, hfollow, -⟩ := (evalMmValid_follow hd.arena hlegal).out hnw
    obtain rfl := hiff.mpr ⟨by rw [hserved]; rfl, hread⟩
    obtain ⟨t', live, ht', hF⟩ := hfollow rfl
    rw [hserved] at ht'
    cases ht'
    exact ⟨d', hout, hF.heapsize.trans_le hlimit⟩
  · obtain ⟨hno, -⟩ | ⟨t', u', ht', hsize, hout⟩ := evalMmUtil_served hu hlegal hS
    · rw [hserved] at hno
      cases hno
    · rw [hserved] at ht'
      cases ht'
      refine ⟨_, u', hout, hsize.trans_le hlimit, ?_⟩
      have hnonneg : (0 : ℚ) ≤ (highWater trace.ops : ℚ) := by
        exact_mod_cast highWater_nonneg trace.ops
      have hpos : (0 : ℚ) < (t.heapsize : ℚ) := by
        exact_mod_cast (show 0 < 16 + span t.blocks by omega)
      exact div_le_div_of_nonneg_left hnonneg hpos (by exact_mod_cast hlimit)
  · have hnw : NoWrap ((evalMmSpeed trace).log v) := noWrap_of_stays
      (evalMmSpeed_always (room_of_le hv.room (Nat.zero_le S)) (hv.roomy hlegal hS) v hv.within).1
    obtain ⟨p, v', hout, sizes, ⟨-, hno, -⟩ | ⟨rfl, t', live, ht', hF⟩⟩ :=
      (evalMmSpeed_follow hv.arena hlegal).out hnw
    · rw [hserved] at hno
      cases hno
    · rw [hserved] at ht'
      cases ht'
      exact ⟨v', hout, hF.heapsize.trans_le hlimit⟩

/-- **Few live blocks need little memory.** If a legal trace never has more than `K` live blocks
with `L` bytes in all, and asks for at most `S` bytes at a time, then all three evaluators get
through it, however long it is, with a heap that is bounded by `K`, `L` and `S` alone. -/
theorem evaluators_population {K L : Nat} (hd : ArenaFor S d.heap) (hu : ArenaFor S u.heap)
    (hv : ArenaFor S v.heap) (hlegal : trace.Legal)
    (hS : ∀ op ∈ trace.ops, op.type ≠ .free → op.size ≤ S)
    (hK : ∀ pre, pre <+: trace.ops → (liveSizes pre).length ≤ K)
    (hL : ∀ pre, pre <+: trace.ops → liveTotal pre ≤ L)
    (hfit : L + 23 * K + (K + 1) * (S + 14) + max (S + 15) CHUNKSIZE + DSIZE ≤ MAX_HEAP - 16) :
    GetThrough d u v trace
      (16 + max CHUNKSIZE (L + 23 * K + (K + 1) * (S + 14) + max (S + 15) CHUNKSIZE + DSIZE)) := by
  obtain ⟨t, hserved, hlimit⟩ := served_within hlegal hfit
    (fun pre op hpre htype => need_le_population hlegal hS hK hL hpre htype)
  exact getThrough hd hu hv hlegal hS hserved hlimit

/-- **Small requests need little memory.** The evaluators also get through every legal trace whose
requests ask for `V` bytes in all, counting 23 more for each, however the blocks are freed. -/
theorem evaluators_volume {V : Nat} (hd : ArenaFor S d.heap) (hu : ArenaFor S u.heap)
    (hv : ArenaFor S v.heap) (hlegal : trace.Legal)
    (hS : ∀ op ∈ trace.ops, op.type ≠ .free → op.size ≤ S)
    (hV : ((trace.ops.filter (·.type ≠ .free)).map (fun op => op.size + 23)).sum ≤ (V : Int))
    (hfit : V + max (S + 15) CHUNKSIZE + DSIZE ≤ MAX_HEAP - 16) :
    GetThrough d u v trace (16 + max CHUNKSIZE (V + max (S + 15) CHUNKSIZE + DSIZE)) := by
  obtain ⟨t, hserved, hlimit⟩ := served_within hlegal hfit
    (fun pre op hpre htype => need_le_volume hlegal hS hV hpre htype)
  exact getThrough hd hu hv hlegal hS hserved hlimit

end Evaluators

/-! ## A trace of small requests -/

theorem sampleHeap_arenaFor : ArenaFor 2040 sampleHeap :=
  ⟨sampleHeap_arena, by decide, Or.inl (by decide)⟩

theorem evaluators_population_sample :
    GetThrough sampleDriver sampleUtil ⟨sampleHeap, fun _ => 7⟩ balancedTrace 12368 := by
  have hparts : ∀ pre ∈ balancedTrace.ops.inits, (liveSizes pre).length ≤ 2 ∧
      liveTotal pre ≤ (2040 : Nat) := by decide
  exact evaluators_population (d := sampleDriver) (u := sampleUtil) (v := ⟨sampleHeap, fun _ => 7⟩)
    (S := 2040) (K := 2) (L := 2040) sampleHeap_arenaFor sampleHeap_arenaFor sampleHeap_arenaFor
    balancedTrace_legal (by decide)
    (fun pre hpre => (hparts pre ((List.mem_inits pre _).mpr hpre)).1)
    (fun pre hpre => (hparts pre ((List.mem_inits pre _).mpr hpre)).2) (by decide)

theorem evaluators_volume_sample :
    GetThrough sampleDriver sampleUtil ⟨sampleHeap, fun _ => 7⟩ balancedTrace 6359 :=
  evaluators_volume (d := sampleDriver) (u := sampleUtil) (v := ⟨sampleHeap, fun _ => 7⟩)
    (S := 2040) (V := 2239) sampleHeap_arenaFor sampleHeap_arenaFor sampleHeap_arenaFor
    balancedTrace_legal (by decide) (by decide) (by decide)

end MallocLab
