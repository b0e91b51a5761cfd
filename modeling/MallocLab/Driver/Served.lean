import MallocLab.Driver.Valid
import MallocLab.Client.Isolation
import MallocLab.Lib.Yields

set_option autoImplicit false

/-! # What a trace is served

An evaluator of the driver replays a trace with its table `blocks`. Whatever else it does, it is
a client of the allocator that names its blocks by id: its calls are a run of the system, and
the store of `serveAll`, which knows of no memory, says after each request which one comes
back with `NULL` (`Follow`). One lemma for each kind of request keeps this up; an evaluator
needs nothing else of the allocator.
-/

namespace MallocLab

open Logged Words Tiling BlockList

/-! ## Requests on the store -/

/-- A request of a trace as a client makes it. -/
def TraceOp.req (op : TraceOp) : Req :=
  match op.type with
  | .alloc => .alloc op.index (toSize op.size)
  | .realloc => .realloc op.index (toSize op.size)
  | .free => .free op.index

namespace Store

/-- One request: nothing when it comes back with `NULL`, or when its id has no block. -/
def serve (t : Store) (op : TraceOp) : Option Store :=
  match op.req.call t.names with
  | none => none
  | some c =>
      let r := request 16 t.blocks c
      if op.type ≠ .free ∧ r.1 = NULL then none
      else some ⟨r.2, op.req.rename t.names r.1⟩

def serveAll (t : Store) : List TraceOp → Option Store
  | [] => some t
  | op :: ops =>
      match t.serve op with
      | none => none
      | some t' => t'.serveAll ops

/-- What `mm_init` leaves. -/
def initial : Store := ⟨[⟨4096, false⟩], fun _ => none⟩

/-- The heap of a store, as `mem_heapsize` sees it. -/
def heapsize (t : Store) : Nat := 16 + span t.blocks

end Store

/-- The store after a trace, when every request is served. -/
def served (ops : List TraceOp) : Option Store := Store.initial.serveAll ops

theorem serveAll_append (t : Store) (ops₁ ops₂ : List TraceOp) :
    t.serveAll (ops₁ ++ ops₂) = (t.serveAll ops₁).bind (·.serveAll ops₂) := by
  induction ops₁ generalizing t with
  | nil => rfl
  | cons op ops₁ ih =>
      rw [List.cons_append, Store.serveAll, Store.serveAll]
      cases t.serve op with
      | none => rfl
      | some t' => exact ih t'

/-! ## The names of a table -/

/-- The table names a block for each allocated id. -/
def tableNames (ids : List Nat) (blocks : Nat → Nat) (id : Nat) : Option Nat :=
  if id ∈ ids then some (blocks id) else none

theorem tableNames_mem {ids : List Nat} {blocks : Nat → Nat} {id : Nat} (hid : id ∈ ids) :
    tableNames ids blocks id = some (blocks id) := if_pos hid

/-- A block is entered into the table. -/
theorem tableNames_update {ids ids' : List Nat} {blocks : Nat → Nat} {id p : Nat}
    (hids : ∀ i, i ∈ ids' ↔ i = id ∨ i ∈ ids) :
    Function.update (tableNames ids blocks) id (some p)
      = tableNames ids' (Function.update blocks id p) := by
  funext i
  by_cases hi : i = id
  · rw [hi, Function.update_self, tableNames_mem ((hids id).mpr (Or.inl rfl)),
      Function.update_self]
  · have hmem : i ∈ ids' ↔ i ∈ ids := by
      rw [hids]
      exact or_iff_right hi
    rw [Function.update_of_ne hi, tableNames, tableNames, Function.update_of_ne hi]
    simp only [hmem]

/-- An id is given up. -/
theorem tableNames_drop (ids : List Nat) (blocks : Nat → Nat) (id : Nat) :
    Function.update (tableNames ids blocks) id none
      = tableNames (ids.filter (· ≠ id)) blocks := by
  funext i
  by_cases hi : i = id
  · rw [hi, Function.update_self, tableNames, if_neg (by simp)]
  · rw [Function.update_of_ne hi, tableNames, tableNames]
    simp [hi]

/-! ## One call -/

/-- A request that is made by name is the one of the store. -/
theorem Tracks.request {s s' : Sys} {names : Nat → Option Nat} {t : Store} {q : Req} {c : Call}
    {r : Nat} (ht : Tracks s names t) (hcall : q.call names = some c)
    (hstep : Refines s t.blocks c r s') :
    ∃ c', q.call t.names = some c' ∧ (r = NULL ↔ (request 16 t.blocks c').1 = NULL) ∧
      Tracks s' (q.rename names r)
        ⟨(request 16 t.blocks c').2, q.rename t.names (request 16 t.blocks c').1⟩ := by
  obtain ⟨c', hcall', rfl, hpos⟩ := ht.named.call hcall
  have hbase : firstBlkp s.heap = s.heap.memStartBrk + 16 := rfl
  have hshift := request_shift (d := s.heap.memStartBrk) t.blocks c' (by norm_num : 0 < 16) hpos
  have hinv := hstep.inv
  have hres := hstep.result
  rw [hbase] at hinv hres
  rw [hshift.1] at hinv
  have ho := hshift.2
  rw [← hres] at ho
  refine ⟨c', hcall', ?_, hinv, ?_⟩
  · rcases ho with ⟨h1, h2⟩ | ⟨h1, h2⟩
    · exact ⟨fun _ => h2, fun _ => h1⟩
    · unfold NULL
      omega
  · rw [hstep.keeps.start]
    exact ht.named.rename q ho

/-- A call is the program on the heap, and then a change of the list of live blocks. -/
theorem onHeap_then {α β : Type} {m : M α} {k : α → Logged Sys Event β} {g : α → Sys → β × Sys}
    (hk : ∀ a s, (k a).log s = [] ∧ (k a).out s = some (g a s)) (s : Sys) :
    (onHeap m >>= k).log s = m.log s.heap ∧
      (onHeap m >>= k).out s = (m.out s.heap).map (fun r => g r.1 (s.setHeap r.2)) := by
  have hlog : (onHeap m).log s = m.log s.heap := rfl
  have hout : (onHeap m).out s = (m.out s.heap).map (fun r => (r.1, s.setHeap r.2)) := rfl
  rw [log_bind, out_bind, hlog, hout]
  rcases m.out s.heap with _ | ⟨a, h'⟩
  · exact ⟨List.append_nil _, rfl⟩
  · obtain ⟨hl, ho⟩ := hk a (s.setHeap h')
    show m.log s.heap ++ (k a).log (s.setHeap h') = _ ∧ (k a).out (s.setHeap h') = _
    rw [hl, ho]
    exact ⟨List.append_nil _, rfl⟩

theorem call_malloc (s : Sys) (n : Nat) :
    (call (.malloc n)).log s = (mmMalloc n).log s.heap ∧
      (call (.malloc n)).out s = ((mmMalloc n).out s.heap).map
        (fun r => (r.1, (s.setHeap r.2).malloced r.1 n)) := by
  rw [call]
  exact onHeap_then (g := fun p s => (p, s.malloced p n)) (fun _ _ => ⟨rfl, rfl⟩) s

theorem call_realloc (s : Sys) (p n : Nat) :
    (call (.realloc p n)).log s = (mmRealloc p n).log s.heap ∧
      (call (.realloc p n)).out s = ((mmRealloc p n).out s.heap).map
        (fun r => (r.1, (s.setHeap r.2).realloced p n r.1)) := by
  rw [call]
  exact onHeap_then (g := fun q s => (q, s.realloced p n q)) (fun _ _ => ⟨rfl, rfl⟩) s

theorem call_free_eq (s : Sys) (p : Nat) :
    (call (.free p)).log s = (mmFree p).log s.heap ∧
      (call (.free p)).out s = ((mmFree p).out s.heap).map
        (fun r => (NULL, (s.setHeap r.2).drop p)) := by
  rw [call]
  exact onHeap_then (g := fun _ s => (NULL, s.drop p)) (fun _ _ => ⟨rfl, rfl⟩) s

/-! ## The tables -/

/-- The tables hold a live block with its size for each id, no two ids share one, and there are
no other live blocks. -/
structure Entered (live : List Live) (blocks sizes : Nat → Nat) (ids : List Nat) : Prop where
  holds : ∀ id ∈ ids, ∃ k ∈ live, k.ptr = blocks id ∧ k.size = sizes id
  inj : ∀ i ∈ ids, ∀ j ∈ ids, blocks i = blocks j → i = j
  named : ∀ k ∈ live, ∃ id ∈ ids, blocks id = k.ptr

theorem entered_nil (blocks sizes : Nat → Nat) : Entered [] blocks sizes [] :=
  ⟨fun _ hi => absurd hi List.not_mem_nil, fun _ hi => absurd hi List.not_mem_nil,
    fun _ hk => absurd hk List.not_mem_nil⟩

/-- An id is given up, with its block. -/
theorem Entered.drop {live : List Live} {blocks sizes : Nat → Nat} {ids : List Nat} {id : Nat}
    (hE : Entered live blocks sizes ids) (hid : id ∈ ids) :
    Entered (live.filter (fun k => k.ptr ≠ blocks id)) blocks sizes (ids.filter (· ≠ id)) := by
  refine ⟨fun i hi => ?_, fun i hi j hj => ?_, fun k hk => ?_⟩
  · obtain ⟨hi, hne⟩ := List.mem_filter.mp hi
    obtain ⟨k, hk, hkp, hks⟩ := hE.holds i hi
    refine ⟨k, List.mem_filter.mpr ⟨hk, decide_eq_true fun he => ?_⟩, hkp, hks⟩
    exact of_decide_eq_true hne (hE.inj i hi id hid (hkp.symm.trans he))
  · exact hE.inj i (List.mem_filter.mp hi).1 j (List.mem_filter.mp hj).1
  · obtain ⟨hk, hne⟩ := List.mem_filter.mp hk
    obtain ⟨i, hi, hik⟩ := hE.named k hk
    refine ⟨i, List.mem_filter.mpr ⟨hi, decide_eq_true fun he => ?_⟩, hik⟩
    exact of_decide_eq_true hne (hik.symm.trans (congrArg blocks he))

/-- A new block is entered for an id that has none. -/
theorem Entered.enter {live : List Live} {blocks sizes : Nat → Nat} {ids : List Nat} {id : Nat}
    {k : Live} (hE : Entered live blocks sizes ids) (hid : id ∉ ids)
    (hnd : ((k :: live).map Live.ptr).Nodup) :
    Entered (k :: live) (Function.update blocks id k.ptr) (Function.update sizes id k.size)
      (id :: ids) := by
  rw [List.map_cons, List.nodup_cons] at hnd
  -- an old id is not the new one, and its block is not the new one
  have hold : ∀ i ∈ ids, i ≠ id ∧ blocks i ≠ k.ptr := by
    intro i hi
    obtain ⟨x, hx, hxp, -⟩ := hE.holds i hi
    refine ⟨fun he => hid (he ▸ hi), fun he => hnd.1 ?_⟩
    exact List.mem_map.mpr ⟨x, hx, hxp.trans he⟩
  refine ⟨fun i hi => ?_, fun i hi j hj he => ?_, fun x hx => ?_⟩
  · rcases List.mem_cons.mp hi with rfl | hi
    · refine ⟨k, List.mem_cons_self, ?_, ?_⟩
      · rw [Function.update_self]
      · rw [Function.update_self]
    · obtain ⟨x, hx, hxp, hxs⟩ := hE.holds i hi
      refine ⟨x, List.mem_cons_of_mem _ hx, ?_, ?_⟩
      · rw [Function.update_of_ne (hold i hi).1, hxp]
      · rw [Function.update_of_ne (hold i hi).1, hxs]
  · rcases List.mem_cons.mp hi with hi' | hi' <;> rcases List.mem_cons.mp hj with hj' | hj'
    · exact hi'.trans hj'.symm
    · rw [hi', Function.update_self, Function.update_of_ne (hold j hj').1] at he
      exact absurd he.symm (hold j hj').2
    · rw [hj', Function.update_self, Function.update_of_ne (hold i hi').1] at he
      exact absurd he (hold i hi').2
    · rw [Function.update_of_ne (hold i hi').1, Function.update_of_ne (hold j hj').1] at he
      exact hE.inj i hi' j hj' he
  · rcases List.mem_cons.mp hx with rfl | hx
    · exact ⟨id, List.mem_cons_self, Function.update_self ..⟩
    · obtain ⟨i, hi, hix⟩ := hE.named x hx
      refine ⟨i, List.mem_cons_of_mem _ hi, ?_⟩
      rw [Function.update_of_ne (hold i hi).1, hix]

/-- Only the set of the ids matters, and of a live block its place and its size. -/
theorem Entered.congr {live live' : List Live} {blocks sizes : Nat → Nat} {ids ids' : List Nat}
    (hE : Entered live blocks sizes ids) (hids : ∀ i, i ∈ ids' ↔ i ∈ ids)
    (hlive : ∀ k ∈ live, ∃ k' ∈ live', k'.ptr = k.ptr ∧ k'.size = k.size)
    (hback : ∀ k' ∈ live', ∃ k ∈ live, k'.ptr = k.ptr) :
    Entered live' blocks sizes ids' := by
  refine ⟨fun i hi => ?_, fun i hi j hj => ?_, fun k' hk' => ?_⟩
  · obtain ⟨k, hk, hkp, hks⟩ := hE.holds i ((hids i).mp hi)
    obtain ⟨k', hk', hkp', hks'⟩ := hlive k hk
    exact ⟨k', hk', hkp'.trans hkp, hks'.trans hks⟩
  · exact hE.inj i ((hids i).mp hi) j ((hids j).mp hj)
  · obtain ⟨k, hk, hkk⟩ := hback k' hk'
    obtain ⟨i, hi, hik⟩ := hE.named k hk
    exact ⟨i, (hids i).mpr hi, hik.trans hkk.symm⟩

/-! ## The evaluator as a client -/

/-- The evaluator is a client: `s` is a state that a run reaches with the log `l`, the tables
`blocks` and `sizes` name the live blocks of the allocated ids, and the store is `t`. -/
structure Follow (l : List Event) (s : Sys) (blocks sizes : Nat → Nat) (ids : List Nat)
    (t : Store) : Prop where
  run : Run (allocator small) l s
  tracks : Tracks s (tableNames ids blocks) t
  entered : Entered s.live blocks sizes ids

section Steps

variable {T : Prop} {l : List Event} {h : Heap} {live : List Live} {blocks sizes : Nat → Nat}
  {ids : List Nat} {t : Store} {op : TraceOp}

theorem serve_null {c : Call} (hcall : op.req.call t.names = some c) (htype : op.type ≠ .free)
    (hnull : (request 16 t.blocks c).1 = NULL) : t.serve op = none := by
  rw [Store.serve, hcall]
  exact if_pos ⟨htype, hnull⟩

theorem serve_some {c : Call} (hcall : op.req.call t.names = some c)
    (hok : op.type = .free ∨ (request 16 t.blocks c).1 ≠ NULL) :
    t.serve op
      = some ⟨(request 16 t.blocks c).2, op.req.rename t.names (request 16 t.blocks c).1⟩ := by
  rw [Store.serve, hcall]
  refine if_neg ?_
  rintro ⟨htype, hnull⟩
  exact hok.elim htype (fun h => h hnull)

/-- A valid call goes on with the run, and says what the store says. -/
theorem Follow.call (hF : Follow l ⟨h, live⟩ blocks sizes ids t) {c : Call}
    (hcall : op.req.call (tableNames ids blocks) = some c) (hvalid : Valid small ⟨h, live⟩ c)
    (hnw : NoWrap ((MallocLab.call c).log ⟨h, live⟩)) :
    ∃ r s' c', (MallocLab.call c).out ⟨h, live⟩ = some (r, s') ∧
      Run (allocator small) (l ++ (MallocLab.call c).log ⟨h, live⟩) s' ∧
      op.req.call t.names = some c' ∧ (r = NULL ↔ (request 16 t.blocks c').1 = NULL) ∧
      Tracks s' (op.req.rename (tableNames ids blocks) r)
        ⟨(request 16 t.blocks c').2, op.req.rename t.names (request 16 t.blocks c').1⟩ := by
  obtain ⟨-, r, s', hout, hstep⟩ := call_spec (fun _ _ => small_sound) hF.tracks.inv hvalid hnw
  obtain ⟨c', hcall', hnull, htracks⟩ := hF.tracks.request hcall hstep
  exact ⟨r, s', c', hout, Run.call hF.run hvalid hout, hcall', hnull, htracks⟩

/-- The request `alloc`. -/
theorem Follow.malloc (hF : Follow l ⟨h, live⟩ blocks sizes ids t) (htype : op.type = .alloc)
    (hid : op.index ∉ ids) (hlt : toSize op.size < 2 ^ 31) :
    Yields T Event.NoWrap (mmMalloc (toSize op.size)) h (fun l' p h' =>
      (p = NULL ∧ t.serve op = none ∧ Arena h') ∨ (p ≠ NULL ∧ ∃ t' live', t.serve op = some t' ∧
        Follow (l ++ l') ⟨h', live'⟩ (Function.update blocks op.index p)
          (Function.update sizes op.index (toSize op.size)) (op.index :: ids) t')) := by
  have hreq : op.req = .alloc op.index (toSize op.size) := by rw [TraceOp.req, htype]
  have hvalid : Valid small ⟨h, live⟩ (.malloc (toSize op.size)) := ⟨by omega, hlt⟩
  obtain ⟨hlog, hout⟩ := call_malloc ⟨h, live⟩ (toSize op.size)
  refine Yields.of_out fun hnw => ?_
  obtain ⟨r, s', c', hout', hrun, hcall', hnull, htracks⟩ :=
    hF.call (c := .malloc (toSize op.size)) (by rw [hreq]; rfl) hvalid
      (by rw [NoWrap, hlog]; exact hnw)
  rw [hlog] at hrun
  rw [hout'] at hout
  obtain ⟨⟨p, h'⟩, hmm, heq⟩ := Option.map_eq_some_iff.mp hout.symm
  cases heq
  have hfree : op.type ≠ .free := by rw [htype]; decide
  refine ⟨p, h', hmm, ?_⟩
  by_cases hp : p = NULL
  · have hs : (Sys.setHeap h' ⟨h, live⟩).malloced p (toSize op.size) = ⟨h', live⟩ := if_pos hp
    simp only [hs] at htracks
    exact Or.inl ⟨hp, serve_null hcall' hfree (hnull.mp hp), htracks.inv.rep.arena⟩
  · have hs : (Sys.setHeap h' ⟨h, live⟩).malloced p (toSize op.size)
        = ⟨h', ⟨p, toSize op.size, fun _ => none⟩ :: live⟩ := if_neg hp
    have hname : op.req.rename (tableNames ids blocks) p
        = tableNames (op.index :: ids) (Function.update blocks op.index p) := by
      rw [hreq, ← tableNames_update (fun i => List.mem_cons)]
      exact if_neg hp
    simp only [hs] at hrun htracks
    rw [hname] at htracks
    have hnew := hF.entered.enter hid htracks.inv.owns.nodup
    refine Or.inr ⟨hp, _, ⟨p, toSize op.size, fun _ => none⟩ :: live, serve_some hcall' ?_, ?_⟩
    · exact Or.inr (fun h0 => hp (hnull.mpr h0))
    · exact ⟨hrun, htracks, hnew⟩

/-- The request `realloc`. -/
theorem Follow.realloc (hF : Follow l ⟨h, live⟩ blocks sizes ids t) (htype : op.type = .realloc)
    (hid : op.index ∈ ids) (h1 : 1 ≤ toSize op.size) (hlt : toSize op.size < 2 ^ 31) :
    Yields T Event.NoWrap (mmRealloc (blocks op.index) (toSize op.size)) h (fun l' p h' =>
      (p = NULL ∧ t.serve op = none ∧ Arena h') ∨ (p ≠ NULL ∧ ∃ t' live', t.serve op = some t' ∧
        Follow (l ++ l') ⟨h', live'⟩ (Function.update blocks op.index p)
          (Function.update sizes op.index (toSize op.size)) ids t')) := by
  have hreq : op.req = .realloc op.index (toSize op.size) := by rw [TraceOp.req, htype]
  have hcall : op.req.call (tableNames ids blocks)
      = some (.realloc (blocks op.index) (toSize op.size)) := by
    rw [hreq, Req.call, tableNames_mem hid]
    rfl
  have hlive : Sys.IsLive ⟨h, live⟩ (blocks op.index) := by
    obtain ⟨k, hk, hkp, -⟩ := hF.entered.holds _ hid
    exact ⟨k, hk, hkp⟩
  obtain ⟨hlog, hout⟩ := call_realloc ⟨h, live⟩ (blocks op.index) (toSize op.size)
  refine Yields.of_out fun hnw => ?_
  obtain ⟨r, s', c', hout', hrun, hcall', hnull, htracks⟩ :=
    hF.call hcall ⟨by omega, hlt, Or.inl hlive⟩ (by rw [NoWrap, hlog]; exact hnw)
  rw [hlog] at hrun
  rw [hout'] at hout
  obtain ⟨⟨p, h'⟩, hmm, heq⟩ := Option.map_eq_some_iff.mp hout.symm
  cases heq
  have hfree : op.type ≠ .free := by rw [htype]; decide
  refine ⟨p, h', hmm, ?_⟩
  by_cases hp : p = NULL
  · have hs : (Sys.setHeap h' ⟨h, live⟩).realloced (blocks op.index) (toSize op.size) p
        = ⟨h', live⟩ := by
      rw [Sys.realloced, if_neg (by omega), if_pos hp]
      rfl
    simp only [hs] at htracks
    exact Or.inl ⟨hp, serve_null hcall' hfree (hnull.mp hp), htracks.inv.rep.arena⟩
  · have hs : ∃ d, (Sys.setHeap h' ⟨h, live⟩).realloced (blocks op.index) (toSize op.size) p
        = ⟨h', ⟨p, toSize op.size, d⟩ :: live.filter (fun k => k.ptr ≠ blocks op.index)⟩ := by
      rw [Sys.realloced, if_neg (by omega), if_neg hp]
      exact ⟨_, rfl⟩
    obtain ⟨d, hs⟩ := hs
    -- the id is given up and entered again
    have hself : ∀ i, i ∈ op.index :: ids.filter (· ≠ op.index) ↔ i ∈ ids := by
      intro i
      rw [List.mem_cons, List.mem_filter, decide_eq_true_iff]
      by_cases hi : i = op.index
      · exact ⟨fun _ => hi ▸ hid, fun _ => Or.inl hi⟩
      · exact ⟨fun hor => (hor.resolve_left hi).1, fun hi' => Or.inr ⟨hi', hi⟩⟩
    have hname : op.req.rename (tableNames ids blocks) p
        = tableNames ids (Function.update blocks op.index p) := by
      have hupdate : Function.update (tableNames ids blocks) op.index (some p)
          = tableNames ids (Function.update blocks op.index p) :=
        tableNames_update (fun i => ⟨Or.inr, fun hor => hor.elim (fun he => he ▸ hid) id⟩)
      rw [hreq, ← hupdate]
      exact if_neg hp
    simp only [hs] at hrun htracks
    rw [hname] at htracks
    have hgone : op.index ∉ ids.filter (· ≠ op.index) := by simp
    have hnew := (hF.entered.drop hid).enter hgone htracks.inv.owns.nodup
    refine Or.inr ⟨hp, _, ⟨p, toSize op.size, d⟩ :: live.filter (fun k => k.ptr ≠ blocks op.index),
      serve_some hcall' ?_, ?_⟩
    · exact Or.inr (fun h0 => hp (hnull.mpr h0))
    · refine ⟨hrun, htracks, hnew.congr (fun i => (hself i).symm) ?_ ?_⟩
      · exact fun k hk => ⟨k, hk, rfl, rfl⟩
      · exact fun k hk => ⟨k, hk, rfl⟩

/-- The request `free`. -/
theorem Follow.free (hF : Follow l ⟨h, live⟩ blocks sizes ids t) (htype : op.type = .free)
    (hid : op.index ∈ ids) :
    Yields T Event.NoWrap (mmFree (blocks op.index)) h (fun l' _ h' =>
      ∃ t' live', t.serve op = some t' ∧
        Follow (l ++ l') ⟨h', live'⟩ blocks sizes (ids.filter (· ≠ op.index)) t') := by
  have hreq : op.req = .free op.index := by rw [TraceOp.req, htype]
  have hcall : op.req.call (tableNames ids blocks) = some (.free (blocks op.index)) := by
    rw [hreq, Req.call, tableNames_mem hid]
    rfl
  have hlive : Sys.IsLive ⟨h, live⟩ (blocks op.index) := by
    obtain ⟨k, hk, hkp, -⟩ := hF.entered.holds _ hid
    exact ⟨k, hk, hkp⟩
  obtain ⟨hlog, hout⟩ := call_free_eq ⟨h, live⟩ (blocks op.index)
  refine Yields.of_out fun hnw => ?_
  obtain ⟨r, s', c', hout', hrun, hcall', -, htracks⟩ :=
    hF.call hcall hlive (by rw [NoWrap, hlog]; exact hnw)
  rw [hlog] at hrun
  rw [hout'] at hout
  obtain ⟨⟨⟨⟩, h'⟩, hmm, heq⟩ := Option.map_eq_some_iff.mp hout.symm
  cases heq
  have hname : op.req.rename (tableNames ids blocks) NULL
      = tableNames (ids.filter (· ≠ op.index)) blocks := by
    rw [hreq, ← tableNames_drop]
    rfl
  rw [hname] at htracks
  refine ⟨(), h', hmm, _, live.filter (fun k => k.ptr ≠ blocks op.index),
    serve_some hcall' (Or.inl htype), ?_⟩
  exact ⟨hrun, htracks, hF.entered.drop hid⟩

/-- Filling the block of an id is a write of the client. -/
theorem Follow.memset (hF : Follow l ⟨h, live⟩ blocks sizes ids t) {id : Nat} (hid : id ∈ ids)
    (c : UInt8) :
    ∃ live', Follow l ⟨MallocLab.memset h (blocks id) c (sizes id), live'⟩ blocks sizes ids t := by
  obtain ⟨k, hk, hkp, hks⟩ := hF.entered.holds id hid
  have hlive : Sys.IsLive ⟨h, live⟩ (blocks id) := ⟨k, hk, hkp⟩
  have hfind : Sys.find ⟨h, live⟩ (blocks id) = some k := hkp ▸ hF.tracks.inv.find hk
  have hwrite : Sys.write ⟨h, live⟩ (blocks id) (fun _ => some c)
      = ⟨MallocLab.memset h (blocks id) c (sizes id),
        live.map (Live.note (blocks id) (fun _ => some c))⟩ := by
    rw [Sys.write, hfind, ← hks]
    rfl
  have hrun : Run (allocator small) (l ++ []) (Sys.write ⟨h, live⟩ (blocks id) (fun _ => some c)) :=
    Run.call (S := allocator small) (c := .write (blocks id) (fun _ => some c)) (r := NULL)
      hF.run hlive rfl
  obtain ⟨hinv, hkeeps⟩ := hF.tracks.inv.write hlive (fun _ => some c)
  rw [List.append_nil, hwrite] at hrun
  rw [hwrite] at hinv hkeeps
  refine ⟨_, hrun, ⟨hinv, hkeeps.start ▸ hF.tracks.named⟩, ?_⟩
  refine hF.entered.congr (fun _ => Iff.rfl) (fun x hx => ?_) (fun x' hx' => ?_)
  · exact ⟨_, List.mem_map_of_mem hx, note_ptr _ _ x, note_size _ _ x⟩
  · obtain ⟨x, hx, rfl⟩ := List.mem_map.mp hx'
    exact ⟨x, hx, note_ptr _ _ x⟩

/-- **A fresh heap**: nothing is allocated. -/
theorem follow_init {h : Heap} (hfresh : Fresh h) (blocks sizes : Nat → Nat) :
    Yields T Event.NoWrap mmInit h (fun l r h' =>
      r = 0 ∧ Follow l ⟨h', []⟩ blocks sizes [] Store.initial) := by
  refine Yields.of_out fun hnw => ?_
  obtain ⟨hA, hbrk⟩ := hfresh.arena
  obtain ⟨-, r, h', hout, rfl, hrep, -, -⟩ := mmInit_spec hA hbrk hnw
  refine ⟨0, h', hout, rfl, Run.start ⟨rfl, h, hfresh, hout, rfl⟩, ⟨inv_init hrep, ?_⟩,
    entered_nil _ _⟩
  exact ⟨fun id => rfl, fun id o ho => absurd ho (Option.some_ne_none o).symm⟩

/-- After `mem_reset_brk` the heap is fresh. -/
theorem reset_fresh (hA : Arena h) :
    Yields T Event.NoWrap memResetBrk h (fun l _ h' => l = [] ∧ Fresh h') :=
  Yields.of_out fun _ => ⟨(), _, rfl, rfl, Fresh.reset hA rfl⟩

end Steps

end MallocLab
