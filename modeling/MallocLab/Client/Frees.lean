import MallocLab.Client.Safety
import MallocLab.Lib.Canonical

set_option autoImplicit false

/-! # Frees in any order

Two heaps with one block list in one arena are alike for every client: the same calls are
valid, return the same and leave alike heaps (`Alike.calls`), whatever stale words lie inside
their free blocks. Freeing the same blocks in two orders ends in the canonical form of the
same allocated cells, so the two heaps are alike (`frees_commute`).
-/

namespace MallocLab

open Logged Words Tiling BlockList

/-- Make the calls one after the other; their results. -/
def calls : List Call → Logged Sys Event (List Nat)
  | [] => return []
  | c :: cs => do
      let r ← call c
      let rs ← calls cs
      return r :: rs

/-- Every call is valid when its turn comes. -/
def ValidFrom (sizes : Heap → Nat → Prop) : Sys → List Call → Prop
  | _, [] => True
  | s, c :: cs => Valid sizes s c ∧
      ∀ r s', (call c).out s = some (r, s') → ValidFrom sizes s' cs

/-! ## Alike heaps -/

/-- The two heaps encode one block list, in one arena. -/
structure Alike (s t : Sys) (bs : List Blk) : Prop where
  left : Inv s bs
  right : Inv t bs
  start : t.heap.memStartBrk = s.heap.memStartBrk

theorem Alike.base {s t : Sys} {bs : List Blk} (h : Alike s t bs) :
    firstBlkp t.heap = firstBlkp s.heap := congrArg (· + 16) h.start

/-- Alike heaps have the same live pointers. -/
theorem Alike.isLive_iff {s t : Sys} {bs : List Blk} (h : Alike s t bs) (p : Nat) :
    s.IsLive p ↔ t.IsLive p := by
  rw [h.left.isLive_iff, h.right.isLive_iff, h.base]

theorem Alike.valid {s t : Sys} {bs : List Blk} (h : Alike s t bs) {c : Call}
    (hc : Valid small s c) : Valid small t c := by
  cases c with
  | malloc size => exact hc
  | free p => exact (h.isLive_iff p).mp hc
  | realloc p size => exact ⟨hc.1, hc.2.1, hc.2.2.imp_left (h.isLive_iff p).mp⟩
  | write p f => exact (h.isLive_iff p).mp hc

/-- One call has the same result on alike heaps, and leaves alike heaps. -/
theorem Alike.call {s t : Sys} {bs : List Blk} (h : Alike s t bs) {c : Call}
    (hc : Valid small s c) (hs : NoWrap ((call c).log s)) (ht : NoWrap ((call c).log t)) :
    ∃ r s' t' bs', (MallocLab.call c).out s = some (r, s') ∧
      (MallocLab.call c).out t = some (r, t') ∧ Alike s' t' bs' := by
  obtain ⟨-, r, s', hsout, hsR⟩ := call_spec (fun _ _ => small_sound) h.left hc hs
  obtain ⟨-, r', t', htout, htR⟩ := call_spec (fun _ _ => small_sound) h.right (h.valid hc) ht
  have hr : r' = r := by rw [htR.result, hsR.result, h.base]
  have hinv := htR.inv
  rw [h.base] at hinv
  subst hr
  refine ⟨r', s', t', _, hsout, htout, ⟨hsR.inv, hinv, ?_⟩⟩
  calc t'.heap.memStartBrk
    _ = t.heap.memStartBrk := htR.keeps.start
    _ = s.heap.memStartBrk := h.start
    _ = s'.heap.memStartBrk := hsR.keeps.start.symm

theorem calls_log_head (c : Call) (cs : List Call) (s : Sys) :
    ∀ e ∈ (call c).log s, e ∈ (calls (c :: cs)).log s := by
  intro e he
  rw [calls, log_bind]
  exact List.mem_append_left _ he

theorem calls_cons {c : Call} {s s' : Sys} {r : Nat} (cs : List Call)
    (hout : (call c).out s = some (r, s')) :
    (calls (c :: cs)).out s = ((calls cs).out s').map (fun q => (r :: q.1, q.2)) ∧
      ∀ e ∈ (calls cs).log s', e ∈ (calls (c :: cs)).log s := by
  rw [calls]
  refine ⟨?_, fun e he => ?_⟩
  · rw [out_bind, hout]
    show (calls cs >>= fun rs => pure (r :: rs)).out s' = _
    rw [out_bind]
    cases (calls cs).out s' with
    | none => rfl
    | some q => rfl
  · rw [log_bind, hout]
    apply List.mem_append_right
    show e ∈ (calls cs >>= fun rs => pure (r :: rs)).log s'
    rw [log_bind]
    exact List.mem_append_left _ he

/-- **Alike heaps.** Every sequence of calls that is valid on one of two alike heaps is valid on
the other, and returns the same. -/
theorem Alike.calls {s t : Sys} {bs : List Blk} {cs : List Call} (h : Alike s t bs)
    (hcs : ValidFrom small s cs) (hs : NoWrap ((calls cs).log s))
    (ht : NoWrap ((calls cs).log t)) :
    ValidFrom small t cs ∧ ∃ rs s' t', (MallocLab.calls cs).out s = some (rs, s') ∧
      (MallocLab.calls cs).out t = some (rs, t') := by
  induction cs generalizing s t bs with
  | nil => exact ⟨trivial, [], s, t, rfl, rfl⟩
  | cons c cs ih =>
      obtain ⟨hc, hrest⟩ := hcs
      obtain ⟨r, s₁, t₁, bs₁, hsout, htout, h₁⟩ := h.call hc
        (fun e he => hs e (calls_log_head c cs s e he))
        (fun e he => ht e (calls_log_head c cs t e he))
      obtain ⟨hsmap, hslog⟩ := calls_cons cs hsout
      obtain ⟨htmap, htlog⟩ := calls_cons cs htout
      obtain ⟨hvalid, rs, s', t', hs', ht'⟩ := ih h₁ (hrest r s₁ hsout)
        (fun e he => hs e (hslog e he)) (fun e he => ht e (htlog e he))
      refine ⟨⟨h.valid hc, fun r' t₂ hout => ?_⟩, r :: rs, s', t', ?_, ?_⟩
      · rw [htout] at hout
        cases hout
        exact hvalid
      · rw [hsmap, hs']
        rfl
      · rw [htmap, ht']
        rfl

/-! ## Orders of frees -/

/-- Freeing live blocks one after the other frees them in the block list. -/
theorem frees_spec {s : Sys} {bs : List Blk} {ps : List Nat} (hI : Inv s bs) (hnd : ps.Nodup)
    (hps : ∀ p ∈ ps, s.IsLive p) :
    ∃ rs s', (calls (ps.map .free)).out s = some (rs, s') ∧
      Inv s' (freeAll (firstBlkp s.heap) bs ps) ∧ s'.heap.memStartBrk = s.heap.memStartBrk := by
  induction ps generalizing s bs with
  | nil => exact ⟨[], s, rfl, hI, rfl⟩
  | cons p ps ih =>
      obtain ⟨hp, hnd⟩ := List.nodup_cons.mp hnd
      have hlive := hps p List.mem_cons_self
      obtain ⟨l, n, -, -, -, hn, -⟩ := hI.isLive hlive
      have hfree : Rely (fun _ => True) Event.Ok (call (.free p)) s (Refines s bs (.free p)) :=
        call_free hI hlive
      obtain ⟨-, r, s₁, hout, hR⟩ := hfree (fun _ _ => trivial)
      have hI₁ : Inv s₁ (freeAt (p - firstBlkp s.heap) bs) := hR.inv
      have hbase : firstBlkp s₁.heap = firstBlkp s.heap := congrArg (· + 16) hR.keeps.start
      -- the blocks still to be freed stay live
      have hps₁ : ∀ q ∈ ps, s₁.IsLive q := by
        intro q hq
        obtain ⟨-, m, -, -, -, hm, -⟩ := hI.isLive (hps q (List.mem_cons_of_mem _ hq))
        have hne : q ≠ p := fun he => hp (he ▸ hq)
        have hkept := (mem_freeAt hI.rep.sizes.pos hn (q, ⟨m, true⟩)).mpr ⟨hm, hne⟩
        rw [hI₁.isLive_iff, hbase]
        exact ⟨⟨m, true⟩, mem_allocs.mp hkept⟩
      obtain ⟨rs, s', hrest, hI', hstart⟩ := ih hI₁ hnd hps₁
      refine ⟨r :: rs, s', ?_, ?_, hstart.trans hR.keeps.start⟩
      · rw [List.map_cons, (calls_cons _ hout).1, hrest]
        rfl
      · rw [hbase] at hI'
        exact hI'

/-- **Frees commute.** Freeing a set of live blocks in two orders gives the same break and the
same heap walk, and every sequence of calls after it returns the same. -/
theorem frees_commute {log : List Event} {s : Sys} (hrun : Run (allocator small) log s)
    (hnw : NoWrap log) {ps qs : List Nat} (hnd : ps.Nodup) (hps : ∀ p ∈ ps, s.IsLive p)
    (hperm : ps.Perm qs) :
    ∃ rs₁ rs₂ s₁ s₂, (calls (ps.map .free)).out s = some (rs₁, s₁) ∧
      (calls (qs.map .free)).out s = some (rs₂, s₂) ∧
      s₁.heap.memBrk = s₂.heap.memBrk ∧
      (∃ walk, heapWalk s₁.heap = some walk ∧ heapWalk s₂.heap = some walk) ∧
      ∀ cs, ValidFrom small s₁ cs → NoWrap ((calls cs).log s₁) → NoWrap ((calls cs).log s₂) →
        ValidFrom small s₂ cs ∧ ∃ rs t₁ t₂, (calls cs).out s₁ = some (rs, t₁) ∧
          (calls cs).out s₂ = some (rs, t₂) := by
  obtain ⟨⟨bs, hI⟩, -⟩ := run_inv (fun _ _ => small_sound) hrun hnw
  obtain ⟨rs₁, s₁, hout₁, hI₁, hstart₁⟩ := frees_spec hI hnd hps
  obtain ⟨rs₂, s₂, hout₂, hI₂, hstart₂⟩ := frees_spec hI (hperm.nodup_iff.mp hnd)
    (fun q hq => hps q (hperm.mem_iff.mpr hq))
  have hallocs : ∀ p ∈ ps, ∃ n, (p, ⟨n, true⟩) ∈ allocs (firstBlkp s.heap) bs := by
    intro p hp
    obtain ⟨-, n, -, -, -, hn, -⟩ := hI.isLive (hps p hp)
    exact ⟨n, hn⟩
  rw [← freeAll_perm hI.coalesced hI.rep.sizes.pos hnd hallocs hperm] at hI₂
  have hstart : s₂.heap.memStartBrk = s₁.heap.memStartBrk := hstart₂.trans hstart₁.symm
  have hbrk : s₁.heap.memBrk = s₂.heap.memBrk := by rw [hI₁.rep.brk, hI₂.rep.brk, hstart]
  have hwalk := hI₁.rep.heapWalk_eq hI₂.rep hstart
  exact ⟨rs₁, rs₂, s₁, s₂, hout₁, hout₂, hbrk,
    ⟨_, hI₁.rep.heapWalk, hwalk.trans hI₁.rep.heapWalk⟩,
    fun cs => Alike.calls ⟨hI₁, hI₂, hstart⟩⟩

/-- A client with three neighbouring blocks, the first one freed. -/
def neighbourCalls : List Call := [.malloc 24, .malloc 8, .malloc 40, .malloc 8, .free 0x1010]

theorem neighbours_isSome : (exec small sampleHeap neighbourCalls).isSome := by decide +kernel

def neighbours : List Event × Sys := (exec small sampleHeap neighbourCalls).get neighbours_isSome

/-- The other two are freed in both orders. -/
theorem frees_commute_sample : ∃ rs₁ rs₂ s₁ s₂,
    (calls ([0x1030, 0x1040].map .free)).out neighbours.2 = some (rs₁, s₁) ∧
      (calls ([0x1040, 0x1030].map .free)).out neighbours.2 = some (rs₂, s₂) ∧
      s₁.heap.memBrk = s₂.heap.memBrk ∧
      ∃ walk, heapWalk s₁.heap = some walk ∧ heapWalk s₂.heap = some walk := by
  have hrun : Run (allocator small) neighbours.1 neighbours.2 :=
    exec_run sampleHeap_fresh (Option.some_get neighbours_isSome).symm
  obtain ⟨rs₁, rs₂, s₁, s₂, h₁, h₂, hbrk, hwalk, -⟩ := frees_commute hrun (by decide +kernel)
    (by decide : [0x1030, 0x1040].Nodup) (by decide +kernel) (List.Perm.swap 0x1040 0x1030 [])
  exact ⟨rs₁, rs₂, s₁, s₂, h₁, h₂, hbrk, hwalk⟩

end MallocLab
