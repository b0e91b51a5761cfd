import MallocLab.Traces.ReadFile

set_option autoImplicit false

/-! # Balanced traces

What `checktrace.pl` prints for a trace that it accepts: the requests, and a free for each id
that is left. In the output every allocation is freed once, and the script finds nothing more
to add (`checktrace_balances`). Blank lines and the frees at the end change nothing of what
`read_trace` compares with the header.
-/

namespace MallocLab

open Past Text

/-! ## What is printed -/

/-- The requests that free the ids. -/
def freesOf (ids : List String) : List String := ids.map ("f " ++ ·)

/-- `read_trace` returns: its assertions hold. -/
def ReadsFile (file : List String) (r : Reader) : Prop :=
  ∃ t r', (readTraceFile file).out r = some (.ok t, r')

/-- `out` is the balanced version of the trace `h1 :: h2 :: h3 :: h4 :: lines`. -/
structure Balances (h1 h2 h3 h4 : String) (lines out : List String) : Prop where
  /-- The requests are kept, and what follows frees each id that is left, once. -/
  frees : ∃ ids : List String, ids.Nodup ∧ (∀ id, id ∈ ids ↔ Allocated lines id) ∧
    out = [h1, h2, toString (number h3 + ids.length), h4] ++ requests lines ++ freesOf ids
  numIds : out.getD 1 "" = h2
  numOps : number (out.getD 2 "") = (requests (out.drop 4)).length
  /-- The header of the output is one that `num_ops` can hold. -/
  reads : (∀ h ∈ [h1, h2, h3, h4], IsNumber h) → (∀ line ∈ lines, Numeric line) →
    number (out.getD 2 "") < 2 ^ 31 →
    ∀ r, ReadsFile (h1 :: h2 :: h3 :: h4 :: lines) r → ReadsFile out r
  freed : ∀ id pre line post, out.drop 4 = pre ++ line :: post → Requests "a" id line →
    (post.takeWhile (fun l => ¬Requests "a" id l)).countP (fun l => Requests "f" id l) = 1
  summary : checktrace true out = .ok ["Balanced trace."]
  again : checktrace false out = .ok out

/-! ## Blank lines -/

theorem misused_congr {done done' : List String} (h : ∀ id, Allocated done id ↔ Allocated done' id)
    (line : String) : Misused done line ↔ Misused done' line := by
  unfold Misused
  simp only [h]

/-- Without its blank lines a trace says the same. -/
theorem requests_same (lines : List String) :
    (Consistent (requests lines) ↔ Consistent lines) ∧
      ∀ id, Allocated (requests lines) id ↔ Allocated lines id := by
  induction lines using List.reverseRecOn with
  | nil => exact ⟨Iff.rfl, fun _ => Iff.rfl⟩
  | append_singleton lines line ih =>
      obtain ⟨hcons, halloc⟩ := ih
      rw [requests_append]
      by_cases hblank : Blank line
      · rw [requests_blank hblank, List.append_nil]
        have hlast : Consistent lines ↔ Consistent (lines ++ [line]) := by
          rw [consistent_concat]
          exact ⟨fun h => ⟨h, not_misused_of_blank hblank⟩, fun h => h.1⟩
        exact ⟨hcons.trans hlast, fun id => (halloc id).trans (allocated_blank hblank id).symm⟩
      · rw [requests_of_not_blank hblank]
        refine ⟨?_, fun id => ?_⟩
        · rw [consistent_concat, consistent_concat, misused_congr halloc]
          exact and_congr_left' hcons
        · rw [Allocated, Allocated, since_concat, since_concat]
          exact or_congr_right (and_congr_left' (halloc id))

/-! ## The frees at the end -/

theorem isWord_of_allocated {lines : List String} {id : String} (h : Allocated lines id) :
    IsWord id := by
  obtain ⟨line, -, hline⟩ := Since.exists_mem h
  refine isWord_of_mem (s := line) (List.mem_of_mem_take (i := 2) ?_)
  rw [hline]
  simp

/-- **Freeing what is left.** The trace stays consistent, and the ids are no longer allocated. -/
theorem append_frees {ids : List String} {done : List String} (hdone : Consistent done)
    (hnodup : ids.Nodup) (hids : ∀ id ∈ ids, Allocated done id) :
    Consistent (done ++ freesOf ids) ∧
      ∀ id, Allocated (done ++ freesOf ids) id ↔ Allocated done id ∧ id ∉ ids := by
  induction ids generalizing done with
  | nil =>
      refine ⟨?_, fun id => ?_⟩
      · rw [freesOf, List.map_nil, List.append_nil]
        exact hdone
      · rw [freesOf, List.map_nil, List.append_nil]
        simp
  | cons i ids ih =>
      obtain ⟨hi, hrest⟩ := List.nodup_cons.mp hnodup
      have halloc : Allocated done i := hids i List.mem_cons_self
      have hw : words ("f " ++ i) = "f" :: i :: [] := words_free (isWord_of_allocated halloc)
      have happend : done ++ freesOf (i :: ids) = done ++ ["f " ++ i] ++ freesOf ids := by
        simp [freesOf]
      -- one free takes one id away and fits, as the id is allocated
      have hfree : ∀ id, Allocated (done ++ ["f " ++ i]) id ↔ Allocated done id ∧ id ≠ i := by
        intro id
        rw [allocated_concat hw]
        simp
      have hnext : Consistent (done ++ ["f " ++ i]) := by
        refine consistent_concat.mpr ⟨hdone, ?_⟩
        rw [misused_iff hw]
        simpa using halloc
      have hleft : ∀ id ∈ ids, Allocated (done ++ ["f " ++ i]) id := by
        intro id hid
        refine (hfree id).mpr ⟨hids id (List.mem_cons_of_mem _ hid), ?_⟩
        exact fun heq => hi (heq ▸ hid)
      obtain ⟨hcons, hallocs⟩ := ih hnext hrest hleft
      rw [happend]
      refine ⟨hcons, fun id => ?_⟩
      rw [hallocs, hfree, List.mem_cons, not_or, and_assoc]

theorem requests_freesOf {ids : List String} (hids : ∀ id ∈ ids, IsWord id) :
    requests (freesOf ids) = freesOf ids := by
  refine List.filter_eq_self.mpr (fun line hline => ?_)
  obtain ⟨id, hid, rfl⟩ := List.mem_map.mp hline
  simpa using not_blank (words_free (hids id hid))

theorem requests_requests (lines : List String) : requests (requests lines) = requests lines :=
  List.filter_eq_self.mpr fun _ hline => (List.mem_filter.mp hline).2

theorem requests_append_frees (lines : List String) {ids : List String}
    (hids : ∀ id ∈ ids, IsWord id) :
    requests (requests lines ++ freesOf ids) = requests lines ++ freesOf ids := by
  rw [requests_append, requests_requests, requests_freesOf hids]

/-! ## `read_trace` -/

theorem numeric_free {lines : List String} {id : String}
    (hlines : ∀ line ∈ lines, IsRequest line ∨ Blank line) (hnum : ∀ line ∈ lines, Numeric line)
    (hid : Allocated lines id) : Numeric ("f " ++ id) := by
  obtain ⟨line, hline, ha⟩ := Since.exists_mem hid
  have hmem : id ∈ (words line).tail := by
    rcases hlines line hline with ⟨i, size, hw | hw | hw⟩ | hblank
    · obtain ⟨-, rfl⟩ := (requests_iff hw _ _).mp ha
      rw [hw]
      exact List.mem_cons_self
    · exact absurd ((requests_iff hw _ _).mp ha).1 (by decide)
    · exact absurd ((requests_iff hw _ _).mp ha).1 (by decide)
    · exact absurd ha (not_requests_of_blank hblank _ _)
  intro w hw
  rw [words_free (isWord_of_allocated hid), List.tail_cons, List.mem_singleton] at hw
  rw [hw]
  exact hnum line hline id hmem

theorem isRequest_free {id : String} (hid : IsWord id) : IsRequest ("f " ++ id) :=
  ⟨id, "", Or.inr (Or.inr (words_free hid))⟩

theorem read_free_type {id : String} (hid : IsWord id) :
    (TraceLine.read ("f " ++ id)).type = 'f' := by
  have hf : "f".front = 'f' := by decide
  rw [read_eq (words_free hid)]
  exact hf

/-- The frees as `read_trace` reads them. -/
theorem freesOf_ok {lines ids : List String}
    (hlines : ∀ line ∈ lines, IsRequest line ∨ Blank line) (hnum : ∀ line ∈ lines, Numeric line)
    (hids : ∀ id ∈ ids, Allocated lines id) :
    ∀ line ∈ freesOf ids, IsRequest line ∧ Numeric line ∧ (TraceLine.read line).type = 'f' := by
  intro line hline
  obtain ⟨id, hid, rfl⟩ := List.mem_map.mp hline
  have hword := isWord_of_allocated (hids id hid)
  exact ⟨isRequest_free hword, numeric_free hlines hnum (hids id hid), read_free_type hword⟩

/-- Frees at the end change nothing of the largest id. -/
theorem maxId_append_frees (lines : List TraceLine) {frees : List TraceLine}
    (hfrees : ∀ l ∈ frees, l.type = 'f') : maxId (lines ++ frees) = maxId lines := by
  have hnone : frees.filter (·.type ≠ 'f') = [] := by
    refine List.filter_eq_nil_iff.mpr (fun l hl => ?_)
    simpa using hfrees l hl
  rw [maxId, List.filter_append, hnone, List.append_nil, maxId]

/-- **`read_trace` takes the longer file.** With frees at the end and their number in the
header. -/
theorem readsFile_append {h1 h2 h3 h4 n : String} {lines ids : List String}
    (hheader : ∀ h ∈ [h1, h2, h3, h4], IsNumber h)
    (hlines : ∀ line ∈ lines, IsRequest line ∨ Blank line) (hnum : ∀ line ∈ lines, Numeric line)
    (hids : ∀ id ∈ ids, Allocated lines id) (hn : IsNumber n)
    (hcount : number n = (requests (requests lines ++ freesOf ids)).length)
    (hlt : number n < 2 ^ 31) {r : Reader}
    (hread : ReadsFile (h1 :: h2 :: h3 :: h4 :: lines) r) :
    ReadsFile (h1 :: h2 :: n :: h4 :: (requests lines ++ freesOf ids)) r := by
  have hall := requests_append_frees lines fun id hid => isWord_of_allocated (hids id hid)
  have hfrees := freesOf_ok hlines hnum hids
  simp only [List.forall_mem_cons] at hheader
  obtain ⟨hn1, hn2, hn3, hn4, -⟩ := hheader
  -- both files are in the format
  have hold : InFormat (h1 :: h2 :: h3 :: h4 :: lines) := inFormat_of (by simp [*]) hlines hnum
  have hnew : InFormat (h1 :: h2 :: n :: h4 :: (requests lines ++ freesOf ids)) := by
    refine inFormat_of (by simp [*]) (fun line hline => ?_) (fun line hline => ?_)
    · rcases List.mem_append.mp hline with hline | hline
      · exact Or.inl (hold.kept line hline).1
      · exact Or.inl (hfrees line hline).1
    · rcases List.mem_append.mp hline with hline | hline
      · exact (hold.kept line hline).2
      · exact (hfrees line hline).2.1
  have hnumNew : ((requests (requests lines ++ freesOf ids)).map TraceLine.read).length
      = number n := by
    rw [List.length_map, hcount]
  have hnumOld : ((requests lines).map TraceLine.read).length ≤ number n := by
    rw [hcount, hall, List.length_map, List.length_append]
    exact Nat.le_add_right _ _
  -- and the assertions compare the same in them
  rw [ReadsFile, readTraceFile_eq hold] at hread
  obtain ⟨hmax, -⟩ :=
    (readTrace_returns_iff _ _ hold.lines_ok (lt_of_le_of_lt hnumOld (by omega)) r).mp hread
  rw [ReadsFile, readTraceFile_eq hnew]
  refine (readTrace_returns_iff _ _ hnew.lines_ok (lt_of_eq_of_lt hnumNew (by omega)) r).mpr
    ⟨?_, hnumNew.trans (headerValue_eq hlt).symm⟩
  show maxId ((requests (requests lines ++ freesOf ids)).map TraceLine.read) = _
  rw [hall, List.map_append, maxId_append_frees]
  · exact hmax
  · intro l hl
    obtain ⟨line, hline, rfl⟩ := List.mem_map.mp hl
    exact (hfrees line hline).2.2

/-! ## The balanced output -/

/-- In a trace that leaves nothing allocated, an allocation is freed exactly once before the
next allocation of its id. -/
theorem freed_once {out : List String} (hcons : Consistent out)
    (hend : ∀ id, ¬Allocated out id) {id line : String} {pre post : List String}
    (hout : out = pre ++ line :: post) (hline : Requests "a" id line) :
    (post.takeWhile (fun l => ¬Requests "a" id l)).countP (fun l => Requests "f" id l) = 1 := by
  refine closed_once (P := Requests "a" id) (Q := Requests "f" id) ?_ ?_ (hend id) hout hline
  · exact hcons.mono fun past l hfit ha hopen => hfit ⟨id, Or.inr (Or.inl ⟨ha, hopen⟩)⟩
  · refine hcons.mono fun past l hfit hf => ?_
    by_contra hclosed
    exact hfit ⟨id, Or.inr (Or.inr ⟨hf, hclosed⟩)⟩

/-- **The balanced version.** For every trace that the script accepts, with blank lines or
without. -/
theorem checktrace_balances {h1 h2 h3 h4 : String} {lines out : List String}
    (hlines : ∀ line ∈ lines, IsRequest line ∨ Blank line)
    (hops : number h3 = (requests lines).length)
    (hout : checktrace false (h1 :: h2 :: h3 :: h4 :: lines) = .ok out) :
    Balances h1 h2 h3 h4 lines out := by
  have hcons : Consistent lines := by
    by_contra hnot
    obtain ⟨e, he⟩ := (checktrace_error_iff false h1 h2 h3 h4 hlines).mpr hnot
    rw [hout] at he
    cases he
  obtain ⟨ids, hnodup, hids, -, hfalse⟩ := checktrace_ok h1 h2 h3 h4 hlines hcons
  have halloc : ∀ id ∈ ids, Allocated lines id := fun id hid => (hids id).mp hid
  have hword : ∀ id ∈ ids, IsWord id := fun id hid => isWord_of_allocated (halloc id hid)
  generalize hn : toString (number h3 + ids.length) = n at hfalse
  rw [hfalse] at hout
  obtain rfl := Except.ok.inj hout
  -- the requests of the output, and what is left after them
  have hall := requests_append_frees lines hword
  have hcount : number n = (requests (requests lines ++ freesOf ids)).length :=
    calc number n
      _ = number h3 + ids.length := by rw [← hn, number_toString]
      _ = (requests lines).length + (freesOf ids).length := by
        rw [hops, freesOf, List.length_map]
      _ = (requests (requests lines ++ freesOf ids)).length := by rw [hall, List.length_append]
  obtain ⟨hsame, hallocs⟩ := requests_same lines
  obtain ⟨hcons', hend⟩ := append_frees (hsame.mpr hcons) hnodup
    (fun id hid => (hallocs id).mpr (halloc id hid))
  have hnone : ∀ id, ¬Allocated (requests lines ++ freesOf ids) id := by
    intro id h
    obtain ⟨hold, hleft⟩ := (hend id).mp h
    exact hleft ((hids id).mpr ((hallocs id).mp hold))
  have hlines' : ∀ line ∈ requests lines ++ freesOf ids, IsRequest line ∨ Blank line := by
    intro line hline
    rcases List.mem_append.mp hline with hline | hline
    · exact hlines line (List.mem_filter.mp hline).1
    · obtain ⟨id, hid, rfl⟩ := List.mem_map.mp hline
      exact Or.inl (isRequest_free (hword id hid))
  obtain ⟨ids', -, hids', htrue', hfalse'⟩ := checktrace_ok h1 h2 n h4 hlines' hcons'
  obtain rfl : ids' = [] :=
    List.eq_nil_iff_forall_not_mem.mpr fun id hid => hnone id ((hids' id).mp hid)
  refine ⟨⟨ids, hnodup, hids, by rw [hn]; rfl⟩, rfl, hcount, ?_, ?_, htrue', ?_⟩
  · intro hheader hnum hlt r hread
    have hnumber : IsNumber n := by
      rw [← hn]
      exact isNumber_toString _
    exact readsFile_append hheader hlines hnum halloc hnumber hcount hlt hread
  · intro id pre line post hsplit hline
    exact freed_once hcons' hnone hsplit hline
  · have hheader : toString (number n + ([] : List String).length) = n := by
      rw [← hn, number_toString]
      rfl
    rw [hheader, hall] at hfalse'
    calc checktrace false (h1 :: h2 :: n :: h4 :: (requests lines ++ freesOf ids))
        = .ok ([h1, h2, n, h4] ++ (requests lines ++ freesOf ids) ++ [].map ("f " ++ ·)) := hfalse'
      _ = .ok ([h1, h2, n, h4] ++ requests lines ++ freesOf ids) := by simp

/-- A trace with a blank line, a `realloc` and a reused id; one id is left. -/
theorem checktrace_balances_sample :
    Balances "20000" "2" "5" "1" ["a 0 512", "a 1 128", "", "f 0", "r 1 640", "a 0 8"]
      ["20000", "2", "7", "1", "a 0 512", "a 1 128", "f 0", "r 1 640", "a 0 8", "f 0", "f 1"] := by
  refine checktrace_balances (fun line hline => ?_) (by decide) rfl
  simp only [List.mem_cons, List.not_mem_nil, or_false] at hline
  rcases hline with rfl | rfl | rfl | rfl | rfl | rfl
  · exact Or.inl ⟨"0", "512", Or.inl (by decide)⟩
  · exact Or.inl ⟨"1", "128", Or.inl (by decide)⟩
  · exact Or.inr (by decide)
  · exact Or.inl ⟨"0", "", Or.inr (Or.inr (by decide))⟩
  · exact Or.inl ⟨"1", "640", Or.inr (Or.inl (by decide))⟩
  · exact Or.inl ⟨"0", "8", Or.inl (by decide)⟩

end MallocLab
