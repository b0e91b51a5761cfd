import MallocLab.Lib.Past
import MallocLab.Lib.Text
import Mathlib.Data.List.Sort
import Mathlib.Data.List.AList

set_option autoImplicit false

/-! # The consistency checker (`checktrace.pl`)

The script reads a trace and keeps the ids that are allocated in a hash; it dies at the first
request that does not fit, and else prints the trace with the frees that are missing. A free
deletes the entry of its id, so that no entry ever holds "f" and the check for reused ids
never fires: the script stops exactly at the other three kinds of mistakes
(`checktrace_error_iff`), and that is what it should do exactly when no id is reused or it
stops anyway (`checktrace_right_iff`).
-/

namespace MallocLab

open Past Text

/-! ## The script -/

/-- `%HASH` -/
abbrev Hash : Type := AList (fun _ : String => String)

/-- `$HASH{$id}`, which is the empty string when there is no entry. -/
def Hash.value (hash : Hash) (id : String) : String := (hash.lookup id).getD ""

/-- A string as a condition. -/
def truthy (v : String) : Bool := v ≠ "" && v ≠ "0"

/-- `!$v` -/
def perlNot (v : String) : String := if truthy v then "" else "1"

/-- Why the script dies. -/
inductive CheckError where
  | noAlloc (linenum : Nat)
  | noFree (linenum : Nat)
  | reused (linenum : Nat) (id : String)
  | unallocated (linenum : Nat)
  | alreadyFreed (linenum : Nat)
  | residue
  deriving DecidableEq, Repr

/-- The variables of the main loop: `%HASH`, the lines saved for output, and `$linenum`. -/
structure Script where
  hash : Hash
  lines : List String
  linenum : Nat

/-- The checks of a request, and the update of the hash. -/
def Script.request (s : Script) (cmd id : String) : Except CheckError Script :=
  if cmd = "r" then
    if !truthy (s.hash.value id) then .error (.noAlloc s.linenum) else .ok s
  else if cmd = "a" ∧ s.hash.value id = "a" then
    .error (.noFree s.linenum)
  else if cmd = "a" ∧ s.hash.value id = "f" then
    .error (.reused s.linenum id)
  else if cmd = "f" ∧ id ∉ s.hash then
    .error (.unallocated s.linenum)
  else if cmd = "f" ∧ perlNot (s.hash.value id) = "f" then
    .error (.alreadyFreed s.linenum)
  else if cmd = "f" then
    .ok { s with hash := s.hash.erase id }
  else
    .ok { s with hash := s.hash.insert id cmd }

/-- The body of the main loop; a blank line is not saved. -/
def Script.line (s : Script) (line : String) : Except CheckError Script :=
  let s := { s with linenum := s.linenum + 1 }
  let cmd := (words line).getD 0 ""
  let id := (words line).getD 1 ""
  if !truthy cmd then .ok s
  else { s with lines := s.lines ++ [line] }.request cmd id

/-- The main loop. -/
def Script.scan (s : Script) : List String → Except CheckError Script
  | [] => .ok s
  | line :: rest =>
      match s.line line with
      | .error e => .error e
      | .ok s => s.scan rest

/-- The free requests for the ids that are left. -/
def residue (hash : Hash) : List String → Except CheckError (List String)
  | [] => .ok []
  | key :: keys =>
      if hash.value key ≠ "a" ∧ hash.value key ≠ "r" then .error .residue
      else
        match residue hash keys with
        | .error e => .error e
        | .ok frees => .ok (("f " ++ key) :: frees)

/-- The script, with or without `-s`: the lines that it prints, given those that it reads. The
third line of the header is a whole number. -/
def checktrace (summary : Bool) (stdin : List String) : Except CheckError (List String) :=
  let heapSize := stdin.getD 0 ""
  let numBlocks := stdin.getD 1 ""
  let oldNumOps := stdin.getD 2 ""
  let weight := stdin.getD 3 ""
  match (⟨∅, [], 4⟩ : Script).scan (stdin.drop 4) with
  | .error e => .error e
  | .ok s =>
      if summary then
        .ok [if s.hash.keys.isEmpty then "Balanced trace." else "Unbalanced tree."]
      else
        let newNumOps := number oldNumOps + s.hash.keys.length
        match residue s.hash (s.hash.keys.insertionSort (· ≤ ·)) with
        | .error e => .error e
        | .ok frees =>
            .ok ([heapSize, numBlocks, toString newNumOps, weight] ++ s.lines ++ frees)

/-! ## Consistent traces -/

/-- The line requests `cmd` for the id. -/
def Requests (cmd id line : String) : Prop := (words line).take 2 = [cmd, id]

instance (cmd id line : String) : Decidable (Requests cmd id line) :=
  inferInstanceAs (Decidable (_ = _))

def Blank (line : String) : Prop := words line = []

instance (line : String) : Decidable (Blank line) := inferInstanceAs (Decidable (_ = _))

/-- The requests of a trace are its lines that are not blank. -/
def requests (lines : List String) : List String := lines.filter (fun line => ¬Blank line)

/-- A line `a id size`, `r id size` or `f id`. -/
def IsRequest (line : String) : Prop :=
  ∃ id size, words line = ["a", id, size] ∨ words line = ["r", id, size] ∨ words line = ["f", id]

/-- The id is allocated after the requests `lines`. -/
def Allocated (lines : List String) (id : String) : Prop :=
  Since (Requests "a" id) (Requests "f" id) lines

/-- The id was allocated and freed in the requests `lines`. -/
def AllocatedAndFreed (lines : List String) (id : String) : Prop :=
  ∃ L x M y R, lines = L ++ x :: M ++ y :: R ∧ Requests "a" id x ∧ Requests "f" id y

/-- After the requests `pre` the line reallocates or frees an id that is not allocated, or
allocates one that is. -/
def Misused (pre : List String) (line : String) : Prop :=
  ∃ id, (Requests "r" id line ∧ ¬Allocated pre id) ∨ (Requests "a" id line ∧ Allocated pre id) ∨
    (Requests "f" id line ∧ ¬Allocated pre id)

/-- After the requests `pre` the line allocates an id that was allocated and freed before. -/
def Reuses (pre : List String) (line : String) : Prop :=
  ∃ id, Requests "a" id line ∧ AllocatedAndFreed pre id

def Consistent (lines : List String) : Prop := AtEach (fun pre line => ¬Misused pre line) lines

/-- No line reuses an id. -/
def Unique (lines : List String) : Prop := AtEach (fun pre line => ¬Reuses pre line) lines

theorem isWord_a : IsWord "a" := isWord_letter (c := 'a') (by simp) rfl

theorem isWord_f : IsWord "f" := isWord_letter (c := 'f') (by simp) rfl

/-- The words of a free request. -/
theorem words_free {id : String} (hid : IsWord id) : words ("f " ++ id) = ["f", id] := by
  calc words ("f" ++ " " ++ id)
      = "f" :: words id := words_cons isWord_f id
    _ = ["f", id] := by rw [words_word hid]

theorem consistent_concat {done : List String} {line : String} :
    Consistent (done ++ [line]) ↔ Consistent done ∧ ¬Misused done line := atEach_concat

/-! ## The loop -/

/-- The hash holds the allocated ids, each with "a", and the requests are saved. -/
structure Tallies (s : Script) (done : List String) : Prop where
  allocated : ∀ id, id ∈ s.hash ↔ Allocated done id
  values : ∀ id ∈ s.hash, s.hash.value id = "a"
  saved : s.lines = requests done

theorem tallies_nil (linenum : Nat) : Tallies ⟨∅, [], linenum⟩ [] := by
  refine ⟨fun id => ?_, fun id hid => ?_, rfl⟩
  · rw [Allocated]
    simp only [not_since_nil, iff_false]
    exact AList.notMem_empty id
  · exact absurd hid (AList.notMem_empty id)

theorem value_of_not_mem {hash : Hash} {id : String} (h : id ∉ hash) : hash.value id = "" := by
  rw [Hash.value, AList.lookup_eq_none.mpr h, Option.getD_none]

/-- Of an entry "a" or none, the string tells which. -/
theorem Tallies.truthy_iff {s : Script} {done : List String} (hT : Tallies s done) (id : String) :
    truthy (s.hash.value id) = true ↔ Allocated done id := by
  rw [← hT.allocated id]
  by_cases hid : id ∈ s.hash
  · rw [hT.values id hid]
    exact ⟨fun _ => hid, fun _ => rfl⟩
  · rw [value_of_not_mem hid]
    exact ⟨fun h => (nomatch h), fun h => absurd h hid⟩

theorem Tallies.value_iff {s : Script} {done : List String} (hT : Tallies s done) (id : String) :
    s.hash.value id = "a" ↔ Allocated done id := by
  rw [← hT.allocated id]
  refine ⟨fun h => ?_, hT.values id⟩
  by_contra hid
  rw [value_of_not_mem hid] at h
  exact absurd h (by decide)

theorem requests_iff {line cmd id : String} {rest : List String}
    (hw : words line = cmd :: id :: rest) (c i : String) :
    Requests c i line ↔ c = cmd ∧ i = id := by
  unfold Requests
  rw [hw]
  show [cmd, id] = [c, i] ↔ _
  rw [List.cons.injEq, List.cons.injEq]
  constructor
  · rintro ⟨rfl, rfl, -⟩
    exact ⟨rfl, rfl⟩
  · rintro ⟨rfl, rfl⟩
    exact ⟨rfl, rfl, rfl⟩

/-- What a line says about the ids that are allocated. -/
theorem allocated_concat {done : List String} {line cmd id : String} {rest : List String}
    (hw : words line = cmd :: id :: rest) (i : String) :
    Allocated (done ++ [line]) i
      ↔ ("a" = cmd ∧ i = id) ∨ Allocated done i ∧ ¬("f" = cmd ∧ i = id) := by
  rw [Allocated, since_concat, requests_iff hw, requests_iff hw]
  rfl

@[simp] theorem requests_append (l m : List String) :
    requests (l ++ m) = requests l ++ requests m := List.filter_append l m

theorem requests_blank {line : String} (hblank : Blank line) : requests [line] = [] :=
  List.filter_cons_of_neg (by simpa using hblank)

theorem not_blank {line cmd id : String} {rest : List String}
    (hw : words line = cmd :: id :: rest) : ¬Blank line := by
  rw [Blank, hw]
  exact List.cons_ne_nil _ _

theorem requests_of_not_blank {line : String} (h : ¬Blank line) : requests [line] = [line] :=
  List.filter_cons_of_pos (by simpa using h)

theorem Tallies.concat {s : Script} {done : List String} {line cmd id : String}
    {rest : List String} {hash : Hash} (n : Nat) (hT : Tallies s done)
    (hw : words line = cmd :: id :: rest)
    (hhash : ∀ i, i ∈ hash ↔ ("a" = cmd ∧ i = id) ∨ i ∈ s.hash ∧ ¬("f" = cmd ∧ i = id))
    (hvalues : ∀ i ∈ hash, hash.value i = "a") :
    Tallies ⟨hash, s.lines ++ [line], n⟩ (done ++ [line]) := by
  refine ⟨fun i => ?_, hvalues, ?_⟩
  · rw [allocated_concat hw, ← hT.allocated i]
    exact hhash i
  · rw [requests_append, ← hT.saved, requests_of_not_blank (not_blank hw)]

/-- The request `r`: nothing changes. -/
theorem Tallies.realloc {s : Script} {done : List String} {line id : String} {rest : List String}
    (n : Nat) (hT : Tallies s done) (hw : words line = "r" :: id :: rest) :
    (Allocated done id ∧ Script.request ⟨s.hash, s.lines ++ [line], n⟩ "r" id
        = .ok ⟨s.hash, s.lines ++ [line], n⟩ ∧
      Tallies ⟨s.hash, s.lines ++ [line], n⟩ (done ++ [line])) ∨
    (¬Allocated done id ∧ Script.request ⟨s.hash, s.lines ++ [line], n⟩ "r" id
      = .error (.noAlloc n)) := by
  rw [Script.request, if_pos rfl]
  by_cases hid : Allocated done id
  · left
    have htrue : truthy (s.hash.value id) = true := (hT.truthy_iff id).mpr hid
    refine ⟨hid, ?_, hT.concat n hw (fun i => ?_) hT.values⟩
    · rw [if_neg (by rw [htrue]; decide)]
    · simp
  · right
    have hfalse : ¬truthy (s.hash.value id) = true := fun h => hid ((hT.truthy_iff id).mp h)
    refine ⟨hid, ?_⟩
    rw [if_pos (by simpa using hfalse)]

/-- The request `a`: the check for a reused id does not fire. -/
theorem Tallies.alloc {s : Script} {done : List String} {line id : String} {rest : List String}
    (n : Nat) (hT : Tallies s done) (hw : words line = "a" :: id :: rest) :
    (¬Allocated done id ∧ Script.request ⟨s.hash, s.lines ++ [line], n⟩ "a" id
        = .ok ⟨s.hash.insert id "a", s.lines ++ [line], n⟩ ∧
      Tallies ⟨s.hash.insert id "a", s.lines ++ [line], n⟩ (done ++ [line])) ∨
    (Allocated done id ∧ Script.request ⟨s.hash, s.lines ++ [line], n⟩ "a" id
      = .error (.noFree n)) := by
  rw [Script.request, if_neg (by decide)]
  by_cases hid : Allocated done id
  · right
    exact ⟨hid, if_pos ⟨rfl, (hT.value_iff id).mpr hid⟩⟩
  · -- there is no entry, so neither "a" nor "f" is read
    left
    have hmem : id ∉ s.hash := fun h => hid ((hT.allocated id).mp h)
    have hempty : s.hash.value id = "" := value_of_not_mem hmem
    refine ⟨hid, ?_, hT.concat n hw (fun i => ?_) (fun i hi => ?_)⟩
    · rw [hempty, if_neg (by decide), if_neg (by decide), if_neg (by simp), if_neg (by simp),
        if_neg (by decide)]
    · rw [AList.mem_insert]
      simp
    · by_cases hii : i = id
      · rw [hii, Hash.value, AList.lookup_insert, Option.getD_some]
      · have hold : i ∈ s.hash := (AList.mem_insert s.hash).mp hi |>.resolve_left hii
        rw [Hash.value, AList.lookup_insert_ne hii]
        exact hT.values i hold

/-- The request `f`: the entry is deleted, and the check for a freed id does not fire. -/
theorem Tallies.free {s : Script} {done : List String} {line id : String} {rest : List String}
    (n : Nat) (hT : Tallies s done) (hw : words line = "f" :: id :: rest) :
    (Allocated done id ∧ Script.request ⟨s.hash, s.lines ++ [line], n⟩ "f" id
        = .ok ⟨s.hash.erase id, s.lines ++ [line], n⟩ ∧
      Tallies ⟨s.hash.erase id, s.lines ++ [line], n⟩ (done ++ [line])) ∨
    (¬Allocated done id ∧ Script.request ⟨s.hash, s.lines ++ [line], n⟩ "f" id
      = .error (.unallocated n)) := by
  rw [Script.request, if_neg (by decide), if_neg (by simp), if_neg (by simp)]
  by_cases hid : Allocated done id
  · left
    have hmem : id ∈ s.hash := (hT.allocated id).mpr hid
    have hvalue : s.hash.value id = "a" := hT.values id hmem
    refine ⟨hid, ?_, hT.concat n hw (fun i => ?_) (fun i hi => ?_)⟩
    · rw [if_neg (by simpa using hmem), hvalue, if_neg (by decide), if_pos rfl]
    · rw [AList.mem_erase]
      simp [and_comm]
    · obtain ⟨hne, hold⟩ := AList.mem_erase.mp hi
      rw [Hash.value, AList.lookup_erase_ne hne]
      exact hT.values i hold
  · right
    have hmem : id ∉ s.hash := fun h => hid ((hT.allocated id).mp h)
    exact ⟨hid, if_pos ⟨rfl, hmem⟩⟩

theorem not_requests_of_blank {line : String} (hblank : Blank line) (cmd id : String) :
    ¬Requests cmd id line := by
  intro h
  rw [Requests, hblank] at h
  cases h

theorem not_misused_of_blank {done : List String} {line : String} (hblank : Blank line) :
    ¬Misused done line := by
  rintro ⟨id, ⟨h, -⟩ | ⟨h, -⟩ | ⟨h, -⟩⟩ <;> exact not_requests_of_blank hblank _ _ h

theorem allocated_blank {done : List String} {line : String} (hblank : Blank line) (id : String) :
    Allocated (done ++ [line]) id ↔ Allocated done id := by
  rw [Allocated, since_concat]
  simp only [not_requests_of_blank hblank, false_or, not_false_eq_true, and_true]
  rfl

/-- A blank line says nothing. -/
theorem Tallies.blank {s : Script} {done : List String} {line : String} (n : Nat)
    (hT : Tallies s done) (hblank : Blank line) :
    Tallies { s with linenum := n } (done ++ [line]) := by
  refine ⟨fun id => ?_, hT.values, ?_⟩
  · rw [allocated_blank hblank]
    exact hT.allocated id
  · rw [requests_append, ← hT.saved, requests_blank hblank, List.append_nil]

theorem misused_iff {done : List String} {line cmd id : String} {rest : List String}
    (hw : words line = cmd :: id :: rest) :
    Misused done line ↔ (cmd = "r" ∧ ¬Allocated done id) ∨ (cmd = "a" ∧ Allocated done id) ∨
      (cmd = "f" ∧ ¬Allocated done id) := by
  unfold Misused
  simp only [requests_iff hw]
  constructor
  · rintro ⟨i, ⟨⟨rfl, rfl⟩, h⟩ | ⟨⟨rfl, rfl⟩, h⟩ | ⟨⟨rfl, rfl⟩, h⟩⟩
    · exact Or.inl ⟨rfl, h⟩
    · exact Or.inr (Or.inl ⟨rfl, h⟩)
    · exact Or.inr (Or.inr ⟨rfl, h⟩)
  · rintro (⟨rfl, h⟩ | ⟨rfl, h⟩ | ⟨rfl, h⟩)
    · exact ⟨id, Or.inl ⟨⟨rfl, rfl⟩, h⟩⟩
    · exact ⟨id, Or.inr (Or.inl ⟨⟨rfl, rfl⟩, h⟩)⟩
    · exact ⟨id, Or.inr (Or.inr ⟨⟨rfl, rfl⟩, h⟩)⟩

/-- A request goes through the checks with its two first words. -/
theorem line_eq (s : Script) {line cmd id : String} {rest : List String}
    (hw : words line = cmd :: id :: rest) (hcmd : truthy cmd = true) :
    s.line line = Script.request ⟨s.hash, s.lines ++ [line], s.linenum + 1⟩ cmd id := by
  rw [Script.line, hw]
  exact if_neg (by rw [List.getD_cons_zero, hcmd]; decide)

/-- **One line.** It is let through when it fits, and the hash keeps track. -/
theorem Tallies.line {s : Script} {done : List String} {line : String} (hT : Tallies s done)
    (hline : IsRequest line ∨ Blank line) :
    (¬Misused done line ∧ ∃ s', s.line line = .ok s' ∧ Tallies s' (done ++ [line])) ∨
      (Misused done line ∧ ∃ e, s.line line = .error e) := by
  rcases hline with ⟨id, size, hw | hw | hw⟩ | hblank
  · rw [misused_iff hw, line_eq s hw (by decide)]
    rcases hT.alloc (s.linenum + 1) hw with ⟨hid, hok, hT'⟩ | ⟨hid, herr⟩
    · exact Or.inl ⟨by simpa using hid, _, hok, hT'⟩
    · exact Or.inr ⟨by simpa using hid, _, herr⟩
  · rw [misused_iff hw, line_eq s hw (by decide)]
    rcases hT.realloc (s.linenum + 1) hw with ⟨hid, hok, hT'⟩ | ⟨hid, herr⟩
    · exact Or.inl ⟨by simpa using hid, _, hok, hT'⟩
    · exact Or.inr ⟨by simpa using hid, _, herr⟩
  · rw [misused_iff hw, line_eq s hw (by decide)]
    rcases hT.free (s.linenum + 1) hw with ⟨hid, hok, hT'⟩ | ⟨hid, herr⟩
    · exact Or.inl ⟨by simpa using hid, _, hok, hT'⟩
    · exact Or.inr ⟨by simpa using hid, _, herr⟩
  · refine Or.inl ⟨not_misused_of_blank hblank, _, ?_, hT.blank (s.linenum + 1) hblank⟩
    rw [Script.line, hblank]
    rfl

/-- **The loop.** It ends when every line fits, and then the hash holds what is allocated. -/
theorem Tallies.scan {s : Script} {done lines : List String} (hT : Tallies s done)
    (hdone : Consistent done) (hlines : ∀ line ∈ lines, IsRequest line ∨ Blank line) :
    (Consistent (done ++ lines) ∧ ∃ s', s.scan lines = .ok s' ∧ Tallies s' (done ++ lines)) ∨
      (¬Consistent (done ++ lines) ∧ ∃ e, s.scan lines = .error e) := by
  induction lines generalizing s done with
  | nil =>
      rw [List.append_nil]
      exact Or.inl ⟨hdone, s, rfl, hT⟩
  | cons line rest ih =>
      have happend : done ++ line :: rest = done ++ [line] ++ rest := by simp
      rw [Script.scan]
      -- the first line that does not fit ends the loop, whatever follows
      rcases hT.line (hlines line List.mem_cons_self) with ⟨hfit, s₁, hok, hT₁⟩ | ⟨hmis, e, herr⟩
      · rw [hok, happend]
        have hdone' : Consistent (done ++ [line]) := consistent_concat.mpr ⟨hdone, hfit⟩
        exact ih hT₁ hdone' (fun l hl => hlines l (List.mem_cons_of_mem _ hl))
      · rw [herr]
        exact Or.inr ⟨fun hcons => hcons done line rest rfl hmis, e, rfl⟩

theorem residue_eq {hash : Hash} {keys : List String}
    (hvalues : ∀ key ∈ keys, hash.value key = "a") :
    residue hash keys = .ok (keys.map ("f " ++ ·)) := by
  induction keys with
  | nil => rfl
  | cons key keys ih =>
      rw [residue, hvalues key List.mem_cons_self, if_neg (by simp),
        ih (fun k hk => hvalues k (List.mem_cons_of_mem _ hk))]
      rfl

/-! ## The script -/

/-- What the script prints for a consistent trace, with the ids that are left in order. -/
theorem checktrace_ok (h1 h2 h3 h4 : String) {lines : List String}
    (hlines : ∀ line ∈ lines, IsRequest line ∨ Blank line) (hcons : Consistent lines) :
    ∃ ids : List String, ids.Nodup ∧ (∀ id, id ∈ ids ↔ Allocated lines id) ∧
      checktrace true (h1 :: h2 :: h3 :: h4 :: lines)
        = .ok [if ids.isEmpty then "Balanced trace." else "Unbalanced tree."] ∧
      checktrace false (h1 :: h2 :: h3 :: h4 :: lines)
        = .ok ([h1, h2, toString (number h3 + ids.length), h4]
            ++ requests lines ++ ids.map ("f " ++ ·)) := by
  rcases (tallies_nil 4).scan atEach_nil hlines with ⟨-, s, hok, hT⟩ | ⟨hnot, -⟩
  swap
  · exact absurd hcons hnot
  have hperm := List.perm_insertionSort (· ≤ ·) s.hash.keys
  refine ⟨s.hash.keys.insertionSort (· ≤ ·), ?_, fun id => ?_, ?_, ?_⟩
  · exact hperm.nodup_iff.mpr s.hash.keys_nodup
  · rw [hperm.mem_iff, ← AList.mem_keys]
    exact hT.allocated id
  · rw [checktrace]
    show (match Script.scan _ lines with | .error e => _ | .ok s => _) = _
    rw [hok]
    show Except.ok [if s.hash.keys.isEmpty then _ else _] = _
    simp only [hperm.isEmpty_eq]
  · -- every entry is "a", so the residue is never refused
    have hvalues : ∀ key ∈ s.hash.keys.insertionSort (· ≤ ·),
        s.hash.value key = "a" :=
      fun key hkey => hT.values key (AList.mem_keys.mpr (hperm.mem_iff.mp hkey))
    rw [checktrace]
    show (match Script.scan _ lines with | .error e => _ | .ok s => _) = _
    rw [hok]
    show (match residue _ _ with | .error e => _ | .ok frees => _) = _
    have hsaved : s.lines = requests lines := hT.saved
    rw [residue_eq hvalues, hperm.length_eq, ← hsaved]
    rfl

/-- **What stops the script.** It stops exactly when a request does not fit, with or without
`-s`. -/
theorem checktrace_error_iff (summary : Bool) (h1 h2 h3 h4 : String) {lines : List String}
    (hlines : ∀ line ∈ lines, IsRequest line ∨ Blank line) :
    (∃ e, checktrace summary (h1 :: h2 :: h3 :: h4 :: lines) = .error e) ↔ ¬Consistent lines := by
  constructor
  · rintro ⟨e, he⟩ hcons
    obtain ⟨ids, -, -, htrue, hfalse⟩ := checktrace_ok h1 h2 h3 h4 hlines hcons
    cases summary
    · rw [hfalse] at he
      cases he
    · rw [htrue] at he
      cases he
  · intro hnot
    rcases (tallies_nil 4).scan atEach_nil hlines with ⟨hcons, -⟩ | ⟨-, e, herr⟩
    · exact absurd hcons hnot
    · refine ⟨e, ?_⟩
      rw [checktrace]
      show (match Script.scan _ lines with | .error e => _ | .ok s => _) = _
      rw [herr]

/-- **When the script is right.** What it should stop at is the same, and an id that is used
again after a free. -/
theorem checktrace_right_iff (summary : Bool) (h1 h2 h3 h4 : String) {lines : List String}
    (hlines : ∀ line ∈ lines, IsRequest line) :
    ((∃ e, checktrace summary (h1 :: h2 :: h3 :: h4 :: lines) = .error e) ↔
        ¬Consistent lines ∨ ¬Unique lines)
      ↔ Unique lines ∨ ¬Consistent lines := by
  rw [checktrace_error_iff summary h1 h2 h3 h4 (fun line hl => Or.inl (hlines line hl))]
  tauto

/-- A trace without reused ids. -/
theorem checktrace_right_iff_sample :
    ((∃ e, checktrace false ["20000", "1", "2", "1", "a 0 8", "f 0"] = .error e) ↔
        ¬Consistent ["a 0 8", "f 0"] ∨ ¬Unique ["a 0 8", "f 0"])
      ↔ Unique ["a 0 8", "f 0"] ∨ ¬Consistent ["a 0 8", "f 0"] := by
  refine checktrace_right_iff false "20000" "1" "2" "1" (fun line hl => ?_)
  simp only [List.mem_cons, List.not_mem_nil, or_false] at hl
  rcases hl with rfl | rfl
  · exact ⟨"0", "8", Or.inl (by decide)⟩
  · exact ⟨"0", "", Or.inr (Or.inr (by decide))⟩

/-- The reused id 0 does not stop the script. -/
theorem checktrace_reused :
    ¬((∃ e, checktrace false ["20000", "1", "3", "1", "a 0 8", "f 0", "a 0 8"] = .error e) ↔
      ¬Consistent ["a 0 8", "f 0", "a 0 8"] ∨ ¬Unique ["a 0 8", "f 0", "a 0 8"]) := by
  intro hstops
  have hreused : ¬Unique ["a 0 8", "f 0", "a 0 8"] := by
    intro hunique
    refine hunique ["a 0 8", "f 0"] "a 0 8" [] rfl ⟨"0", by decide, ?_⟩
    exact ⟨[], "a 0 8", [], "f 0", [], rfl, by decide, by decide⟩
  obtain ⟨e, he⟩ := hstops.mpr (Or.inr hreused)
  have hok : checktrace false ["20000", "1", "3", "1", "a 0 8", "f 0", "a 0 8"]
      = .ok ["20000", "1", "4", "1", "a 0 8", "f 0", "a 0 8", "f 0"] := rfl
  rw [hok] at he
  cases he

end MallocLab
