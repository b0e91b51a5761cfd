import MallocLab.Lib.Scan
import MallocLab.Traces.CheckTrace
import MallocLab.Traces.ReadTrace

set_option autoImplicit false

/-! # Reading a trace from its file

`read_trace` reads the file with `fscanf`, to which the end of a line is a blank like any other:
`a 0 8 f 0` on one line are two requests, and in `a 0 512 7` the 7 is the type of the next one. On a
file in the format of the traces, with one number in each line of the header and one request in each
line after it, this comes to the same as reading line by line (`readTraceFile_eq`). The model gives
no result where a number cannot be read, and the old one would be used, or where a type does not
fit into its buffer.
-/

namespace MallocLab

open Logged Scan Text

/-! ## The file as a stream -/

def MAXLINE : Nat := 1024

/-- The characters of the file. -/
def fileText (file : List String) : List Char := file.flatMap (fun line => line.toList ++ ['\n'])

/-- The header, as the four `%d` read it. -/
structure TraceHeader where
  suggHeapsize : Int
  numIds : Int
  numOps : Int
  weight : Int
  deriving DecidableEq, Repr

def scanHeader (s : List Char) : Option (TraceHeader × List Char) := do
  let (suggHeapsize, s) ← scanInt s
  let (numIds, s) ← scanInt s
  let (numOps, s) ← scanInt s
  let (weight, s) ← scanInt s
  return (⟨suggHeapsize, numIds, numOps, weight⟩, s)

/-- The numbers of a request of the type: `"%u %u"`, or `"%ud"` for a free. -/
def scanRequest (type : Char) (s : List Char) : Option (TraceLine × List Char) := do
  let (index, s) ← scanUnsigned s
  if type = 'f' then
    return (⟨type, index, 0⟩, scanChar 'd' s)
  else
    let (size, s) ← scanUnsigned s
    return (⟨type, index, size⟩, s)

/-- The requests up to the end of the file, or up to a bogus type, where `read_trace` exits. -/
def scanRequests : Nat → List Char → Option (List TraceLine)
  | 0, _ => none
  | fuel + 1, s =>
      match scanWord s with
      | none => some []
      | some (word, s) =>
          let type := word.headD '\n'
          if MAXLINE ≤ word.length then none
          else if type = 'a' ∨ type = 'r' ∨ type = 'f' then
            (scanRequest type s).bind (fun r => (scanRequests fuel r.2).map (r.1 :: ·))
          else some [⟨type, 0, 0⟩]

/-- `read_trace` of a file. -/
def readTraceFile (file : List String) : Logged Reader StoreEvent (Except ReadError TraceRecord) :=
  match scanHeader (fileText file) with
  | none => never
  | some (header, s) =>
      match scanRequests (s.length + 1) s with
      | none => never
      | some lines => readTrace (toSize header.numIds) (toSize header.numOps) lines

/-! ## The format -/

/-- The numbers of a line are digits and fit into an `unsigned`. -/
def Numeric (line : String) : Prop :=
  ∀ w ∈ (words line).tail, (∀ c ∈ w.toList, c.isDigit = true) ∧ number w < 2 ^ 32

/-- A numeric line as `read_trace` reads it. -/
def TraceLine.read (line : String) : TraceLine :=
  ⟨((words line).getD 0 "").front, number ((words line).getD 1 ""),
    number ((words line).getD 2 "")⟩

theorem read_eq {line cmd id : String} {rest : List String} (hw : words line = cmd :: id :: rest) :
    TraceLine.read line = ⟨cmd.front, number id, number (rest.getD 0 "")⟩ := by
  rw [TraceLine.read, hw]
  rfl

theorem read_ok {line : String} (hline : IsRequest line) (hnum : Numeric line) :
    (TraceLine.read line).Ok := by
  have ha : "a".front = 'a' := by decide
  have hr : "r".front = 'r' := by decide
  have hf : "f".front = 'f' := by decide
  have hempty : number "" < 2 ^ 32 := by decide
  obtain ⟨id, size, hw | hw | hw⟩ := hline
  · rw [Numeric, hw] at hnum
    rw [read_eq hw]
    exact ⟨Or.inl ha, (hnum id (by simp)).2, (hnum size (by simp)).2⟩
  · rw [Numeric, hw] at hnum
    rw [read_eq hw]
    exact ⟨Or.inr (Or.inl hr), (hnum id (by simp)).2, (hnum size (by simp)).2⟩
  · rw [Numeric, hw] at hnum
    rw [read_eq hw]
    exact ⟨Or.inr (Or.inr hf), (hnum id (by simp)).2, hempty⟩

/-- A header line: one number. -/
def IsNumber (line : String) : Prop := ∃ w, words line = [w] ∧ ∀ c ∈ w.toList, c.isDigit = true

theorem isNumber_toString (n : Nat) : IsNumber (toString n) :=
  ⟨toString n, words_word (isWord_toString n), isDigit_toString n⟩

theorem isNumber_of_eq {line : String} {n : Nat} (h : line = toString n) : IsNumber line := by
  rw [h]
  exact isNumber_toString n

theorem isNumber_toString_int {z : Int} (hz : 0 ≤ z) : IsNumber (toString z) := by
  lift z to Nat using hz
  exact isNumber_toString z

/-- A header line as an `unsigned`. -/
def headerValue (line : String) : Nat := toSize (clampInt (number line))

theorem headerValue_eq {line : String} (h : number line < 2 ^ 31) :
    headerValue line = number line := by
  rw [headerValue, clampInt_natCast h, toSize]
  omega

/-! ## Lines and tokens -/

theorem tokens_line (line : String) : tokens line.toList = (words line).map String.toList := by
  rw [words_eq, List.map_map]
  exact (List.map_id'' (fun w => String.toList_ofList) _).symm

theorem tokens_fileText_cons (line : String) (file : List String) :
    tokens (fileText (line :: file)) = (words line).map String.toList ++ tokens (fileText file) := by
  have htext : fileText (line :: file) = line.toList ++ '\n' :: fileText file := by
    rw [fileText, List.flatMap_cons, List.append_assoc]
    rfl
  rw [htext, tokens_append_cons _ _ (by decide), tokens_line]

/-- The number of a line is that of its only word. -/
theorem number_line {line w : String} (hw : words line = [w])
    (hdigits : ∀ c ∈ w.toList, c.isDigit = true) : number line = number w := by
  have htokens : tokens line.toList = [w.toList] := by rw [tokens_line, hw, List.map_singleton]
  obtain ⟨rest, -, hnext, -⟩ := scanWord_token htokens
  have hskip : line.toList.dropWhile isBlank = w.toList ++ rest := hnext.skipped
  rw [number_digits hdigits, number, hskip, hnext.takeWhile_digits hdigits]

theorem scanUnsigned_token {s : List Char} {w : String} {ws : List (List Char)}
    (h : tokens s = w.toList :: ws)
    (hw : (∀ c ∈ w.toList, c.isDigit = true) ∧ number w < 2 ^ 32) :
    ∃ rest, scanUnsigned s = some (number w, rest) ∧ Next s w.toList rest ∧ tokens rest = ws := by
  obtain ⟨rest, hscan, hnext, hrest⟩ := scanNumber_token h hw.1
  refine ⟨rest, ?_, hnext, hrest⟩
  rw [scanUnsigned, hscan, ← number_digits hw.1]
  show some (clampUnsigned (number w : Int), rest) = _
  rw [clampUnsigned_natCast hw.2]

/-- A request with an id and a size. -/
theorem scanRequest_sized (type : Char) (htype : type ≠ 'f') {s : List Char} {id size : String}
    {ts : List (List Char)} (h : tokens s = id.toList :: size.toList :: ts)
    (hid : (∀ c ∈ id.toList, c.isDigit = true) ∧ number id < 2 ^ 32)
    (hsize : (∀ c ∈ size.toList, c.isDigit = true) ∧ number size < 2 ^ 32) :
    ∃ rest, scanRequest type s = some (⟨type, number id, number size⟩, rest) ∧ tokens rest = ts ∧
      rest.length < s.length := by
  obtain ⟨s₁, hscan₁, hnext₁, hrest₁⟩ := scanUnsigned_token h hid
  obtain ⟨s₂, hscan₂, hnext₂, hrest₂⟩ := scanUnsigned_token hrest₁ hsize
  refine ⟨s₂, ?_, hrest₂, hnext₂.length.trans hnext₁.length⟩
  simp only [scanRequest, hscan₁, hscan₂, Option.bind_eq_bind, Option.bind_some, if_neg htype]
  rfl

/-- A request with an id alone. -/
theorem scanRequest_free {s : List Char} {id : String} {ts : List (List Char)}
    (h : tokens s = id.toList :: ts)
    (hid : (∀ c ∈ id.toList, c.isDigit = true) ∧ number id < 2 ^ 32) :
    ∃ rest, scanRequest 'f' s = some (⟨'f', number id, 0⟩, rest) ∧ tokens rest = ts ∧
      rest.length < s.length := by
  obtain ⟨s₁, hscan₁, hnext₁, hrest₁⟩ := scanUnsigned_token h hid
  refine ⟨s₁, ?_, hrest₁, hnext₁.length⟩
  simp only [scanRequest, hscan₁, Option.bind_eq_bind, Option.bind_some, if_true,
    scanChar_atBlank hnext₁.stops (by decide : isBlank 'd' = false)]
  rfl

/-- **One request**, in front of the rest of the file. -/
theorem scanRequest_line {line : String} (hline : IsRequest line) (hnum : Numeric line)
    {s : List Char} {ts : List (List Char)} (h : tokens s = (words line).map String.toList ++ ts) :
    ∃ word s₁ s₂, scanWord s = some (word, s₁) ∧ word.length = 1 ∧
      word.headD '\n' = (TraceLine.read line).type ∧
      scanRequest (TraceLine.read line).type s₁ = some (TraceLine.read line, s₂) ∧
      tokens s₂ = ts ∧ s₂.length < s.length := by
  have ha : "a".front = 'a' := by decide
  have hr : "r".front = 'r' := by decide
  have hf : "f".front = 'f' := by decide
  obtain ⟨id, size, hw | hw | hw⟩ := hline
  · rw [Numeric, hw] at hnum
    rw [hw] at h
    obtain ⟨s₁, hword, hnext, hrest⟩ := scanWord_token h
    obtain ⟨s₂, hscan, hts, hlt⟩ := scanRequest_sized 'a' (by decide) hrest
      (hnum id (by simp)) (hnum size (by simp))
    rw [read_eq hw, ha]
    exact ⟨_, s₁, s₂, hword, rfl, rfl, hscan, hts, hlt.trans hnext.length⟩
  · rw [Numeric, hw] at hnum
    rw [hw] at h
    obtain ⟨s₁, hword, hnext, hrest⟩ := scanWord_token h
    obtain ⟨s₂, hscan, hts, hlt⟩ := scanRequest_sized 'r' (by decide) hrest
      (hnum id (by simp)) (hnum size (by simp))
    rw [read_eq hw, hr]
    exact ⟨_, s₁, s₂, hword, rfl, rfl, hscan, hts, hlt.trans hnext.length⟩
  · rw [Numeric, hw] at hnum
    rw [hw] at h
    obtain ⟨s₁, hword, hnext, hrest⟩ := scanWord_token h
    obtain ⟨s₂, hscan, hts, hlt⟩ := scanRequest_free hrest (hnum id (by simp))
    rw [read_eq hw, hf]
    exact ⟨_, s₁, s₂, hword, rfl, rfl, hscan, hts, hlt.trans hnext.length⟩

/-- **The requests**, with fuel for every character that is left. -/
theorem scanRequests_lines {lines : List String}
    (hlines : ∀ line ∈ lines, IsRequest line ∨ Blank line) (hnum : ∀ line ∈ lines, Numeric line)
    {s : List Char} (h : tokens s = tokens (fileText lines)) {fuel : Nat} (hfuel : s.length < fuel) :
    scanRequests fuel s = some ((requests lines).map TraceLine.read) := by
  induction lines generalizing s fuel with
  | nil =>
      obtain ⟨fuel, rfl⟩ := Nat.exists_eq_add_of_lt hfuel
      rw [scanRequests, scanWord_end h]
      rfl
  | cons line lines ih =>
      have hlines' : ∀ k ∈ lines, IsRequest k ∨ Blank k :=
        fun k hk => hlines k (List.mem_cons_of_mem _ hk)
      have hnum' : ∀ k ∈ lines, Numeric k := fun k hk => hnum k (List.mem_cons_of_mem _ hk)
      rw [tokens_fileText_cons] at h
      by_cases hblank : Blank line
      · -- a blank line has no token, and takes no fuel
        have hkept : requests (line :: lines) = requests lines :=
          List.filter_cons_of_neg (by simpa using hblank)
        rw [show words line = [] from hblank] at h
        rw [hkept]
        exact ih hlines' hnum' h hfuel
      · have hline := (hlines line List.mem_cons_self).resolve_right hblank
        have hkept : requests (line :: lines) = line :: requests lines :=
          List.filter_cons_of_pos (by simpa using hblank)
        obtain ⟨word, s₁, s₂, hword, hlen, htype, hscan, hts, hlt⟩ :=
          scanRequest_line hline (hnum line List.mem_cons_self) h
        obtain ⟨fuel, rfl⟩ : ∃ n, fuel = n + 1 := ⟨fuel - 1, by omega⟩
        have hfits : ¬MAXLINE ≤ word.length := by
          rw [hlen]
          decide
        have hok := (read_ok hline (hnum line List.mem_cons_self)).type
        rw [hkept, List.map_cons, scanRequests, hword]
        simp only [htype, if_neg hfits]
        rw [if_pos (by tauto), hscan, Option.bind_some, ih hlines' hnum' hts (by omega),
          Option.map_some]

/-! ## The whole file -/

/-- A file in the format of the traces: a header of four numbers, and then requests. -/
structure InFormat (file : List String) : Prop where
  header : ∃ h1 h2 h3 h4 lines, file = h1 :: h2 :: h3 :: h4 :: lines ∧
    ∀ h ∈ [h1, h2, h3, h4], IsNumber h
  lines : ∀ line ∈ file.drop 4, IsRequest line ∨ Blank line
  numeric : ∀ line ∈ file.drop 4, Numeric line

theorem inFormat_of {h1 h2 h3 h4 : String} {lines : List String}
    (hheader : ∀ h ∈ [h1, h2, h3, h4], IsNumber h)
    (hlines : ∀ line ∈ lines, IsRequest line ∨ Blank line) (hnum : ∀ line ∈ lines, Numeric line) :
    InFormat (h1 :: h2 :: h3 :: h4 :: lines) :=
  ⟨⟨h1, h2, h3, h4, lines, rfl, hheader⟩, hlines, hnum⟩

/-- The requests of the file as they are read. -/
theorem InFormat.kept {file : List String} (hfile : InFormat file) :
    ∀ line ∈ requests (file.drop 4), IsRequest line ∧ Numeric line := by
  intro line hline
  obtain ⟨hmem, hblank⟩ := List.mem_filter.mp hline
  exact ⟨(hfile.lines line hmem).resolve_right (by simpa using hblank), hfile.numeric line hmem⟩

theorem InFormat.lines_ok {file : List String} (hfile : InFormat file) :
    ∀ l ∈ (requests (file.drop 4)).map TraceLine.read, l.Ok := by
  intro l hl
  obtain ⟨line, hline, rfl⟩ := List.mem_map.mp hl
  exact read_ok (hfile.kept line hline).1 (hfile.kept line hline).2

theorem scanInt_line {line : String} (hline : IsNumber line) {s : List Char}
    {ts : List (List Char)} (h : tokens s = (words line).map String.toList ++ ts) :
    ∃ rest, scanInt s = some (clampInt (number line), rest) ∧ tokens rest = ts := by
  obtain ⟨w, hw, hdigits⟩ := hline
  rw [hw] at h
  obtain ⟨rest, hscan, -, hrest⟩ := scanNumber_token h hdigits
  refine ⟨rest, ?_, hrest⟩
  rw [scanInt, hscan, number_line hw hdigits, number_digits hdigits]
  rfl

/-- **Line by line.** What `read_trace` makes of a file in the format. -/
theorem readTraceFile_eq {file : List String} (hfile : InFormat file) :
    readTraceFile file = readTrace (headerValue (file.getD 1 "")) (headerValue (file.getD 2 ""))
      ((requests (file.drop 4)).map TraceLine.read) := by
  obtain ⟨⟨h1, h2, h3, h4, lines, rfl, hheader⟩, hlines, hnum⟩ := hfile
  simp only [List.forall_mem_cons] at hheader
  obtain ⟨hn1, hn2, hn3, hn4, -⟩ := hheader
  obtain ⟨s₁, hscan₁, hs₁⟩ := scanInt_line hn1 (tokens_fileText_cons h1 (h2 :: h3 :: h4 :: lines))
  obtain ⟨s₂, hscan₂, hs₂⟩ := scanInt_line hn2 (hs₁.trans (tokens_fileText_cons h2 _))
  obtain ⟨s₃, hscan₃, hs₃⟩ := scanInt_line hn3 (hs₂.trans (tokens_fileText_cons h3 _))
  obtain ⟨s₄, hscan₄, hs₄⟩ := scanInt_line hn4 (hs₃.trans (tokens_fileText_cons h4 _))
  have hscan : scanHeader (fileText (h1 :: h2 :: h3 :: h4 :: lines))
      = some (⟨clampInt (number h1), clampInt (number h2), clampInt (number h3),
        clampInt (number h4)⟩, s₄) := by
    simp only [scanHeader, hscan₁, hscan₂, hscan₃, hscan₄, Option.bind_eq_bind, Option.bind_some]
    rfl
  rw [readTraceFile, hscan]
  simp only [scanRequests_lines hlines hnum hs₄ (Nat.lt_succ_self _)]
  rfl

end MallocLab
