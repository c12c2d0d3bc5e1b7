import Smallkv.Table.Layout

/-!
# Table.ReadBack — what the parser gets to see

`ReadAll` puts the lines of a file together and leaves the newlines between them
out, so the content that is parsed is the file exactly when there is no newline
in it. Of a content that is the file, `Parse` rebuilds the filter from the range
in the footer: bits and count are there (`SstLayout.filter_read`), but the
count is not read from there.
-/

namespace Smallkv

open Fallible

/-! ## ReadAll -/

namespace SSTParser

/-- `getline`: the bytes up to the next newline, which is taken off the stream;
at the end of the stream nothing is extracted and the call fails. -/
def getline (stream : Bytes) : Option (Bytes × Bytes) :=
  if stream = [] then none
  else some (stream.takeWhile (· ≠ newline), (stream.dropWhile (· ≠ newline)).drop 1)

/-- `while (getline(is, temp)) sst_content.append(temp)`. -/
def readLoop : ℕ → Bytes → Bytes → Exec Bytes
  | 0, _, _ => .error .endless
  | fuel + 1, stream, content =>
    match getline stream with
    | none => pure content
    | some (temp, stream) => readLoop fuel stream (content ++ temp)

/-- The loop on the stream of a file. -/
def readFile (file : Bytes) : Exec Bytes := readLoop (file.length + 1) file []

/-- A line, and what is left behind its newline. -/
theorem readAll_line (stream : Bytes) :
    readAll stream = stream.takeWhile (· ≠ newline) ++
      readAll ((stream.dropWhile (· ≠ newline)).drop 1) := by
  induction stream with
  | nil => rfl
  | cons b stream ih =>
      by_cases hb : b = newline
      · simp [readAll, hb]
      · simpa [readAll, hb] using ih

theorem length_rest_lt {stream : Bytes} (hne : stream ≠ []) :
    ((stream.dropWhile (· ≠ newline)).drop 1).length < stream.length := by
  have hle := (List.dropWhile_suffix (fun b => decide (b ≠ newline)) (l := stream)).length_le
  have hpos := List.length_pos_of_ne_nil hne
  rw [List.length_drop]
  omega

theorem readLoop_spec {fuel : ℕ} {stream : Bytes} (content : Bytes)
    (hfuel : stream.length < fuel) :
    readLoop fuel stream content = .ok (content ++ readAll stream) := by
  induction fuel generalizing stream content with
  | zero => omega
  | succ fuel ih =>
      by_cases hnil : stream = []
      · simp [readLoop, getline, hnil, readAll]
      · have hlt := length_rest_lt hnil
        simp only [readLoop, getline, if_neg hnil]
        rw [ih _ (by omega), List.append_assoc, ← readAll_line]

/-- The loop ends, and its lines are the file without the newlines. -/
theorem readFile_eq (file : Bytes) : readFile file = .ok (readAll file) := by
  rw [readFile, readLoop_spec [] (Nat.lt_succ_self _), List.nil_append]

theorem readAll_eq_self_iff (file : Bytes) : readAll file = file ↔ newline ∉ file := by
  rw [readAll, List.filter_eq_self]
  constructor
  · intro h hmem
    simpa using h newline hmem
  · intro h b hb
    have hne : b ≠ newline := fun heq => h (heq ▸ hb)
    simpa using hne

theorem readAll_length_le (file : Bytes) : (readAll file).length ≤ file.length :=
  List.length_filter_le _ _

end SSTParser

/-! ## Strings through the writer -/

/-- `append(data.data(), data.size(), flush)`; the length is converted to an
`int32_t`. -/
def FileWriter.appendString (w : FileWriter) (call : Bytes × Bool) : Exec FileWriter :=
  w.append call.1 (asInt32 call.1.length) call.2

/-- All strings of the calls. -/
def stringsOf (calls : List (Bytes × Bool)) : Bytes := (calls.map Prod.fst).flatten

/-- The strings are appended to a new file, the file is closed and read: the
parser has the strings. -/
def ReaderSeesWritten (calls : List (Bytes × Bool)) : Prop :=
  ∃ w, run FileWriter.appendString (FileWriter.openFile []) calls = .ok w ∧
    SSTParser.readFile w.close.file = .ok (stringsOf calls)

/-- What the writer takes in of each string. -/
theorem run_appendString_ok {calls : List (Bytes × Bool)} {w : FileWriter}
    (hrun : run FileWriter.appendString (FileWriter.openFile []) calls = .ok w) :
    w.stream = (calls.map fun call => appended call.1).flatten := by
  induction calls using List.reverseRecOn generalizing w with
  | nil =>
      cases hrun
      rw [FileWriter.stream_openFile, List.map_nil, List.flatten_nil]
  | append_singleton calls call ih =>
      rcases run_concat_ok.1 hrun with ⟨w₀, hrun₀, happend⟩
      rw [FileWriter.append_ok happend, ih hrun₀, List.map_append, List.flatten_append,
        List.map_singleton, List.flatten_singleton, appended]

theorem run_appendString_progress {calls : List (Bytes × Bool)}
    (hlen : ∀ call ∈ calls, call.1.length < 2 ^ 31) :
    ∃ w, run FileWriter.appendString (FileWriter.openFile []) calls = .ok w := by
  induction calls using List.reverseRecOn with
  | nil => exact ⟨_, rfl⟩
  | append_singleton calls call ih =>
      rcases ih fun c hc => hlen c (by simp [hc]) with ⟨w, hrun⟩
      rcases w.append_spec call.1 call.2 with ⟨w', happend, -⟩
      refine ⟨w', run_concat_ok.2 ⟨w, hrun, ?_⟩⟩
      have hcall := hlen call (by simp)
      rw [FileWriter.appendString, asInt32_of_lt (Int.natCast_nonneg _) (by omega)]
      exact happend

theorem appended_length_le (data : Bytes) : (appended data).length ≤ data.length :=
  List.length_take_le' _ _

/-- The writer takes a string in as a whole only if its length is an `int32_t`. -/
theorem length_lt_of_appended {data : Bytes} (h : data.length ≤ (appended data).length) :
    data.length < 2 ^ 31 := by
  have hhigh := (asInt32_bounds data.length).2
  rw [appended, List.length_take] at h
  omega

theorem length_appended_flatten_le (calls : List (Bytes × Bool)) :
    ((calls.map fun call => appended call.1).flatten).length ≤ (stringsOf calls).length := by
  induction calls with
  | nil => simp [stringsOf]
  | cons call calls ih =>
      have hle := appended_length_le call.1
      simp only [stringsOf, List.map_cons, List.flatten_cons, List.length_append] at ih ⊢
      omega

theorem lengths_lt_of_appended {calls : List (Bytes × Bool)}
    (h : (stringsOf calls).length ≤
      ((calls.map fun call => appended call.1).flatten).length) :
    ∀ call ∈ calls, call.1.length < 2 ^ 31 := by
  induction calls with
  | nil => simp
  | cons call calls ih =>
      have hle := appended_length_le call.1
      have hrest := length_appended_flatten_le calls
      simp only [stringsOf, List.map_cons, List.flatten_cons, List.length_append] at h hrest ih
      intro c hc
      rcases List.mem_cons.1 hc with rfl | hc
      · exact length_lt_of_appended (by omega)
      · exact ih (by omega) c hc

theorem appended_flatten {calls : List (Bytes × Bool)}
    (hlen : ∀ call ∈ calls, call.1.length < 2 ^ 31) :
    (calls.map fun call => appended call.1).flatten = stringsOf calls := by
  rw [stringsOf, List.map_congr_left fun call hcall => appended_eq_self (hlen call hcall)]

/-- What is read of a closed file. -/
theorem readFile_close (w : FileWriter) :
    SSTParser.readFile w.close.file = .ok (SSTParser.readAll w.stream) := by
  have hfile : w.close.file = w.stream := w.file_sync
  rw [SSTParser.readFile_eq, hfile]

/-- The reader sees the bytes that were written exactly when there is no newline
among them; a string that is longer than an `int32_t` can say is not written. -/
theorem readerSeesWritten_iff (calls : List (Bytes × Bool)) :
    ReaderSeesWritten calls ↔
      (∀ call ∈ calls, call.1.length < 2 ^ 31) ∧ SSTParser.newline ∉ stringsOf calls := by
  constructor
  · rintro ⟨w, hrun, hread⟩
    rw [readFile_close, run_appendString_ok hrun] at hread
    have hcontent := Except.ok.inj hread
    -- nothing can have got lost on the way
    have hlength := congrArg List.length hcontent
    have hle := SSTParser.readAll_length_le
      ((calls.map fun call => appended call.1).flatten)
    have hlen : ∀ call ∈ calls, call.1.length < 2 ^ 31 := lengths_lt_of_appended (by omega)
    refine ⟨hlen, ?_⟩
    rw [appended_flatten hlen] at hcontent
    exact (SSTParser.readAll_eq_self_iff _).1 hcontent
  · rintro ⟨hlen, hnewline⟩
    rcases run_appendString_progress hlen with ⟨w, hrun⟩
    refine ⟨w, hrun, ?_⟩
    rw [readFile_close, run_appendString_ok hrun, appended_flatten hlen,
      (SSTParser.readAll_eq_self_iff _).2 hnewline]

/-- Of `a`, a newline and `b` the parser has `ab`. -/
theorem newline_not_read : ¬ ReaderSeesWritten [(ascii "a", false), ([10, 98], true)] := by
  rintro ⟨w, hrun, hread⟩
  rw [readFile_close, run_appendString_ok hrun] at hread
  exact absurd (Except.ok.inj hread) (by decide)

/-! ## The filter -/

/-- The filter of a builder that was fed the keys; `finish_sst` finishes it twice. -/
def builtFilter (fm : FloatMath) (keysNum : ℤ) (keys : List Bytes) : Exec FilterBlockBuilder := do
  let b ← FilterBlockBuilder.new fm keysNum
  let b ← (keys.foldl FilterBlockBuilder.add b).finishFilterBlock
  b.finishFilterBlock

/-- The parser of a table whose content is the file has the builder's filter, and
every key of the table passes it. -/
structure FilterReloaded (fm : FloatMath) (keysNum : ℤ) (entries : List (Bytes × Bytes))
    (file : Bytes) (b : FilterBlockBuilder) (p : SSTParser) : Prop where
  built : SSTableBuilder.build fm keysNum entries = .ok file
  filter : builtFilter fm keysNum (entries.map Prod.fst) = .ok b
  content : SSTParser.readFile file = .ok file
  parsed : SSTParser.parse file = .ok p
  bits : p.filterPolicy.bitsArray = b.filterPolicy.bitsArray
  hashes : p.filterPolicy.hashFuncNum = b.filterPolicy.hashFuncNum
  agree : ∀ key, p.filterPolicy.exists_ key = b.exists_ key
  passes : ∀ entry ∈ entries, entry.1 ≠ [] → p.filterPolicy.exists_ entry.1 = .ok true

/-- Whatever table was built, its filter is not reloaded: the number of hashes is
read from the address `START + SIZE - 4` and not from there in the content. -/
theorem not_filterReloaded (fm : FloatMath) (keysNum : ℤ) (entries : List (Bytes × Bytes))
    (file : Bytes) (b : FilterBlockBuilder) (p : SSTParser) :
    ¬ FilterReloaded fm keysNum entries file b p := by
  intro h
  exact parse_ne_ok file p h.parsed

/-- A table without a newline, whose content is the file. -/
theorem filter_not_reloaded_ab :
    (∃ file, SSTableBuilder.build decimalMath 1 [(ascii "a", ascii "b")] = .ok file ∧
      SSTParser.readFile file = .ok file) ∧
    ¬ ∃ file b p, FilterReloaded decimalMath 1 [(ascii "a", ascii "b")] file b p := by
  constructor
  · exact ⟨_, rfl, rfl⟩
  · rintro ⟨file, b, p, h⟩
    exact parse_ne_ok file p h.parsed

/-- In the content itself, at the range of the footer, bits and count can be read. -/
theorem SstLayout.filter_read {file dataBlocks index : Bytes} {policy : BloomFilter}
    {metaBlock indexBlock : OffsetInfo}
    (h : SstLayout file dataBlocks (filterBytes policy) index metaBlock indexBlock)
    (hlow : -2 ^ 31 ≤ policy.hashFuncNum) (hhigh : policy.hashFuncNum < 2 ^ 31) :
    SSTParser.readInt32 file (metaBlock.offset + metaBlock.size - 4) = .ok policy.hashFuncNum ∧
      SSTParser.readString file metaBlock.offset (metaBlock.size - 4) = .ok policy.bitsArray := by
  rcases h.parts with ⟨footer, -, hfile⟩
  rcases h.metaAt with ⟨hoffset, hsize⟩
  rw [length_filterBytes] at hsize
  constructor
  · refine readInt32_at hlow hhigh (a := dataBlocks ++ policy.bitsArray) (c := index ++ footer) ?_ ?_
    · rw [hfile, filterBytes]
      simp
    · rw [hoffset, hsize, List.length_append]
      push_cast
      ring
  · have hlen : metaBlock.size - 4 = policy.bitsArray.length := by
      rw [hsize]
      push_cast
      ring
    have hcontent : file = dataBlocks ++ policy.bitsArray ++
        (encodeFixed32 (asUInt32 policy.hashFuncNum) ++ index ++ footer) := by
      rw [hfile, filterBytes]
      simp
    rw [SSTParser.readString, require_of (by omega), ok_bind, hcontent]
    exact slice_append hoffset hlen

end Smallkv
