import ChunkTree.Allowance
import ChunkTree.Proofs.InputFiles
import ChunkTree.Proofs.Readers

/-!
# What a chain of slices shows

A reader of some content, a slice of it, a slice of that, and so on, all show the bytes of the content
from where their starts together lead (`Section.Views`).  A range is read exactly if it stays inside the
slice, where position and length are added up as numbers of any length: the check is made without a sum
that could wrap around (`Section.outside_words_iff`).  This goes for bytes in memory, for a file that
nobody writes to, and for a tree whose store has the chunks (`Section.views_of_reader`).
-/

namespace ChunkTree

namespace Bytes

/-- The bytes are those of a buffer with others laid over them from an offset on: the buffer is as long
as it has to be, has its old bytes beside the new ones, and zeros in a gap between them. -/
structure Laid (buffer part : Bytes) (offset : Nat) (bytes : Bytes) : Prop where
  size_eq : bytes.size = max buffer.size (offset + part.size)
  covered : ∀ index, index < part.size → bytes[offset + index]? = part[index]?
  kept : ∀ index, index < buffer.size → index < offset ∨ offset + part.size ≤ index →
    bytes[index]? = buffer[index]?
  zeros : ∀ index, buffer.size ≤ index → index < offset → bytes[index]? = some 0

/-- The byte at an index of an overlay, by where it comes from. -/
theorem getElem?_overlay (buffer part : Bytes) (offset index : Nat) :
    (buffer.overlay part offset)[index]? =
      if index < min offset buffer.size then buffer[index]?
      else if index < offset then some 0
      else if index < offset + part.size then part[index - offset]?
      else buffer[index]? := by
  have before : (buffer.extract 0 offset).size = min offset buffer.size := by
    rw [Array.size_extract, Nat.sub_zero]
  have gap : min offset buffer.size + (offset - buffer.size) = offset := by omega
  simp only [overlay, Array.getElem?_append, Array.size_append, Array.size_replicate, before, gap]
  by_cases behind : index < offset + part.size
  · rw [if_pos behind]
    by_cases inGap : index < offset
    · rw [if_pos inGap, if_pos inGap]
      by_cases old : index < min offset buffer.size
      · rw [if_pos old, if_pos old, Array.getElem?_extract, if_pos (by omega), Nat.zero_add]
      · rw [if_neg old, if_neg old, Array.getElem?_replicate, if_pos (by omega)]
    · rw [if_neg inGap, if_neg (by omega), if_neg inGap, if_pos behind]
  · rw [if_neg behind, if_neg (by omega), if_neg (by omega), if_neg behind]
    by_cases old : index < buffer.size
    · rw [Array.getElem?_extract, if_pos (by omega)]
      congr 1
      omega
    · rw [Array.getElem?_extract, if_neg (by omega), Array.getElem?_eq_none (by omega)]

theorem laid_overlay (buffer part : Bytes) (offset : Nat) :
    Laid buffer part offset (buffer.overlay part offset) where
  size_eq := size_overlay buffer part offset
  covered index inside := by
    rw [getElem?_overlay, if_neg (by omega), if_neg (by omega), if_pos (by omega),
      Nat.add_sub_cancel_left]
  kept index old outside := by
    rw [getElem?_overlay]
    by_cases before : index < offset
    · rw [if_pos (by omega)]
    · rw [if_neg (by omega), if_neg before, if_neg (by omega)]
  zeros index new before := by
    rw [getElem?_overlay, if_neg (by omega), if_pos before]

/-- What bytes laid over a buffer give is settled byte by byte. -/
theorem Laid.unique {buffer part bytes others : Bytes} {offset : Nat}
    (laid : Laid buffer part offset bytes) (same : Laid buffer part offset others) :
    bytes = others := by
  apply Array.ext_getElem?
  intro index
  by_cases before : index < offset
  · by_cases old : index < buffer.size
    · rw [laid.kept index old (.inl before), same.kept index old (.inl before)]
    · have new : buffer.size ≤ index := Nat.le_of_not_lt old
      rw [laid.zeros index new before, same.zeros index new before]
  obtain ⟨place, rfl⟩ := Nat.exists_eq_add_of_le (Nat.le_of_not_lt before)
  by_cases inside : place < part.size
  · rw [laid.covered place inside, same.covered place inside]
  have behind : offset + part.size ≤ offset + place := by omega
  by_cases old : offset + place < buffer.size
  · rw [laid.kept _ old (.inr behind), same.kept _ old (.inr behind)]
  · have none : max buffer.size (offset + part.size) ≤ offset + place := by omega
    rw [Array.getElem?_eq_none (laid.size_eq.le.trans none),
      Array.getElem?_eq_none (same.size_eq.le.trans none)]

end Bytes

namespace Section

variable {σ : Type} {part view : Section σ} {kind : σ → Prop} {source : Bytes}

/-- Words are compared without adding them up: a range is outside exactly if its end is, as a number. -/
theorem outside_words_iff {size position count : UInt64} :
    size < position ∨ size - position < count ↔ size.toNat < position.toNat + count.toNat := by
  rw [UInt64.lt_iff_toNat_lt, UInt64.lt_iff_toNat_lt]
  by_cases behind : size.toNat < position.toNat
  · exact ⟨fun _ => Nat.lt_add_right _ behind, fun _ => .inl behind⟩
  · rw [UInt64.toNat_sub_of_le _ _ (UInt64.le_iff_toNat_le.mpr (Nat.le_of_not_lt behind))]
    omega

/-- The section shows the bytes of a source from `start` on, as many as it is long, and nothing
outside of it can be read or sliced. -/
structure Views (view : Section σ) (kind : σ → Prop) (source : Bytes) (start : Nat) : Prop where
  inside : start + view.size ≤ source.size
  slice : ∀ first stop, first ≤ stop → stop ≤ view.size →
    ∃ next, view.slice first stop = .ok next ∧ next.size = stop - first
  sliceOutside : ∀ first stop, ¬ (first ≤ stop ∧ stop ≤ view.size) →
    view.slice first stop = .error (.sliceOutside first stop view.size)
  readAt : ∀ position count, position + count ≤ view.size → ∀ state, kind state → ∃ after,
    (view.readAt position count).run state = (.ok (source.slice (start + position) count), after) ∧
      kind after
  readOutside : ∀ position count, view.size < position + count →
    view.readAt position count = throw (.readOutside count position view.size)
  /-- The check of a range as it is made in words. -/
  words : ∀ size position count : UInt64, size.toNat = view.size →
    (size < position ∨ size - position < count ↔ view.size < position.toNat + count.toNat)
  readAll_eq : view.readAll = view.readAt 0 view.size
  readAll : ∀ state, kind state → ∃ after,
    view.readAll.run state = (.ok (source.slice start view.size), after) ∧ kind after
  readInto : ∀ buffer offset, offset + view.size < wordLimit → ∀ state, kind state →
    ∃ bytes after, (view.readIntoAllowed none buffer offset).run state = (.ok bytes, after) ∧
      kind after ∧ Bytes.Laid buffer (source.slice start view.size) offset bytes

/-- Without a bound on what may be held, a section is read into any buffer that words can count. -/
theorem readIntoAllowed_none (part : Section σ) {buffer : Bytes} {offset : Nat}
    (counted : offset + part.size < wordLimit) :
    part.readIntoAllowed none buffer offset = part.readInto buffer offset := by
  unfold readIntoAllowed
  simp only [if_pos counted, Allowance.check]
  split
  · rfl
  · rfl

/-- A chain of slices of what reads as some content views the content. -/
theorem Shows.views (shows : part.Shows kind source) {ranges : List (Nat × Nat)}
    (sliced : part.cut ranges = .ok view) : view.Views kind source (offset ranges) := by
  obtain ⟨moved, inside⟩ := eq_of_cut_eq_ok sliced
  have within : offset ranges + view.size ≤ source.size := shows.size_eq ▸ inside
  have reads : ∀ position count, position + count ≤ view.size → ∀ state, kind state → ∃ after,
      (view.readAt position count).run state =
        (.ok (source.slice (offset ranges + position) count), after) ∧ kind after := by
    intro position count stays state start
    rw [moved, readAt_moved part inside stays]
    exact shows.readAt _ _ (by omega) state start
  have all : ∀ state, kind state → ∃ after,
      view.readAll.run state = (.ok (source.slice (offset ranges) view.size), after) ∧ kind after :=
    reads 0 view.size (Nat.zero_add _).le
  refine ⟨within, ?_, ?_, reads, ?_, ?_, rfl, all, ?_⟩
  · intro first stop order stays
    exact ⟨_, slice_eq_ok_iff.mpr ⟨⟨order, stays⟩, rfl⟩, rfl⟩
  · intro first stop outside
    rw [Section.slice, if_pos (by omega)]
  · intro position count outside
    rw [Section.readAt, if_pos (by omega)]
  · intro size position count same
    rw [← same]
    exact outside_words_iff
  · intro buffer offset counted state start
    obtain ⟨after, ran, kept⟩ := all state start
    refine ⟨_, after, ?_, kept, Bytes.laid_overlay buffer _ offset⟩
    rw [readIntoAllowed_none view counted, readInto, Action.run_bind, ran]
    rfl

/-- An open file reads as the content that it has, while it has it, whatever reads have left of it. -/
theorem shows_ofInput (content : Bytes) :
    (whole Source.ofInput content.size).Shows (fun state => state.1.content state.2.number = content)
      content where
  size_eq := rfl
  readAt position count inside := by
    intro ⟨files, file⟩ start
    have start : files.content file.number = content := start
    have based : (whole Source.ofInput content.size).source = Source.ofInput := rfl
    obtain ⟨later, stays, ran⟩ := InputFile.run_readAt_ofInput file files based position count
    refine ⟨(files, later), ?_, ?_⟩
    · have within : position + count ≤ (whole Source.ofInput content.size).size := inside
      rw [ran, start, InputFile.reading, if_neg (Nat.not_lt_of_le within)]
      simp only [whole, Nat.zero_add]
      rw [if_neg (Nat.not_lt_of_le inside)]
      by_cases empty : count = 0
      · rw [if_pos empty, empty, Bytes.slice_zero]
      · rw [if_neg empty]
    · change files.content later.number = content
      rw [stays.number_eq, start]

/-- **A chain of slices is an exact view.** Whatever reads as some content, a chain of slices of it
shows the bytes from where their starts together lead, and refuses every range outside; and so does a
chain of slices of an open file, wherever this was read before, while the file stays as it is. -/
theorem views_of_reader :
    (∀ {σ : Type} {part : Section σ} {kind : σ → Prop} {source : Bytes}, Reader part kind source →
      part.size = source.size ∧ ∀ ranges view, part.cut ranges = .ok view →
        view.Views kind source (offset ranges)) ∧
    ∀ {path : String} {files after : FileSystem} {file : InputFile}
      {part : Section (FileSystem × InputFile)},
      (Section.ofInput path).run files = (.ok (file, part), after) →
      part.size = (files.content file.number).size ∧ ∀ ranges view, part.cut ranges = .ok view →
        view.Views (fun state => state.1.content state.2.number = files.content file.number)
          (files.content file.number) (offset ranges) := by
  constructor
  · intro σ part kind source reader
    exact ⟨reader.shows.size_eq, fun ranges view sliced => reader.shows.views sliced⟩
  · intro path files after file part ran
    obtain ⟨-, names, number, -, rfl, rfl⟩ := InputFile.of_run_ofInput ran
    exact ⟨rfl, fun ranges view sliced => (shows_ofInput _).views sliced⟩

/-- Two of five bytes, in a slice of a slice of an open file, are put behind another byte and a gap, and
a third byte is not there; in memory the same two bytes are read. -/
theorem views_of_reader_of_slices :
    ∃ file part view after, (Section.ofInput "f").run InputFile.fiveBytes =
        (.ok (file, part), InputFile.fiveBytes) ∧
      part.cut [(1, 5), (1, 3)] = .ok view ∧ view.slice 0 3 = .error (.sliceOutside 0 3 2) ∧
      (view.readIntoAllowed none #[9] 2).run (InputFile.fiveBytes, file) =
        (.ok #[9, 0, 3, 4], after) ∧
      ∃ same after, (Section.ofBytes #[1, 2, 3, 4, 5] : Section Unit).cut [(1, 5), (1, 3)] = .ok same ∧
        same.readAll.run () = (.ok #[3, 4], after) := by
  have sliced : (whole Source.ofInput 5).cut [(1, 5), (1, 3)] = .ok ⟨Source.ofInput, 2, 2⟩ := rfl
  have content : InputFile.fiveBytes.content (InputFile.opened "f" 0).number = #[1, 2, 3, 4, 5] :=
    InputFile.content_fiveBytes
  obtain ⟨inMemory, inFile⟩ := views_of_reader
  obtain ⟨-, views⟩ := inFile InputFile.run_ofInput_fiveBytes
  obtain ⟨-, same⟩ := inMemory (σ := Unit) (.buffer (fun _ => True) #[1, 2, 3, 4, 5])
  have view := views _ _ sliced
  obtain ⟨bytes, after, ran, -, laid⟩ :=
    view.readInto #[9] 2 (by decide) (InputFile.fiveBytes, .opened "f" 0) rfl
  obtain ⟨left, read, -⟩ := (same [(1, 5), (1, 3)] _ rfl).readAll () trivial
  rw [laid.unique (Bytes.laid_overlay _ _ _), content] at ran
  exact ⟨_, _, _, after, InputFile.run_ofInput_fiveBytes, sliced, view.sliceOutside 0 3 (by decide),
    ran, _, left, rfl, read⟩

end Section

end ChunkTree
