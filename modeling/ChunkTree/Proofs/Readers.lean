import ChunkTree.FileSection
import ChunkTree.Proofs.FileChanges
import ChunkTree.Proofs.Provided
import ChunkTree.Proofs.Recording

/-!
# Readers of the same content

A section may be over a buffer, over a file that nobody writes to, over a tree joined from a store that
has its chunks, or over any slice of these (`Reader`).  Of whatever kind it is, it reads as its content
(`Reader.shows`); so splitting it hands over what splitting the content in memory does, and ends alike
(`Chunker.split_of_reader`).
-/

namespace ChunkTree

variable {σ τ : Type}

namespace Section

/-- While the state is of some kind, every range inside the section reads as that range of the content,
and leaves a state of that kind. -/
structure Shows (part : Section σ) (kind : σ → Prop) (content : Bytes) : Prop where
  size_eq : part.size = content.size
  readAt : ∀ position count, position + count ≤ content.size → ∀ state, kind state → ∃ after,
    (part.readAt position count).run state = (.ok (content.slice position count), after) ∧
      kind after

variable {part view : Section σ} {kind : σ → Prop} {content : Bytes}

theorem Holds.shows (holds : part.Holds content) (kind : σ → Prop) : part.Shows kind content where
  size_eq := holds.size_eq
  readAt position count inside state start := by
    rw [holds.readAt_eq position count inside]
    exact ⟨state, rfl, start⟩

/-- A file reads as the content that it has, while it has it. -/
theorem shows_file (path : String) (number : Nat) (content : Bytes) :
    (Section.whole (Source.ofFile path number) content.size).Shows
      (fun files => files.content number = content) content where
  size_eq := rfl
  readAt position count inside files start := by
    refine ⟨files, ?_, start⟩
    rw [readAt_of_le _ inside]
    by_cases empty : count = 0
    · rw [if_pos empty, empty, Bytes.slice_zero]
      rfl
    · rw [if_neg empty]
      simp only [whole, Source.ofFile, Nat.zero_add]
      rw [Action.run_bind, Action.run_state]
      simp only [start]
      rw [if_neg (Nat.not_lt_of_le inside)]
      rfl

/-- A slice reads as that range of the content. -/
theorem Shows.slice (shows : part.Shows kind content) {start stop : Nat}
    (sliced : part.slice start stop = .ok view) :
    view.Shows kind (content.extract start stop) := by
  obtain ⟨⟨order, within⟩, rfl⟩ := slice_eq_ok_iff.mp sliced
  rw [shows.size_eq] at within
  have same : content.extract start stop = content.slice start (stop - start) := by
    rw [Bytes.slice, Nat.add_sub_cancel' order]
  have size : (content.slice start (stop - start)).size = stop - start := by
    rw [Bytes.size_slice]
    omega
  rw [same]
  refine ⟨size.symm, fun position count inside state kept => ?_⟩
  rw [size] at inside
  rw [readAt_moved part (by rw [shows.size_eq]; omega) inside, Bytes.slice_slice content inside]
  exact shows.readAt _ _ (by omega) state kept

/-- A section of the first part of a state reads in the whole as it does there. -/
theorem readAt_within_fst (part : Section σ) {position count : Nat}
    (inside : position + count ≤ part.size) :
    (part.within (.fst : Place (σ × τ) σ)).readAt position count =
      (part.readAt position count).within .fst := by
  have same : (part.within (.fst : Place (σ × τ) σ)).size = part.size := rfl
  rw [readAt_of_le _ (same ▸ inside), readAt_of_le part inside]
  by_cases empty : count = 0
  · rw [if_pos empty, if_pos empty]
    rfl
  · rw [if_neg empty, if_neg empty]
    rfl

end Section

/-- The second part of a state is as given, beside a first part of some kind. -/
def Beside (kind : σ → Prop) (seen : τ) (state : σ × τ) : Prop := kind state.1 ∧ state.2 = seen

theorem Action.predicts_snd {α : Type} (kind : σ → Prop) (action : Action τ α) :
    Action.Predicts (Beside kind) action (action.within .snd) := by
  rintro _ ⟨state, seen⟩ ⟨start, rfl⟩
  exact ⟨rfl, start, rfl⟩

/-- Beside a section that reads as some content, the content in memory predicts it. -/
theorem Section.Shows.agrees {part : Section σ} {kind : σ → Prop} {content : Bytes}
    (shows : part.Shows kind content) :
    Section.Agrees (fun _ => Action.Predicts (Beside kind)) (.ofBytes content : Section τ)
      (part.within .fst) where
  size_eq := shows.size_eq.symm
  readAt position count inside := by
    have inside : position + count ≤ part.size := inside
    have within : position + count ≤ content.size := shows.size_eq ▸ inside
    rintro _ ⟨state, seen⟩ ⟨start, rfl⟩
    obtain ⟨after, ran, kept⟩ := shows.readAt position count within state start
    rw [(Section.holds_ofBytes content).readAt_eq position count within,
      Section.readAt_within_fst part inside, Action.run_within]
    simp only [Place.fst, ran]
    exact ⟨rfl, kept, rfl⟩

/-- What reads as some content while the state is of some kind: bytes in memory, a file while its
content stays, a tree joined from a store while this has the chunks that some chunker has made of the
content, or a slice of one of these. -/
inductive Reader : {σ : Type} → Section σ → (σ → Prop) → Bytes → Prop
  | buffer {σ : Type} (kind : σ → Prop) (content : Bytes) :
      Reader (.ofBytes content : Section σ) kind content
  | file {path : String} {files after : FileSystem} {names : List String} {number : Nat}
      {part : Section FileSystem} (led : files.locate path = .ok (.file names number))
      (opened : (Section.ofFile path).run files = (.ok part, after)) :
      Reader part (fun later => later.content number = files.content number)
        (files.content number)
  | joined {σ : Type} {writer : Chunker} {content : Bytes} {root : Key} {chunks : Array Chunk}
      {store : Store σ} {kind : σ → Prop} {before after : σ} {part : Section σ}
      (split : writer.chunksOf content = .ok (root, chunks))
      (counted : ∀ chunk ∈ chunks, ∀ data, chunk.data = some data → data.size < wordLimit)
      (provides : store.Provides kind chunks) (start : kind before)
      (joined : (writer.join store root).run before = (.ok part, after)) :
      Reader part kind content
  | slice {σ : Type} {part view : Section σ} {kind : σ → Prop} {content : Bytes} {start stop : Nat}
      (whole : Reader part kind content) (sliced : part.slice start stop = .ok view) :
      Reader view kind (content.extract start stop)

/-- Every reader reads as its content. -/
theorem Reader.shows {part : Section σ} {kind : σ → Prop} {content : Bytes}
    (reader : Reader part kind content) : part.Shows kind content := by
  induction reader with
  | buffer kind content => exact (Section.holds_ofBytes content).shows kind
  | @file path files after names number part led opened =>
      rcases Section.run_ofFile path files with ⟨fault, failed⟩ | ⟨_, _, found, ran⟩
      · cases failed.symm.trans opened
      · cases led.symm.trans found
        cases ran.symm.trans opened
        exact Section.shows_file path number _
  | @joined σ writer content root chunks store kind before after part split counted provides start
      joined =>
      obtain ⟨node, size, reads⟩ := Chunker.exists_root_of_provides split counted provides
      obtain ⟨opened, openedRoot, rfl⟩ := Chunker.run_join_eq_ok_iff.mp joined
      obtain ⟨⟨_, ran, -⟩, -⟩ := reads before start
      cases ran.symm.trans openedRoot
      exact ⟨size, fun position count inside state kept => (reads state kept).2 _ _ inside⟩
  | slice whole sliced ih => exact ih.slice sliced

/-- A collector of the second part of a state. -/
def Collector.beside (collect : Collector τ) : Collector (σ × τ) :=
  fun chunk => (collect chunk).within .snd

/-- A collector that writes down, beside its state, every chunk that it has taken. -/
def Collector.logging (collect : Collector σ) : Collector (σ × Array Chunk) := fun chunk => do
  (collect chunk).within .fst
  (record chunk).within .snd

namespace Chunker

/-- While the state is of some kind, splitting a section is splitting its content in memory: any
collector with a state of its own has the same calls with the same chunks, whether it takes them or
not; a collector that shares the state of the section, and keeps it of that kind, takes the chunks of
the content, one after the other; and an archive keeps the section as it keeps its content. -/
structure SplitsAs (chunker : Chunker) (part : Section σ) (kind : σ → Prop) (content : Bytes) :
    Prop where
  apart : ∀ {τ : Type} (collect : Collector τ) (state : σ) (seen : τ), kind state →
    ∃ after, kind after ∧
      (chunker.split (part.within .fst) (some collect.beside)).run (state, seen) =
        (((chunker.split (.ofBytes content) (some collect)).run seen).1, after,
          ((chunker.split (.ofBytes content) (some collect)).run seen).2)
  shared : ∀ root chunks, chunker.chunksOf content = .ok (root, chunks) →
    ∀ collect : Collector σ, (∀ chunk ∈ chunks, ∀ state, kind state → ∃ after,
      (collect chunk).run state = (.ok (), after) ∧ kind after) →
    ∀ state, kind state → ∃ after, kind after ∧
      (chunker.split (part.within .fst) (some collect.logging)).run (state, #[]) =
        (.ok root, after, chunks)
  kept : ∀ {τ : Type} (archive : Archive τ), archive.chunker = chunker →
    ∀ (state : σ) (seen : τ), kind state → ∃ after, kind after ∧
      ((archive.within .snd).keep (part.within .fst)).run (state, seen) =
        (((archive.keepBytes content).run seen).1, after, ((archive.keepBytes content).run seen).2)

variable {chunker : Chunker} {part : Section σ} {kind : σ → Prop} {content : Bytes}

theorem predicts_split (shows : part.Shows kind content) (collect : Collector τ) :
    Action.Predicts (Beside kind) (chunker.split (.ofBytes content) (some collect))
      (chunker.split (part.within .fst) (some collect.beside)) :=
  relates_split (Action.Predicts.compatible _)
    (fun chunk _ => Action.predicts_snd kind (collect chunk)) shows.agrees

/-- Writes down chunks that are among some, and fails with others. -/
def recordAmong (chunks : Array Chunk) : Collector (Array Chunk) := fun chunk =>
  if chunk ∈ chunks then record chunk else throw .foreign

/-- All chunks of some content are among these. -/
theorem run_split_recordAmong {root : Key} {chunks : Array Chunk}
    (split : chunker.chunksOf content = .ok (root, chunks)) :
    (chunker.split (.ofBytes content) (some (recordAmong chunks))).run #[] =
      (.ok root, chunks) := by
  obtain ⟨ends, emitted⟩ := chunksOf_eq_ok_iff_emission.mp split
  have same : (forM (chunker.emission content) (recordAmong chunks) : Action (Array Chunk) PUnit) =
      forM (chunker.emission content) record := by
    apply forM_congr
    intro chunk member
    rw [emitted, Array.mem_toList_iff] at member
    exact if_pos member
  rw [split_ofBytes, same, ← split_ofBytes]
  exact Prod.ext ends (Array.toList_inj.mp emitted)

theorem realizes_split (shows : part.Shows kind content) {chunks : Array Chunk}
    {collect : Collector σ}
    (takes : ∀ chunk ∈ chunks, ∀ state, kind state → ∃ after,
      (collect chunk).run state = (.ok (), after) ∧ kind after) :
    Action.Realizes (Beside kind) (chunker.split (.ofBytes content) (some (recordAmong chunks)))
      (chunker.split (part.within .fst) (some collect.logging)) := by
  refine relates_split (Action.Realizes.compatible _) (fun chunk _ => ?_)
    ⟨shows.agrees.size_eq, fun position count inside =>
      (shows.agrees.readAt position count inside).realizes⟩
  rintro _ ⟨state, seen⟩ ⟨start, rfl⟩ answer left recorded
  by_cases among : chunk ∈ chunks
  · obtain ⟨after, ran, kept⟩ := takes chunk among state start
    rw [recordAmong, if_pos among] at recorded
    cases recorded
    refine ⟨(after, seen.push chunk), ?_, kept, rfl⟩
    rw [Collector.logging, Action.run_bind, Action.run_within]
    simp only [Place.fst, ran]
    rfl
  · rw [recordAmong, if_neg among, Action.run_throw] at recorded
    cases recorded

/-- What reads as some content is split as the content. -/
theorem splitsAs_of_shows (chunker : Chunker) (shows : part.Shows kind content) :
    chunker.SplitsAs part kind content where
  apart collect state seen start := by
    obtain ⟨⟨after, _⟩, ran, kept, rfl⟩ :=
      (predicts_split shows collect).run (state, seen) ⟨start, rfl⟩ rfl
    exact ⟨after, kept, ran⟩
  shared root chunks split collect takes state start := by
    obtain ⟨⟨after, _⟩, ran, kept, rfl⟩ := realizes_split shows takes #[] (state, #[]) ⟨start, rfl⟩
      root chunks (run_split_recordAmong split)
    exact ⟨after, kept, ran⟩
  kept archive same state seen start := by
    subst same
    obtain ⟨⟨after, _⟩, ran, kept, rfl⟩ :=
      (predicts_split shows archive.store.put).run (state, seen) ⟨start, rfl⟩ rfl
    exact ⟨after, kept, ran⟩

/-- **Splitting does not depend on the reader.** Whatever reads as some content is split as the content
in memory, by every chunker and with every collector; and an archive keeps a stream as it keeps what is
left of it.  A file that has the content opens as such a reader; and so does the root key that any
chunker has given the content, over any store that has the chunks, if each of these is a run of bytes
that a word counts, as all that fit in memory are. -/
theorem split_of_reader (chunker : Chunker) (content : Bytes) :
    (∀ {σ : Type} (part : Section σ) (kind : σ → Prop), Reader part kind content →
      chunker.SplitsAs part kind content) ∧
    (∀ {τ : Type} (archive : Archive τ) (stream : InputStream), stream.good = true →
      stream.position ≤ stream.content.size →
      stream.content.extract stream.position stream.content.size = content →
      archive.keepStream stream = archive.keepBytes content) ∧
    (∀ (path : String) (files : FileSystem), files.Holds path content → ∃ part number,
      (Section.ofFile path).run files = (.ok part, files) ∧ files.content number = content ∧
        Reader part (fun later => later.content number = content) content) ∧
    ∀ {σ : Type} (writer : Chunker) (store : Store σ) (kind : σ → Prop) (root : Key)
      (chunks : Array Chunk), writer.chunksOf content = .ok (root, chunks) →
      (∀ chunk ∈ chunks, ∀ data, chunk.data = some data → data.size < wordLimit) →
      store.Provides kind chunks → ∀ before, kind before → ∃ part after,
        (writer.join store root).run before = (.ok part, after) ∧ kind after ∧
          Reader part kind content := by
  refine ⟨fun part kind reader => splitsAs_of_shows chunker reader.shows, ?_, ?_, ?_⟩
  · rintro τ archive stream good inside rfl
    rw [Archive.keepStream, if_pos ⟨good, inside⟩]
  · rintro path files ⟨names, number, led, rfl⟩
    rcases Section.run_ofFile path files with ⟨fault, failed⟩ | ⟨_, _, found, opened⟩
    · rw [Section.ofFile, Action.run_bind, Action.run_state] at failed
      simp only [led] at failed
      cases failed
    · cases led.symm.trans found
      exact ⟨_, number, opened, rfl, .file led opened⟩
  · intro σ writer store kind root chunks split counted provides before start
    obtain ⟨node, -, reads⟩ := exists_root_of_provides split counted provides
    obtain ⟨⟨after, opened, kept⟩, -⟩ := reads before start
    have joined := run_join_eq_ok_iff.mpr ⟨node, opened, rfl⟩
    exact ⟨_, after, joined, kept, .joined split counted provides start joined⟩

/-- Four of five bytes, in a slice of a tree joined from its chunks, are split as they are in memory. -/
theorem split_of_reader_of_slice :
    ∃ part view, (tiny.join (Store.answering (Answers.among (tinyLeaves ++ [tinyRoot]).toArray))
          tinyRoot.key).run () = (.ok part, ()) ∧
      part.slice 1 5 = .ok view ∧
      (tiny.split (view.within .fst) (some record.beside)).run ((), #[]) =
        (.ok ⟨#[22]⟩, (), #[⟨⟨#[18]⟩, some #[4, 0, 0, 0, 0, 0, 0, 0, 2, 3, 4, 5], 4⟩,
          ⟨⟨#[22]⟩, some #[4, 0, 0, 0, 0, 0, 0, 0, 18], 4⟩]) := by
  have split : tiny.chunksOf #[1, 2, 3, 4, 5] =
      .ok (tinyRoot.key, (tinyLeaves ++ [tinyRoot]).toArray) := by
    decide +kernel
  have counted : ∀ chunk ∈ (tinyLeaves ++ [tinyRoot]).toArray, ∀ data, chunk.data = some data →
      data.size < wordLimit := by
    have each : ∀ chunk ∈ tinyLeaves ++ [tinyRoot], ∀ data ∈ chunk.data,
        data.size < wordLimit := by
      decide
    exact fun chunk member => each chunk (List.mem_toArray.mp member)
  have provides : (Store.answering (Answers.among (tinyLeaves ++ [tinyRoot]).toArray) :
      Store Unit).Provides (fun _ => True) (tinyLeaves ++ [tinyRoot]).toArray :=
    Store.provides_answering_among (by decide +kernel)
  obtain ⟨-, -, -, joins⟩ := split_of_reader tiny #[1, 2, 3, 4, 5]
  obtain ⟨part, after, joined, -, reader⟩ :=
    joins tiny _ _ _ _ split counted provides () trivial
  have sliced : part.slice 1 5 = .ok ⟨part.source, part.start + 1, 5 - 1⟩ :=
    Section.slice_eq_ok_iff.mpr ⟨⟨by decide, reader.shows.size_eq.ge⟩, rfl⟩
  obtain ⟨same, -⟩ := split_of_reader tiny (Array.extract #[1, 2, 3, 4, 5] 1 5)
  obtain ⟨⟨⟩, -, ran⟩ := (same _ _ (.slice reader sliced)).apart record () #[] trivial
  refine ⟨part, _, joined, sliced, ran.trans ?_⟩
  decide +kernel

end Chunker

end ChunkTree
