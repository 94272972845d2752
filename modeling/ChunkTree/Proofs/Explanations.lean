import ChunkTree.Proofs.Depths
import ChunkTree.Proofs.Durability
import ChunkTree.Proofs.Fetching
import ChunkTree.Proofs.HostileStores
import ChunkTree.Proofs.KeyTexts
import ChunkTree.Shell

/-!
# Faults with a message

Only a store can fail without a message: every fault that is found in splitting, opening, reading or
streaming says what is wrong.  So over a store that explains itself (`Store.Explains`) everything the
shell does is explained (`Archive.avoids_keepAllowed`, `Archive.avoids_readToAllowed`), whatever the
files and chunks are.  Memory in front of the disk is such a store (`Program.store_explains`).
-/

namespace ChunkTree

variable {σ τ : Type}

/-- The store never fails without a message. -/
structure Store.Explains (store : Store σ) : Prop where
  put : ∀ chunk, (store.put chunk).Avoids .foreign
  get : ∀ key, (store.get key).Avoids .foreign

theorem Store.Explains.within {store : Store τ} (explains : store.Explains) (place : Place σ τ) :
    (store.within place).Explains where
  put chunk := (explains.put chunk).within place
  get key := (explains.get key).within place

namespace Chunker

variable {chunker : Chunker}

theorem checkLength_ne_foreign (key : Key) (data : Bytes) (shape : Shape) (size : Nat) :
    chunker.checkLength key data shape size ≠ .error .foreign := by
  intro failed
  rcases checkLength_eq_error failed with unlaid | ⟨expected, same⟩
  · obtain ⟨branches, same⟩ := dataLength_eq_error unlaid
    cases same
  · cases same

theorem accept_ne_foreign (key : Key) (data : Bytes) (shape : Shape) (size : Nat) :
    chunker.accept key data shape size ≠ .error .foreign := by
  intro failed
  rcases accept_eq_error failed with same | ⟨claimed, same⟩ | length
  · cases same
  · cases same
  · exact checkLength_ne_foreign _ _ _ _ length

theorem rootOf_ne_foreign (key : Key) (data : Bytes) :
    chunker.rootOf key data ≠ .error .foreign := by
  intro failed
  rcases rootOf_eq_error failed with same | ⟨size, same⟩ | ⟨size, shape, -, length⟩
  · cases same
  · cases same
  · exact checkLength_ne_foreign _ _ _ _ length

/-- Content is too large for any shape, or has one. -/
theorem shapeOf_ne_foreign (size : Nat) : chunker.shapeOf size ≠ .error .foreign := by
  unfold shapeOf
  fun_induction Shape.cover chunker.branches size ⟨0, chunker.chunkSize⟩ with
  | case1 => simp
  | case2 start short fits grows ih => exact ih
  | case3 => simp
  | case4 => simp

section Reading

variable {store : Store σ} (gets : ∀ key, (store.get key).Avoids .foreign)
include gets

theorem avoids_fetch (key : Key) : (chunker.fetch store key).Avoids .foreign := by
  apply Action.avoids_iff_ends.mpr
  apply ends_fetch_of_any
  · rintro _ reading rfl
    exact reading
  · intro key
    exact Action.avoids_iff_ends.mp (gets key)

theorem avoids_fetchBranch (key : Key) (shape : Shape) (size : Nat) :
    (chunker.fetchBranch store key shape size).Avoids .foreign := by
  refine (avoids_fetch gets key).bind fun data => ?_
  exact (Action.Avoids.lift (accept_ne_foreign key data shape size)).bind fun _ => .pure data

theorem avoids_readNode (depth window : Nat) (data : Bytes) (size position count : Nat) :
    (chunker.readNode store depth window data size position count).Avoids .foreign := by
  induction depth generalizing window data size position count with
  | zero => exact .pure _
  | succ depth ih =>
      by_cases short : size < window
      · rw [readNode_of_lt short]
        exact ih _ _ _ _ _
      rw [readNode_of_le (Nat.le_of_not_lt short)]
      by_cases cut : data.size <
          Header.length + ((position + count - 1) / window + 1) * chunker.keySize
      · rw [if_pos cut]
        exact .throw (by simp)
      · rw [if_neg cut]
        refine Action.Avoids.bind (.mapM fun index _ => ?_) fun parts => .pure _
        exact (avoids_fetchBranch gets _ _ _).bind fun branch => ih _ _ _ _ _

theorem avoids_openRoot (key : Key) : (chunker.openRoot store key).Avoids .foreign :=
  (avoids_fetch gets key).bind fun data => .lift (rootOf_ne_foreign key data)

end Reading

end Chunker

theorem Allowance.avoids_check (allowance : Allowance) (size : Nat) :
    (allowance.check size : Action σ Unit).Avoids .foreign := by
  cases allowance with
  | none => exact .pure ()
  | some most =>
      rw [check]
      by_cases fits : size ≤ most
      · rw [if_pos fits]
        exact .pure ()
      rw [if_neg fits]
      by_cases counted : size ≤ longestRun
      · rw [if_pos counted]
        exact .throw (by decide)
      · rw [if_neg counted]
        exact .throw (by decide)

/-- A read that leaves the section says so; any other asks the source. -/
theorem Section.avoids_readAt {part : Section σ}
    (reads : ∀ start count, (part.source start count).Avoids .foreign) (position count : Nat) :
    (part.readAt position count).Avoids .foreign := by
  rw [readAt]
  by_cases outside : part.size < position ∨ part.size - position < count
  · rw [if_pos outside]
    exact .throw (by simp)
  rw [if_neg outside]
  by_cases nothing : count = 0
  · rw [if_pos nothing]
    exact .pure #[]
  · rw [if_neg nothing]
    exact reads _ _

/-- A file that got shorter is named. -/
theorem Source.avoids_ofFile (path : String) (number start count : Nat) :
    (Source.ofFile path number start count).Avoids .foreign := by
  intro files
  rw [ofFile, Action.run_bind, Action.run_state]
  simp only
  by_cases short : (files.content number).size < start + count
  · rw [if_pos short]
    simp
  · rw [if_neg short]
    simp

/-- Opening a file fails with the path, and so does reading it. -/
theorem Section.avoids_ofFile (path : String) : (Section.ofFile path).Avoids .foreign ∧
    ∀ before part after, (Section.ofFile path).run before = (.ok part, after) →
      ∀ start count, (part.source start count).Avoids .foreign := by
  constructor
  · intro files
    rw [ofFile, Action.run_bind, Action.run_state]
    rcases led : files.locate path with reason | (names | ⟨names, number⟩ | names)
    · simp [led]
    · simp [led]
    · simp [led]
    · simp [led]
  · intro files part after opened start count
    rcases run_ofFile path files with ⟨fault, failed⟩ | ⟨names, number, -, ran⟩
    · rw [failed] at opened
      cases opened
    rw [ran] at opened
    obtain ⟨same, -⟩ := Prod.mk.inj opened
    obtain rfl := Except.ok.inj same
    exact Source.avoids_ofFile path number start count

namespace Archive

variable {archive : Archive σ}

/-- Keeping what can be read is explained. -/
theorem avoids_keepAllowed (explains : archive.store.Explains) {part : Section σ}
    (reads : ∀ start count, (part.source start count).Avoids .foreign) (allowance : Allowance) :
    (archive.keepAllowed allowance part).Avoids .foreign := by
  have shaped : (Action.lift (archive.chunker.shapeOf part.size) : Action σ Shape).Avoids .foreign :=
    .lift (Chunker.shapeOf_ne_foreign part.size)
  refine Action.Avoids.bind ?_ fun _ => shaped.bind fun shape => ?_
  · exact shaped.bind fun _ => allowance.avoids_check _
  · exact Chunker.avoids_splitAt (by decide) reads explains.put _ _

theorem avoids_copy {part : Section σ}
    (reads : ∀ start count, (part.source start count).Avoids .foreign) {sink : Sink σ}
    (takes : ∀ bytes, (sink bytes).Avoids .foreign) (width pieces position : Nat) :
    (copy part sink width pieces position).Avoids .foreign := by
  induction pieces generalizing position with
  | zero => exact .pure position
  | succ pieces ih =>
      refine (Section.avoids_readAt reads _ _).bind fun bytes => ?_
      refine (takes bytes).bind fun more => ?_
      cases more with
      | true => exact ih _
      | false => exact .throw (by decide)

section Reading

variable (gets : ∀ key, (archive.store.get key).Avoids .foreign)
include gets

theorem avoids_openAt (root : Key) : (archive.openAt root).Avoids .foreign :=
  (Chunker.avoids_openRoot gets root).bind fun _ => .pure _

/-- Writing what is under a root key is explained if the target is. -/
theorem avoids_readToAllowed (root : Key) {sink : Sink σ}
    (takes : ∀ bytes, (sink bytes).Avoids .foreign) (allowance : Allowance) :
    (archive.readToAllowed allowance root sink).Avoids .foreign := by
  refine Action.Avoids.bind_of_ok (avoids_openAt gets root) fun before part after opened => ?_
  obtain ⟨node, -, rfl⟩ := Chunker.run_join_eq_ok_iff.mp opened
  refine (allowance.avoids_check _).bind fun _ => ?_
  exact avoids_copy (fun _ _ => Chunker.avoids_readNode gets _ _ _ _ _ _) takes _ _ _

end Reading

end Archive

namespace Program

/-- A file that is no chunk, or none that can be read, is reported as such. -/
theorem tierAnswers_ne_foreign (base : String) (state : State) (key : Key) :
    tierAnswers base state key ≠ .error .foreign := by
  rw [tierAnswers]
  cases state.1.1[key]? with
  | some chunk => simp
  | none =>
      simp only [Disk.run_get]
      rcases state.1.2.locate (Disk.pathOf base key) with reason | (names | ⟨names, number⟩ | names)
      · cases reason <;> simp [Disk.answer]
      · simp [Disk.answer]
      · rw [Disk.answer]
        cases decoded : Header.decode (state.1.2.content number) with
        | ok size => simp
        | error fault =>
            obtain rfl := Header.eq_of_decode_eq_error decoded
            simp
      · simp [Disk.answer]

/-- Memory in front of the disk explains itself, whatever is in memory and in the files. -/
theorem store_explains (base : String) :
    (Tiered.store fastTier (durableTier base)).Explains where
  put chunk := by
    intro state
    have ran : ((Tiered.store fastTier (durableTier base)).put chunk).run state = _ :=
      Tiered.run_put_inFront chunk state
    rw [ran]
    by_cases request : chunk.isRequest
    · rw [if_pos request]
      simp
    · rw [if_neg request]
      simp
  get key := by
    intro state
    rw [run_get]
    exact tierAnswers_ne_foreign base state key

end Program

end ChunkTree
