import ChunkTree.Join
import ChunkTree.Proofs.Pieces
import ChunkTree.Proofs.Windows

/-!
# What accepted data looks like

The reader accepts data for a place in a tree if the data states the size that goes with the place
and is as long as a chunk of that size (`Chunker.Fits`).  Then nothing in it is free: it is the
header of the size with exactly the content of a leaf behind it (`Chunker.Fits.leaf`), or with
exactly the keys of the branches of a node (`Chunker.Fits.node`).
-/

namespace ChunkTree

namespace Bytes

theorem ofLowDigits_lt (digits : List UInt8) : ofLowDigits digits < 256 ^ digits.length := by
  induction digits with
  | nil => exact Nat.one_pos
  | cons digit rest ih =>
      have low := digit.toNat_lt
      rw [ofLowDigits, List.length_cons, Nat.pow_succ]
      omega

/-- Digits are the digits of the number that they make. -/
theorem lowDigits_ofLowDigits (digits : List UInt8) :
    lowDigits digits.length (ofLowDigits digits) = digits := by
  induction digits with
  | nil => rfl
  | cons digit rest ih =>
      have low := digit.toNat_lt
      have first : UInt8.ofNat (digit.toNat + 256 * ofLowDigits rest) = digit := by
        apply UInt8.toNat_inj.mp
        rw [UInt8.toNat_ofNat']
        omega
      have others : (digit.toNat + 256 * ofLowDigits rest) / 256 = ofLowDigits rest := by
        omega
      rw [List.length_cons, ofLowDigits, lowDigits, first, others, ih]

theorem ofWord_toWord {bytes : Bytes} (length : bytes.size = 8) :
    ofWord (toWord bytes) = bytes := by
  have digits : bytes.toList.length = 8 := by rw [Array.length_toList, length]
  have bound := ofLowDigits_lt bytes.toList
  rw [digits] at bound
  have same := lowDigits_ofLowDigits bytes.toList
  rw [digits] at same
  rw [ofWord, toWord, UInt64.toNat_ofNat_of_lt' (Nat.lt_of_lt_of_le bound (by decide)), same,
    Array.toArray_toList]

end Bytes

/-- Data that states a size starts with the header of that size, byte for byte. -/
theorem Header.eq_encode_append_of_decode {data : Bytes} {size : UInt64}
    (header : decode data = .ok size) : ∃ body, data = encode size ++ body := by
  rw [decode] at header
  by_cases short : data.size < length
  · rw [if_pos short] at header
    cases header
  · rw [if_neg short, Except.ok.injEq] at header
    have long : (data.extract 0 length).size = 8 := by
      simp only [Array.size_extract, length] at short ⊢
      omega
    refine ⟨data.extract length data.size, ?_⟩
    rw [encode, ← header, Bytes.ofWord_toWord long, Array.extract_append_extract,
      Nat.min_eq_left (Nat.zero_le _), Nat.max_eq_right (Nat.le_of_not_lt short),
      Array.extract_size]

theorem Header.eq_of_decode_eq_error {data : Bytes} {fault : Fault}
    (failed : decode data = .error fault) : fault = .noSizeHeader data.size := by
  rw [decode] at failed
  by_cases short : data.size < length
  · rw [if_pos short, Except.error.injEq] at failed
    exact failed.symm
  · rw [if_neg short] at failed
    cases failed

namespace Chunker

variable (chunker : Chunker)

/-- The keys of a node stand one after the other behind its header. -/
theorem branchKey_encode_append (size : UInt64) (body : Bytes) (index : Nat) :
    chunker.branchKey (Header.encode size ++ body) index =
      ⟨body.piece chunker.keySize index⟩ := by
  rw [branchKey, ← Header.size_encode size, Bytes.slice_append_right, Bytes.piece]

/-- The data states this size and is as long as the data of a chunk of this shape over it. -/
def Fits (key : Key) (data : Bytes) (shape : Shape) (size : Nat) : Prop :=
  (∃ claimed, Header.decode data = .ok claimed ∧ claimed.toNat = size) ∧
    chunker.checkLength key data shape size = .ok ()

variable {chunker}

theorem checkLength_eq_ok_iff {key : Key} {data : Bytes} {shape : Shape} {size : Nat} :
    chunker.checkLength key data shape size = .ok () ↔
      chunker.dataLength key shape size = .ok data.size := by
  unfold checkLength
  cases chunker.dataLength key shape size with
  | error fault => simp [bind, Except.bind]
  | ok expected =>
      by_cases same : data.size = expected
      · simp [bind, Except.bind, same]
      · simp [bind, Except.bind, same, Ne.symm same]

/-- Only a digest of another length is no key. -/
theorem keyOf_eq_error {data : Bytes} {fault : Fault} (failed : chunker.keyOf data = .error fault) :
    fault = .digestLength := by
  unfold keyOf at failed
  by_cases long : (chunker.hasher.digest data).size = chunker.keySize
  · simp only [long, ↓reduceIte] at failed
    cases failed
  · simp only [long, ↓reduceIte, Except.error.injEq] at failed
    exact failed.symm

/-- Only for the number of branches is there no length to compare with. -/
theorem dataLength_eq_error {key : Key} {shape : Shape} {size : Nat} {fault : Fault}
    (failed : chunker.dataLength key shape size = .error fault) :
    ∃ branches, fault = .branchesMismatch key size branches := by
  unfold dataLength at failed
  by_cases leaf : shape.depth = 0
  · rw [if_pos leaf] at failed
    cases failed
  · rw [if_neg leaf] at failed
    by_cases outside : branchCount shape.window size = 0 ∨
        chunker.branches < branchCount shape.window size
    · simp only [outside, ↓reduceIte, Except.error.injEq] at failed
      exact ⟨_, failed.symm⟩
    · simp only [outside, ↓reduceIte] at failed
      cases failed

/-- A check of a length fails for want of a length to compare with, or for another length. -/
theorem checkLength_eq_error {key : Key} {data : Bytes} {shape : Shape} {size : Nat} {fault : Fault}
    (failed : chunker.checkLength key data shape size = .error fault) :
    chunker.dataLength key shape size = .error fault ∨
      ∃ expected, fault = .lengthMismatch key data.size expected := by
  unfold checkLength at failed
  cases known : chunker.dataLength key shape size with
  | error other =>
      rw [known] at failed
      cases failed
      exact .inl rfl
  | ok expected =>
      rw [known] at failed
      by_cases same : data.size = expected
      · simp [bind, Except.bind, same] at failed
      · simp only [bind, Except.bind, same, ↓reduceIte, Except.error.injEq] at failed
        exact .inr ⟨expected, failed.symm⟩

theorem accept_eq_ok_iff {key : Key} {data : Bytes} {shape : Shape} {size : Nat} :
    chunker.accept key data shape size = .ok () ↔ chunker.Fits key data shape size := by
  unfold accept Fits
  cases Header.decode data with
  | error fault => simp [bind, Except.bind]
  | ok claimed =>
      by_cases same : claimed.toNat = size
      · simp [bind, Except.bind, same]
      · simp [bind, Except.bind, same, throw, throwThe, MonadExceptOf.throw]

/-- Data is refused for its header, for the size in it, or for its length. -/
theorem accept_eq_error {key : Key} {data : Bytes} {shape : Shape} {size : Nat} {fault : Fault}
    (failed : chunker.accept key data shape size = .error fault) :
    fault = .noSizeHeader data.size ∨ (∃ claimed, fault = .sizeMismatch key claimed size) ∨
      chunker.checkLength key data shape size = .error fault := by
  unfold accept at failed
  cases header : Header.decode data with
  | error other =>
      rw [header] at failed
      cases failed
      exact .inl (Header.eq_of_decode_eq_error header)
  | ok claimed =>
      rw [header] at failed
      by_cases same : claimed.toNat = size
      · simp only [bind, Except.bind, same, ↓reduceIte] at failed
        exact .inr (.inr failed)
      · simp only [bind, Except.bind, same, ↓reduceIte] at failed
        cases failed
        exact .inr (.inl ⟨_, rfl⟩)

/-- A root is refused for its header, for a size that has no shape, or for its length. -/
theorem rootOf_eq_error {key : Key} {data : Bytes} {fault : Fault}
    (failed : chunker.rootOf key data = .error fault) :
    fault = .noSizeHeader data.size ∨ (∃ size, fault = .impossibleSize key size) ∨
      ∃ size shape, chunker.shapeOf size = .ok shape ∧
        chunker.checkLength key data (shape.normalize chunker.branches size) size =
          .error fault := by
  unfold rootOf at failed
  cases header : Header.decode data with
  | error other =>
      rw [header] at failed
      cases failed
      exact .inl (Header.eq_of_decode_eq_error header)
  | ok claimed =>
      rw [header] at failed
      cases covered : chunker.shapeOf claimed.toNat with
      | error other =>
          simp only [bind, Except.bind, covered] at failed
          cases failed
          exact .inr (.inl ⟨_, rfl⟩)
      | ok shape =>
          simp only [bind, Except.bind, covered] at failed
          refine .inr (.inr ⟨_, shape, covered, ?_⟩)
          cases checked : chunker.checkLength key data
              (shape.normalize chunker.branches claimed.toNat) claimed.toNat with
          | error other =>
              rw [checked] at failed
              cases failed
              rfl
          | ok _ =>
              rw [checked] at failed
              cases failed

/-- A root has the shape of the size that its data states, and its data fits. -/
theorem rootOf_eq_ok_iff {key : Key} {data : Bytes} {root : Root} :
    chunker.rootOf key data = .ok root ↔
      root.data = data ∧ chunker.shapeOf root.size = .ok root.shape ∧
        chunker.Fits key data (root.shape.normalize chunker.branches root.size) root.size := by
  rcases root with ⟨held, size, shape⟩
  unfold rootOf Fits
  cases Header.decode data with
  | error fault => simp [bind, Except.bind]
  | ok claimed =>
      simp only [bind, Except.bind, Except.ok.injEq, exists_eq_left']
      cases fits : chunker.shapeOf claimed.toNat with
      | error fault =>
          simp only [throw, throwThe, MonadExceptOf.throw, reduceCtorEq, false_iff]
          rintro ⟨-, covered, rfl, -⟩
          rw [fits] at covered
          cases covered
      | ok other =>
          simp only
          cases checked : chunker.checkLength key data
              (other.normalize chunker.branches claimed.toNat) claimed.toNat with
          | error fault =>
              simp only [reduceCtorEq, false_iff]
              rintro ⟨-, covered, rfl, fine⟩
              rw [fits, Except.ok.injEq] at covered
              rw [← covered, checked] at fine
              cases fine
          | ok _ =>
              simp only [pure, Except.pure, Except.ok.injEq, Root.mk.injEq]
              constructor
              · rintro ⟨rfl, rfl, rfl⟩
                exact ⟨rfl, fits, rfl, checked⟩
              · rintro ⟨rfl, covered, rfl, -⟩
                rw [fits, Except.ok.injEq] at covered
                exact ⟨rfl, rfl, covered⟩

/-- A length that wraps around is too short for a header, so a length that is accepted is the true
one. -/
private theorem Fits.split {key : Key} {data : Bytes} {shape : Shape} {size width : Nat}
    (fits : chunker.Fits key data shape size) (small : width < wordLimit)
    (length : data.size = (Header.length + width) % wordLimit) :
    ∃ body, data = Header.encode (UInt64.ofNat size) ++ body ∧ body.size = width := by
  obtain ⟨⟨claimed, header, rfl⟩, -⟩ := fits
  obtain ⟨body, rfl⟩ := Header.eq_encode_append_of_decode header
  refine ⟨body, by rw [UInt64.ofNat_toNat], ?_⟩
  simp only [Array.size_append, Header.size_encode, Header.length, wordLimit] at length small ⊢
  omega

theorem Fits.lt_wordLimit {key : Key} {data : Bytes} {shape : Shape} {size : Nat}
    (fits : chunker.Fits key data shape size) : size < wordLimit := by
  obtain ⟨⟨claimed, -, rfl⟩, -⟩ := fits
  exact Nat.lt_of_lt_of_le claimed.toNat_lt (by decide)

/-- Data accepted for a leaf is a header and the content of the leaf. -/
theorem Fits.leaf {key : Key} {data : Bytes} {window size : Nat}
    (fits : chunker.Fits key data ⟨0, window⟩ size) :
    ∃ body, data = Header.encode (UInt64.ofNat size) ++ body ∧ body.size = size := by
  have length := checkLength_eq_ok_iff.mp fits.2
  rw [dataLength, if_pos rfl, Except.ok.injEq] at length
  exact fits.split fits.lt_wordLimit length.symm

/-- Data accepted for a node is a header and one key for every branch. -/
theorem Fits.node (small : chunker.keySize * chunker.branches < wordLimit) {key : Key}
    {data : Bytes} {depth window size : Nat}
    (fits : chunker.Fits key data ⟨depth + 1, window⟩ size) :
    ∃ body, data = Header.encode (UInt64.ofNat size) ++ body ∧
      body.size = branchCount window size * chunker.keySize := by
  have length := checkLength_eq_ok_iff.mp fits.2
  rw [dataLength, if_neg (Nat.succ_ne_zero depth)] at length
  by_cases outside : branchCount window size = 0 ∨ chunker.branches < branchCount window size
  · simp only [outside, ↓reduceIte] at length
    cases length
  · simp only [outside, ↓reduceIte, Except.ok.injEq] at length
    refine fits.split (Nat.lt_of_le_of_lt ?_ small) length.symm
    rw [Nat.mul_comm chunker.keySize]
    exact Nat.mul_le_mul_right _ (by omega)

end Chunker

end ChunkTree
