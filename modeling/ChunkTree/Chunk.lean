import ChunkTree.Fault

/-!
# Chunks

A chunk is a keyed run of bytes.  Its data starts with a header, the number of content bytes that
the chunk covers; behind it stand that content, in a leaf, or the keys of children, in a node.
-/

namespace ChunkTree

/-- A chunk, or, without data, the request for one. -/
structure Chunk where
  key : Key
  data : Option Bytes
  /-- The length of the content covered, which is not that of the data. -/
  size : UInt64
deriving DecidableEq

/-- The request for the chunk under a key. -/
def Chunk.request (key : Key) : Chunk := ⟨key, none, 0⟩

/-- Whether this is a request. -/
def Chunk.isRequest (chunk : Chunk) : Bool := chunk.data.isNone

namespace Header

/-- The number of bytes that a header takes. -/
def length : Nat := 8

/-- A size as a header: eight bytes, the lowest first. -/
def encode (size : UInt64) : Bytes := Bytes.ofWord size

/-- A buffer of at least eight bytes with the size written over its start. -/
def stamp (size : UInt64) (buffer : Bytes) : Bytes := buffer.overlay (encode size) 0

/-- The size at the start of a chunk's data. -/
def decode (data : Bytes) : Except Fault UInt64 :=
  if data.size < length then .error (.noSizeHeader data.size)
  else .ok (Bytes.toWord (data.extract 0 length))

@[simp]
theorem size_encode (size : UInt64) : (encode size).size = length :=
  Bytes.size_ofWord size

/-- What follows a header does not matter to reading it. -/
@[simp]
theorem decode_encode_append (size : UInt64) (body : Bytes) :
    decode (encode size ++ body) = .ok size := by
  have whole : (encode size ++ body).extract 0 length = encode size := by
    rw [← size_encode size, Array.extract_append, Nat.sub_self, Nat.zero_sub]
    simp
  have long : ¬ (encode size ++ body).size < length := by simp
  rw [decode, if_neg long, whole, encode, Bytes.toWord_ofWord]

end Header

end ChunkTree
