import ChunkTree.Fault

/-!
# Keys in text

Reading a key from hexadecimal digits.  An odd length is the fault reported, whatever the
characters are; a key written in digits reads back.
-/

namespace ChunkTree.Key

/-- The key written in these digits, of either case.  The length is counted in bytes of UTF-8. -/
def ofHex (text : String) : Except Fault Key :=
  if text.utf8ByteSize % 2 ≠ 0 then .error (.oddHex text.utf8ByteSize)
  else match Hex.decode? text.toList with
    | some bytes => .ok ⟨bytes.toArray⟩
    | none => .error (.notHex text)

end ChunkTree.Key
