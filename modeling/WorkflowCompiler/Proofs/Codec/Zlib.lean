import WorkflowCompiler.Codec.Zlib
import WorkflowCompiler.Proofs.Codec.Deflate

/-!
Compression loses nothing (`decompress_compress`): the blocks of a stream give the bytes
they were made of, and the checksum behind them, which begins at a whole byte, is theirs.
-/
namespace WorkflowCompiler.Codec

theorem decompress_compress (bs : List UInt8) : decompress (compress bs) = some bs := by
  have whole : (bitsOfBytes (bytesOfWord (adler bs))).length % 8 = 0 := by
    rw [length_bitsOfBytes]
    exact Nat.mul_mod_right 8 _
  obtain ⟨padding, short, inflated⟩ := inflate_deflate bs whole
  have sum := readBytes_bitsOfBytes (bytesOfWord (adler bs)) []
  rw [List.append_nil] at sum
  have header : acceptsHeader (0x78 : UInt8).toNat (0x9C : UInt8).toNat = true := by decide
  rw [← bitsOfBytes_append] at inflated
  rw [compress, List.cons_append, List.cons_append, decompress, if_pos header, inflated]
  dsimp only
  rw [alignToByte_append short whole]
  have count : (bytesOfWord (adler bs)).length = 4 := rfl
  rw [count] at sum
  simp only [sum, if_true]

end WorkflowCompiler.Codec
