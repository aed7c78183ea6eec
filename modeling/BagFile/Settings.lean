/-
  What a caller may choose about recording and reading.

  * `Settings.default` are the choices where none are made;
  * `Settings.check` refuses a threshold that no chunk could stay below.
-/
import BagFile.Compression

namespace BagFile

/-- Choices about recording and reading. -/
structure Settings where
  /-- the compression of chunks that the recorder opens by itself -/
  compression : Compression
  /-- the size at which the recorder closes a chunk by itself -/
  chunkThreshold : UInt64
  /-- whether a bag keeps the chunks that it has decompressed -/
  cacheChunks : Bool
  deriving DecidableEq

namespace Settings

/-- No compression, chunks of 768 KiB, and chunks kept. -/
def default : Settings := ⟨.none, 768 * 1024, true⟩

/-- Refuses settings that cannot be used. -/
def check (s : Settings) : Except Error Unit :=
  if s.chunkThreshold = 0 then .error .zeroThreshold else .ok ()

end Settings

end BagFile
