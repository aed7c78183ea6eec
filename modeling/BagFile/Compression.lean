/-
  How the contents of a chunk are stored.

  * `Compression` is known by name (`Compression.name`, `Compression.ofName`); a name that is
    not understood is kept, so that a bag with such chunks can still be opened;
  * `Compression.parse` accepts the known names only.
-/
import BagFile.Error

namespace BagFile

/-- How the contents of a chunk are stored. -/
inductive Compression where
  | none
  | bz2
  | lz4
  /-- a name that is not understood -/
  | other (name : String)
  deriving DecidableEq, Inhabited

namespace Compression

/-- The name written in a chunk's header. -/
def name : Compression → String
  | none => "none"
  | bz2 => "bz2"
  | lz4 => "lz4"
  | other n => n

/-- The compression of a name. -/
def ofName (n : String) : Compression :=
  if n = "none" then none
  else if n = "bz2" then bz2
  else if n = "lz4" then lz4
  else other n

/-- The compression of a known name. -/
def parse (n : String) : Except Error Compression :=
  match ofName n with
  | other n => .error (.unsupportedCompression n)
  | c => .ok c

theorem name_ofName (n : String) : (ofName n).name = n := by
  unfold ofName
  split
  · simp_all [name]
  · split
    · simp_all [name]
    · split <;> simp_all [name]

end Compression

end BagFile
