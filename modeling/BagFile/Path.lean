/-
  Names of files.

  * `Path.ofText` reads a name as a way through directories; "." and empty parts lead nowhere
    and are left out, and a name that ends in one of them, or in "..", must be a directory's;
  * two names with one `Path` name one file;
  * `Path.isFileName` says which names a file can have: there is a bound on the bytes of a name
    and of its parts.
-/

namespace BagFile

/-- A way through directories. -/
structure Path where
  /-- from the root, and not from the working directory -/
  absolute : Bool
  parts : List String
  deriving DecidableEq

namespace Path

/-- The working directory. -/
def here : Path := ⟨false, []⟩

/-- Whether a part of a name leads nowhere. -/
def isIdle (part : String) : Bool := part = "" || part = "."

/-- The way that a name stands for. -/
def ofText (name : String) : Path :=
  let parts := name.splitOn "/"
  ⟨1 < parts.length && parts.head? = some "", parts.filter fun p => !isIdle p⟩

/-- Whether a name can only be that of a directory. -/
def isDirectory (name : String) : Bool :=
  (name.splitOn "/").getLast?.any fun p => isIdle p || p = ".."

/-- The most bytes of a name. -/
def maxBytes : Nat := 4095

/-- The most bytes of a part of a name. -/
def maxPartBytes : Nat := 255

/-- Whether something can have this name: it and its parts are short enough, and no character
    is NUL. -/
def isAllowed (name : String) : Bool :=
  name.utf8ByteSize ≤ maxBytes && name.toList.all (·.toNat ≠ 0) &&
    (name.splitOn "/").all (·.utf8ByteSize ≤ maxPartBytes)

/-- Whether a file can have this name. -/
def isFileName (name : String) : Bool := isAllowed name && !isDirectory name

/-- The directory that a file is in. -/
def parent (p : Path) : Path := ⟨p.absolute, p.parts.dropLast⟩

end Path

end BagFile
