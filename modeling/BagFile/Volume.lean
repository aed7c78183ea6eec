/-
  Named files.

  * A `Volume` has directories, and names for files.  A file is known by its number once it is
    open: it stays when its name is removed, and a name made anew stands for the same file, now
    empty, as long as the name is there;
  * opening and creating by name fail for directories, in directories that are not there, and
    for names that no file can have;
  * a name always stands for a file (`Volume.named`).
-/
import BagFile.Error
import BagFile.Path
import BagFile.Tape

namespace BagFile

/-- Named files. -/
structure Volume where
  directories : List Path
  /-- the numbers of the files that have a name -/
  names : List (Path × Nat)
  /-- the contents of the files by number -/
  files : List Contents
  /-- a name stands for a file -/
  named : ∀ x ∈ names, x.2 < files.length
  deriving DecidableEq

namespace Volume

/-- A volume with an empty working directory. -/
def empty : Volume := ⟨[Path.here], [], [], by simp⟩

/-- The number of the file with a name. -/
def find? (v : Volume) (name : String) : Option Nat :=
  if Path.isFileName name then (v.names.find? (·.1 = Path.ofText name)).map Prod.snd
  else none

/-- The number of the file with a name, which must be there. -/
def openFile (v : Volume) (name : String) : Except Error Nat :=
  match v.find? name with
  | some file => .ok file
  | none => .error .io

/-- The contents of a file. -/
def contents (v : Volume) (file : Nat) : Contents := v.files.getD file .empty

/-- The volume with other contents of a file. -/
def withContents (v : Volume) (file : Nat) (c : Contents) : Volume :=
  { v with
    files := v.files.set file c
    named := by simpa using v.named }

/-- The contents of a file, and the volume with nothing in it. -/
def takeOut (v : Volume) (file : Nat) : Contents × Volume :=
  (v.contents file, v.withContents file .empty)

/-- The volume with a name for an empty file. -/
def addFile (v : Volume) (path : Path) : Volume :=
  { v with
    names := v.names ++ [(path, v.files.length)]
    files := v.files ++ [.empty]
    named := by
      intro x hx
      rw [List.length_append, List.length_singleton]
      rcases List.mem_append.1 hx with hx | hx
      · exact Nat.lt_succ_of_lt (v.named x hx)
      · rw [List.mem_singleton.1 hx]
        exact Nat.lt_succ_self _ }

/-- Makes a file empty, or makes an empty file; gives its number. -/
def create (v : Volume) (name : String) : Except Error (Nat × Volume) :=
  let path := Path.ofText name
  match v.find? name with
  | some file => .ok (file, v.withContents file .empty)
  | none =>
    if !Path.isFileName name || v.directories.contains path ||
        !v.directories.contains path.parent then
      .error .io
    else
      .ok (v.files.length, v.addFile path)

/-- Puts contents into the file with a name. -/
def put (v : Volume) (name : String) (data : Dense) : Except Error Volume := do
  let (file, v) ← v.create name
  return v.withContents file (.ofDense data)

/-- Overwrites a part of the file with a name.  Without any bytes the file stays as it is, also
    where the position is beyond its end. -/
def patch (v : Volume) (name : String) (pos : Nat) (data : Dense) : Except Error Volume := do
  let file ← v.openFile name
  return if data.size = 0 then v else v.withContents file ((v.contents file).overwrite pos data)

/-- Cuts the file with a name to a length, or fills it up with zeros. -/
def truncate (v : Volume) (name : String) (length : Nat) : Except Error Volume := do
  let file ← v.openFile name
  return v.withContents file ((v.contents file).resize length)

/-- Removes a name; the file stays for those who have it open. -/
def remove (v : Volume) (name : String) : Except Error Volume := do
  let file ← v.openFile name
  return { v with
    names := v.names.filter (·.2 ≠ file)
    named := fun x hx => v.named x (List.mem_filter.1 hx).1 }

end Volume

end BagFile
