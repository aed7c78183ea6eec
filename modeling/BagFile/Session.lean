/-
  Recording and reading in a volume.

  * A `Recording` is a recorder that has a file open; what it writes is in the file at once
    (`Recording.run`), and giving it up leaves the file as it is then (`Recording.close`).
    Between two operations the contents are in the file alone;
  * a `Reading` is an opened bag with the cache that its queries share; each query opens the
    file anew, so a `Handle` keeps the file it found when its name is removed later.
-/
import BagFile.Messages
import BagFile.Recorder
import BagFile.Volume

namespace BagFile

/-! ## Recording -/

/-- A recorder that has a file open, and holds no contents itself. -/
structure Recording where
  path : String
  file : Nat
  recorder : Recorder
  deriving DecidableEq

/-- The recorder with other contents at the position of its tape, and a new journal. -/
def Recorder.withContents (r : Recorder) (c : Contents) : Recorder :=
  { r with tape := ⟨c, r.tape.pos, []⟩ }

namespace Recording

/-- Creates a file and starts a recording in it. -/
def create (v : Volume) (path : String) (settings : Settings) :
    Except Error (Recording × Volume) := do
  settings.check
  let (file, v) ← v.create path
  let recorder ← Recorder.create settings
  return (⟨path, file, recorder.withContents .empty⟩,
    v.withContents file recorder.tape.contents)

/-- The recording after an operation, with what the recorder has written in its file. -/
def putBack (path : String) (file : Nat) (r : Recorder) (v : Volume) : Recording × Volume :=
  (⟨path, file, r.withContents .empty⟩, v.withContents file r.tape.contents)

/-- Runs an operation of the recorder on what is in its file now. -/
def run {α : Type} (w : Recording) (v : Volume) (op : Recorder.Op α) :
    Except Error α × Recording × Volume :=
  let ⟨path, file, recorder⟩ := w
  let (contents, v) := v.takeOut file
  match EStateM.run op (recorder.withContents contents) with
  | .ok a r => (.ok a, putBack path file r v)
  | .error e r => (.error e, putBack path file r v)

/-- Gives a recording up. -/
def close (w : Recording) (v : Volume) : Volume :=
  let (contents, v) := v.takeOut w.file
  v.withContents w.file (w.recorder.withContents contents).release.contents

end Recording

/-! ## Reading -/

/-- An opened bag, and the contents of chunks that its queries share. -/
structure Reading where
  bag : Bag
  cache : Cache
  deriving DecidableEq

/-- An open file. -/
abbrev Handle := Nat

namespace Reading

/-- Opens a bag. -/
def load (v : Volume) (path : String) (settings : Settings) : Except Error Reading := do
  let file ← v.openFile path
  let bag ← Bag.load path settings (v.contents file)
  return ⟨bag, Cache.empty⟩

/-- Opens the bag's file once more. -/
def handle (r : Reading) (v : Volume) : Except Error Handle := v.openFile r.bag.path

/-- The bytes behind a handle, as they are now. -/
def source (v : Volume) (h : Handle) : Stream := Stream.ofFile (v.contents h)

/-- A fetcher with what the bag's queries share at the moment. -/
def share (r : Reading) (f : Fetcher) : Fetcher := { f with cache := r.bag.sharedCache r.cache }

/-- The reading after a fetcher has added to what is shared. -/
def learn (r : Reading) (f : Fetcher) : Reading := { r with cache := f.cache.getD r.cache }

variable [Codec.Formats]

/-- The next message of a query under way. -/
def next (r : Reading) (v : Volume) (h : Handle) (m : Messages) :
    Option (Except Error Message) × Messages × Reading :=
  let (message, m) := Messages.next r.bag (source v h) { m with fetcher := r.share m.fetcher }
  (message, m, r.learn m.fetcher)

/-- All messages of a query. -/
def messages (r : Reading) (v : Volume) (q : Query) :
    Except Error (List (Except Error Message) × Reading) := do
  let h ← r.handle v
  let (found, m) := Messages.toList r.bag (source v h) (Messages.start r.bag q r.cache)
  return (found, r.learn m.fetcher)

end Reading

end BagFile
