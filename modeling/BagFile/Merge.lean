/-
  Merging lists of entries by time, one entry at a time.

  * A `Lane` is an input of the merge: the entry taken from it that is still to be given, what
    has not been taken yet, and how often it has been asked;
  * `Merge.next` gives the least entry by time and lane.  Nothing is taken from any lane before
    the first call, then one entry ahead from each; entries before the start are passed over,
    and the first entry past the stop ends the merge for good.
-/
import BagFile.Index

namespace BagFile

/-- An input of a merge. -/
structure Lane where
  head : Option Entry
  rest : List Entry
  /-- how often the input has been asked for an entry -/
  asked : Nat
  deriving DecidableEq

namespace Lane

/-- An input of which nothing has been taken. -/
def ofList (es : List Entry) : Lane := ⟨none, es, 0⟩

/-- Whether an entry is passed over. -/
def isEarly (start : Option Time) (e : Entry) : Bool := start.any fun s => e.time < s

/-- Takes entries up to the first that is not passed over. -/
def advance (start : Option Time) (l : Lane) : Lane :=
  let kept := l.rest.dropWhile (isEarly start)
  ⟨kept.head?, kept.tail, l.asked + (l.rest.takeWhile (isEarly start)).length + 1⟩

end Lane

/-- How far a merge has come. -/
inductive MergePhase where
  | waiting
  | running
  | finished
  deriving DecidableEq

/-- A merge of lanes. -/
structure Merge where
  lanes : List Lane
  start : Option Time
  stop : Option Time
  phase : MergePhase
  deriving DecidableEq

namespace Merge

/-- A merge of lists of entries, between two bounds on time. -/
def ofLists (inputs : List (List Entry)) (start stop : Option Time) : Merge :=
  ⟨inputs.map Lane.ofList, start, stop, .waiting⟩

/-- The least head by time and lane, where the first lane has number `i`. -/
def leastFrom (i : Nat) : List Lane → Option (Nat × Entry)
  | [] => none
  | l :: ls =>
    match l.head, leastFrom (i + 1) ls with
    | none, least => least
    | some e, none => some (i, e)
    | some e, some (j, f) => if e.time ≤ f.time then some (i, e) else some (j, f)

/-- Takes the first entry of each lane, unless that has been done. -/
def prime (m : Merge) : Merge :=
  if m.phase = .waiting then
    { m with lanes := m.lanes.map (Lane.advance m.start), phase := .running }
  else m

/-- The next entry, if there is one, and the merge after it. -/
def next (m : Merge) : Option Entry × Merge :=
  let m := m.prime
  if m.phase = .finished then (none, m)
  else
    match leastFrom 0 m.lanes with
    | none => (none, { m with phase := .finished })
    | some (i, e) =>
      if m.stop.any (fun s => s < e.time) then (none, { m with phase := .finished })
      else (some e, { m with lanes := m.lanes.modify i (Lane.advance m.start) })

/-- How many entries a merge has not given yet, passed over or not. -/
def size (m : Merge) : Nat := (m.lanes.map fun l => l.head.toList.length + l.rest.length).sum

/-- At most `n` more entries of a merge. -/
def take : Nat → Merge → List Entry
  | 0, _ => []
  | n + 1, m =>
    match m.next with
    | (none, _) => []
    | (some e, m) => e :: take n m

/-- The entries that a merge still gives. -/
def toList (m : Merge) : List Entry := take m.size m

end Merge

end BagFile
