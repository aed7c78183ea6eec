/-
  Which messages to read: a set of topics, and bounds on time, both inclusive.
-/
import BagFile.Time

namespace BagFile

/-- Which messages to read. -/
structure Query where
  topics : Option (List String)
  start : Option Time
  stop : Option Time
  deriving DecidableEq

namespace Query

/-- Every message. -/
def all : Query := ⟨none, none, none⟩

/-- Whether a set of topics selects one of them.  The empty set selects every topic, as does
    none. -/
def selects (topics : Option (List String)) (topic : String) : Bool :=
  match topics with
  | none => true
  | some ts => ts.isEmpty || ts.contains topic

/-- Whether a point in time is within the bounds. -/
def containsTime (q : Query) (t : Time) : Bool :=
  q.start.all (fun s => s ≤ t) && q.stop.all (fun e => t ≤ e)

end Query

end BagFile
