/-
  The command line: inspecting bags, and copying parts of them.

  * `Cli.run` answers arguments on a volume with an `Outcome`: what is printed, and the exit
    code, which is 0 for success, 1 for an error of a bag and 2 for arguments that make no sense.
-/
import BagFile.Cli.Arguments
import BagFile.Codec.InMemory
import BagFile.Copy
import BagFile.Summary

namespace BagFile.Cli

/-- What a run of the command line leaves behind besides files. -/
structure Outcome where
  code : UInt32
  /-- what is printed -/
  output : String
  /-- what is told about a failure -/
  complaint : Option String
  deriving DecidableEq

namespace Outcome

/-- Success. -/
def success (output : String) : Outcome := ⟨0, output, none⟩

/-- An error of a bag, after some output. -/
def failure (output : String) (e : Error) : Outcome := ⟨1, output, some e.message⟩

/-- An outcome by its result, after some output. -/
def ofExcept {α : Type} (output : String) : Except Error α → Outcome
  | .ok _ => success output
  | .error e => failure output e

end Outcome

/-! ## Texts -/

/-- The name and the version of the program. -/
def versionText : String := "bagkit 0.1.0\n"

/-- How the program is used. -/
def helpText : String := String.join ([
  "Inspect and filter ROS bag (V2.0) files",
  "",
  "Usage: bagkit <COMMAND>",
  "",
  "Commands:",
  "  info <BAG>                         Print a summary of a bag",
  "  list [OPTIONS] <BAG>               Print one line per message",
  "  filter [OPTIONS] <INPUT> <OUTPUT>  Copy matching messages into a new bag",
  "  help [COMMAND]                     Print this message",
  "",
  "Options of list and filter:",
  "  -t, --topic <TOPIC>  Only messages on this topic (repeatable)",
  "  -s, --start <START>  Skip messages before this time (seconds)",
  "  -e, --end <END>      Stop after this time (seconds)",
  "",
  "Options of filter:",
  "  -c, --compression <NAME>  Chunk compression for the new bag (none, bz2, lz4)",
  "",
  "Options:",
  "  -h, --help     Print help",
  "  -V, --version  Print version"].map (· ++ "\n"))

/-- The line of a message. -/
def messageLine (m : Message) : String :=
  m.time.text ++ " " ++ m.connection.topic ++ " " ++ m.connection.typeName ++
    s!" ({m.data.size} bytes)\n"

/-- The lines of messages up to the first error, and that error. -/
def messageLines : List (Except Error Message) → List String × Except Error Unit
  | [] => ([], .ok ())
  | .error e :: _ => ([], .error e)
  | .ok m :: rest =>
    let (lines, end_) := messageLines rest
    (messageLine m :: lines, end_)

/-! ## Commands -/

/-- Prints a summary of a bag. -/
def info (v : Volume) (bag : String) : Outcome :=
  match Reading.load v bag Settings.default with
  | .ok r => .success (Summary.ofBag r.bag).text
  | .error e => .failure "" e

variable [Codec.Formats]

/-- Prints a line for each message of a query. -/
def list (v : Volume) (bag : String) (q : Query) : Outcome :=
  match Reading.load v bag Settings.default >>= fun r => r.messages v q with
  | .ok (found, _) =>
    let (lines, result) := messageLines found
    .ofExcept (String.join lines) result
  | .error e => .failure "" e

/-- Copies the messages of a query.  The name of the compression is looked at first. -/
def filter (v : Volume) (input output : String) (q : Query) (compression : String) :
    Outcome × Volume :=
  match Compression.parse compression with
  | .ok c =>
    let (result, v) := copy v input output q c
    (.ofExcept "" result, v)
  | .error e => (.failure "" e, v)

/-- Does what is asked for. -/
def perform (v : Volume) : Request → Outcome × Volume
  | .info bag => (info v bag, v)
  | .list bag q => (list v bag q, v)
  | .filter input output q compression => filter v input output q compression
  | .help => (.success helpText, v)
  | .version => (.success versionText, v)
  | .misuse => (⟨2, "", some helpText⟩, v)

/-- Runs the command line on a volume. -/
def run (v : Volume) (args : List String) : Outcome × Volume :=
  perform v (Request.ofArguments args)

end BagFile.Cli
