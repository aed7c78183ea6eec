/-
  The fixed layout of a bag file.

  A bag starts with a version line and a header record of fixed size, padded with spaces.
  Chunks follow, each with index records for its connections; then, at the position named in
  the header, one connection record for each connection and one summary for each chunk.
-/
import BagFile.Text.Utf8

namespace BagFile.Layout

/-- The version line, without the line feed that ends it. -/
def versionText : String := "#ROSBAG V2.0"

/-- The byte that ends the version line. -/
def lineFeed : UInt8 := 0x0A

/-- The version line as it is written. -/
def versionLine : Dense := (Text.encode versionText).push lineFeed

/-- How much of a file is searched for the end of its version line. -/
def versionLimit : Nat := 64

/-- The position of the header record, right after the version line. -/
def headerPos : Nat := 13

/-- The size of the header record with all its lengths. -/
def headerLength : Nat := 4096

/-- The byte that pads the header record. -/
def padding : UInt8 := 0x20

/-- The position of the first record after the header. -/
def dataStart : Nat := headerPos + headerLength

end BagFile.Layout
