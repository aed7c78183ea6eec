import BagFile.Bag
import BagFile.Messages
import BagFile.Summary
import BagFile.Recorder
import BagFile.Session
import BagFile.Copy
import BagFile.Cli
import BagFile.Main
import BagFile.Proofs.Reckoning
import BagFile.Proofs.Saturating
import BagFile.Proofs.StableSort
import BagFile.Proofs.Stretches
import BagFile.Proofs.Indexing
import BagFile.Proofs.Counting
import BagFile.Proofs.MergeOrder
import BagFile.Proofs.Draining
import BagFile.Proofs.Writing
import BagFile.Proofs.Nesting
import BagFile.Proofs.Outcomes
import BagFile.Proofs.Image
import BagFile.Proofs.Records
import BagFile.Proofs.Account
import BagFile.Proofs.Following
import BagFile.Proofs.Serialisation
import BagFile.Proofs.Refusals
import BagFile.Proofs.Sessions
import BagFile.Proofs.Reading
import BagFile.Proofs.FieldReading
import BagFile.Proofs.RecordReading
import BagFile.Proofs.Spelling
import BagFile.Proofs.Inverting
import BagFile.Proofs.Restoring
import BagFile.Proofs.Loading
import BagFile.Proofs.Fetching
import BagFile.Proofs.Resolving
import BagFile.Proofs.Selection
import BagFile.Proofs.Opening
import BagFile.Proofs.Totals
import BagFile.Proofs.Filtering
import BagFile.Proofs.Bookkeeping
import BagFile.Proofs.Locating
import BagFile.Proofs.RoundTrip
import BagFile.Proofs.Reserving
import BagFile.Proofs.Storing
import BagFile.Proofs.Truncating
import BagFile.Proofs.Damaging
import BagFile.Proofs.Reordering
import BagFile.Proofs.Copying
import BagFile.Proofs.Transferring
import BagFile.Proofs.Renumbering
import BagFile.Proofs.Duplicating
import BagFile.Proofs.Scanning
import BagFile.Proofs.Announcing
import BagFile.Proofs.Describing
import BagFile.Proofs.Forward
import BagFile.Proofs.Sharing
import BagFile.Proofs.Lasting
import BagFile.Proofs.Shielding
import BagFile.Proofs.Lifecycle
import BagFile.Proofs.Understating
import BagFile.Proofs.Finalizing
import BagFile.Proofs.Pulling
import BagFile.Proofs.Pointing
import BagFile.Proofs.Stepping
import BagFile.Proofs.Agreeing
import BagFile.Proofs.Rolling
import BagFile.Proofs.Summarising
import BagFile.Proofs.Codec.Bits
import BagFile.Proofs.Codec.RunLength
import BagFile.Proofs.Codec.Ranks
import BagFile.Proofs.Codec.Rotation
import BagFile.Proofs.Codec.Block
import BagFile.Proofs.Codec.Bzip2
import BagFile.Proofs.Codec.Matches
import BagFile.Proofs.Codec.Sequences
import BagFile.Proofs.Codec.Lz4
import BagFile.Proofs.Codec.Faithful
import BagFile.Proofs.Codec.Lossless
