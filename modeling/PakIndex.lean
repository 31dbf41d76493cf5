import PakIndex.Archive
import PakIndex.Index.Describe
import PakIndex.Index.Read
import PakIndex.Options.Document
import PakIndex.Proofs.Name.Fold
import PakIndex.Proofs.Name.Pool
import PakIndex.Proofs.Name.Utf8
import PakIndex.Proofs.Tree.Node
import PakIndex.Proofs.Tree.Order
import PakIndex.Proofs.Tree.Map
import PakIndex.Proofs.Layout.Field
import PakIndex.Proofs.Layout.Record
import PakIndex.Proofs.Stream
import PakIndex.Proofs.Trailer.Search
import PakIndex.Proofs.Tree.Refine
import PakIndex.Proofs.Tree.Listing
import PakIndex.Proofs.Archive.Packed
import PakIndex.Proofs.Archive.RoundTrip
import PakIndex.Proofs.Cursor
import PakIndex.Proofs.Index.Reopen
import PakIndex.Proofs.Index.Safety
import PakIndex.Proofs.Tree.Entrywise
import PakIndex.Proofs.Index.Reach
import PakIndex.Proofs.Index.Levels
import PakIndex.Proofs.Index.Answers
import PakIndex.Proofs.Index.Layout
import PakIndex.Proofs.Index.Paths
import PakIndex.Proofs.Directory.Respelled
import PakIndex.Proofs.Index.Respelled
import PakIndex.Proofs.Archive.Session
import PakIndex.Proofs.Index.Live
import PakIndex.Proofs.Index.Shrink
import PakIndex.Proofs.Index.Frame
import PakIndex.Proofs.Trailer.Stray
import PakIndex.Proofs.Trailer.Plain
import PakIndex.Proofs.Index.Rewritable
import PakIndex.Proofs.Archive.Catalogue
import PakIndex.Proofs.Index.Refused
import PakIndex.Proofs.Index.Found
import PakIndex.Proofs.Index.CarriedOver
import PakIndex.Proofs.Index.Certified
import PakIndex.Proofs.Index.Overlap
import PakIndex.Proofs.Headers.Grammar
import PakIndex.Proofs.Headers.Unsigned
import PakIndex.Proofs.Entry.Located
import PakIndex.Proofs.Index.Truncated
import PakIndex.Proofs.Index.Mirror
import PakIndex.Proofs.Index.Verdict
import PakIndex.Proofs.Checksum.Crc32
import PakIndex.Proofs.Bits
import PakIndex.Proofs.Deflate.Accept
import PakIndex.Proofs.Deflate.Local
import PakIndex.Proofs.Entry.Damaged
import PakIndex.Proofs.Name.Asked
import PakIndex.Proofs.Layout.FileTime
import PakIndex.Proofs.Layout.Inverse
import PakIndex.Proofs.Entry.Repeated
