import ContainerProbe.Size
import ContainerProbe.Bytes
import ContainerProbe.Fault
import ContainerProbe.Pattern.Anchor
import ContainerProbe.Pattern.ByteSet
import ContainerProbe.Pattern.Fragment
import ContainerProbe.Pattern.Basic
import ContainerProbe.Pattern.Canonical
import ContainerProbe.Pattern.Parser
import ContainerProbe.Source.Basic
import ContainerProbe.Source.Stream
import ContainerProbe.Source.Reader
import ContainerProbe.Pattern.Semantics
import ContainerProbe.Pattern.Evaluate
import ContainerProbe.EntryPath.Glob
import ContainerProbe.EntryPath.Regex
import ContainerProbe.EntryPath.Basic
import ContainerProbe.Prefilter
import ContainerProbe.Container.Kind
import ContainerProbe.Gzip.Name
import ContainerProbe.Document.Value
import ContainerProbe.Document.Json
import ContainerProbe.Document.Yaml
import ContainerProbe.Definition.Basic
import ContainerProbe.Definition.Decode
import ContainerProbe.Library.Signature
import ContainerProbe.Library.Catalog
import ContainerProbe.Library.Basic
import ContainerProbe.Verdict.Candidate
import ContainerProbe.Verdict.Content
import ContainerProbe.Container.Basic
import ContainerProbe.Verdict.Identify
import ContainerProbe.Compound.Layout
import ContainerProbe.Compound.Directory
import ContainerProbe.Compound.File
import ContainerProbe.Deflate.Bits
import ContainerProbe.Deflate.Huffman
import ContainerProbe.Deflate.Inflate
import ContainerProbe.Deflate.Crc
import ContainerProbe.Gzip.Member
import ContainerProbe.Zip.Names
import ContainerProbe.Zip.Archive
import ContainerProbe.Container.Read
import ContainerProbe.Proofs.Runs
import ContainerProbe.Proofs.ByteRuns
import ContainerProbe.Proofs.Window
import ContainerProbe.Proofs.Source
import ContainerProbe.Proofs.Stream
import ContainerProbe.Proofs.Prefilter
import ContainerProbe.Proofs.Catalog
import ContainerProbe.Proofs.Requirement
import ContainerProbe.Proofs.Content
import ContainerProbe.Proofs.Tally
import ContainerProbe.Proofs.Identification
import ContainerProbe.Proofs.EntryOrder
import ContainerProbe.Proofs.Phases
import ContainerProbe.Proofs.Chunking
import ContainerProbe.Proofs.Failure
import ContainerProbe.Proofs.Grammar
import ContainerProbe.Proofs.Brackets
import ContainerProbe.Proofs.Acceptance
import ContainerProbe.Proofs.Canonical
import ContainerProbe.Proofs.Coalesce
import ContainerProbe.Proofs.WellFormed
import ContainerProbe.Proofs.Lengths
import ContainerProbe.Proofs.Placement
import ContainerProbe.Proofs.GlobMatch
import ContainerProbe.Proofs.RegexEngine
import ContainerProbe.Proofs.GlobText
import ContainerProbe.Proofs.View
import ContainerProbe.Proofs.Backtrack
import ContainerProbe.Pattern.Backtrack
import ContainerProbe.Proofs.SectorChain
import ContainerProbe.Proofs.DirectoryWalk
import ContainerProbe.Proofs.StreamContent
import ContainerProbe.Proofs.ReadCount
import ContainerProbe.Proofs.LiteralScan
import ContainerProbe.Proofs.Opening
import ContainerProbe.Proofs.Warnings
import ContainerProbe.Proofs.ByteTable
import ContainerProbe.Proofs.Positions
import ContainerProbe.Proofs.Iterations
