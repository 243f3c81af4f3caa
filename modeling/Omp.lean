import Omp.Lib.Op
import Omp.Lib.Script
import Omp.Lib.Lts
import Omp.Lib.Interleave
import Omp.Lib.Text
import Omp.Lib.Base64
import Omp.Lib.PathMap
import Omp.Lib.Cas
import Omp.Lib.F64
import Omp.Lib.Memo
import Omp.Lib.Toml
import Omp.Lib.TomlReader
import Omp.Store
import Omp.Tree
import Omp.Paths
import Omp.LeafMap
import Omp.Merkle
import Omp.Staging
import Omp.Walk
import Omp.World
import Omp.Canonical
import Omp.Manifest
import Omp.Schema
import Omp.Config
import Omp.Engine
import Omp.Commit
import Omp.Repo
import Omp.Reprobe
import Omp.Fresh
import Omp.TreeCodec
import Omp.CommitCodec
import Omp.CommitReaders
import Omp.Concrete
import Omp.ManifestCodec
import Omp.Files
import Omp.Branches
import Omp.Heads
import Omp.Faults
import Omp.RefIntegrity
import Omp.BranchNames
import Omp.Instances
import Omp.InstanceRuns
import Omp.Query
import Omp.Pages
import Omp.Lib.Links
import Omp.Untrusted
import Omp.Audit
import Omp.Chunks
import Omp.Sealing
import Omp.Streaming
import Omp.Market
import Omp.MarketRuns
import Omp.Encrypted
import Omp.SealedHistory
import Omp.ValidSchemas
import Omp.Lib.Unwinding
import Omp.Server
import Omp.Tenants
import Omp.Lib.TopoOrder
import Omp.FieldOrder
import Omp.Ingest
import Omp.Fallbacks
import Omp.Lib.Cbor
import Omp.Signed
import Omp.Lib.Broadcast
import Omp.Jobs
import Omp.Lib.Scan
import Omp.Lib.Encodings
import Omp.Tokens
import Omp.Grammar
import Omp.Unified
import Omp.Multipart
import Omp.Lib.FileSystem
import Omp.Lookup
import Omp.RefExprs
import Omp.Diff
import Omp.Lib.Dfs
import Omp.Log
import Omp.StringLiterals
import Omp.Lib.Tiling
import Omp.Grounded
import Omp.Uploads
import Omp.Sessions
import Omp.UploadCommits
import Omp.UploadSafety
import Omp.Lib.Streams
import Omp.DiskStore
import Omp.Spellings
import Omp.Lib.Rounding
import Omp.Comparisons
import Omp.Lib.Calendar
import Omp.Timestamps
import Omp.ValidationCache
import Omp.Lib.Jumps
import Omp.PdfPages
import Omp.Lib.Traps
import Omp.Wav
import Omp.Mp3
import Omp.Mp4
import Omp.Walker
import Omp.Settles
import Omp.Orderly
import Omp.Passes
import Omp.Commits
import Omp.Lib.Wildcards
import Omp.Lib.Transducers
import Omp.Lib.TextDecoder
import Omp.Sse
import Omp.Globs
import Omp.ProbeCbor
import Omp.Sources
import Omp.Contents
import Omp.Isolation
import Omp.Propagation
import Omp.LiveSet
import Omp.Views
import Omp.Sweep
import Omp.Logins
import Omp.SignIns
import Omp.Proxy
