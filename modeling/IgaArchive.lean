import IgaArchive.Archive.Basic
import IgaArchive.Archive.Creation
import IgaArchive.Archive.Extraction
import IgaArchive.Archive.Listing
import IgaArchive.Archive.Output
import IgaArchive.Bytes
import IgaArchive.CommandLine.Arguments
import IgaArchive.CommandLine.Command
import IgaArchive.CommandLine.Flag
import IgaArchive.CommandLine.Reach
import IgaArchive.CommandLine.Run
import IgaArchive.CommandLine.Usage
import IgaArchive.Config.Basic
import IgaArchive.Config.Decode
import IgaArchive.Config.Load
import IgaArchive.Directory.Basic
import IgaArchive.Directory.Decode
import IgaArchive.Directory.Encode
import IgaArchive.Directory.Range
import IgaArchive.EntryName
import IgaArchive.Failure
import IgaArchive.Hash.Sha256
import IgaArchive.Hash.Word
import IgaArchive.Hash.XxHash32
import IgaArchive.Header
import IgaArchive.Log
import IgaArchive.Lz4.Block
import IgaArchive.Lz4.Frame
import IgaArchive.Lz4.Packing
import IgaArchive.Lz4.Writer
import IgaArchive.Main
import IgaArchive.PackedString
import IgaArchive.Path
import IgaArchive.Payload.Key
import IgaArchive.Payload.Transfer
import IgaArchive.Payload.Transform
import IgaArchive.Progress.Amount
import IgaArchive.Progress.Tracker
import IgaArchive.Store.Basic
import IgaArchive.Store.Contents
import IgaArchive.Store.Files
import IgaArchive.Text.Base64
import IgaArchive.Text.Columns
import IgaArchive.Text.Fixed
import IgaArchive.Text.Numeral
import IgaArchive.Text.Printable
import IgaArchive.Text.Quoted
import IgaArchive.Text.Rune
import IgaArchive.Text.Trimmed
import IgaArchive.VarUint
import IgaArchive.Workspace
import IgaArchive.Yaml.Cursor
import IgaArchive.Yaml.Node
import IgaArchive.Yaml.Scalar
import IgaArchive.Yaml.Scanner
import IgaArchive.Yaml.Text
import IgaArchive.Yaml.Token
import IgaArchive.Yaml.Value
import IgaArchive.Proofs.Spelling
import IgaArchive.Proofs.Groups
import IgaArchive.Proofs.Directory.Blocks
import IgaArchive.Proofs.Directory.RoundTrip
import IgaArchive.Proofs.Directory.Finality
import IgaArchive.Proofs.Directory.StrayZeros
import IgaArchive.Proofs.Directory.NormalForm
import IgaArchive.Proofs.Directory.Slices
import IgaArchive.Proofs.Directory.Extent
import IgaArchive.Proofs.Directory.Layout
import IgaArchive.Proofs.Path
import IgaArchive.Proofs.Store.Frame
import IgaArchive.Proofs.Store.Directories
import IgaArchive.Proofs.Log
import IgaArchive.Proofs.Archive.Output
import IgaArchive.Proofs.Payload
import IgaArchive.Proofs.Cipher
import IgaArchive.Proofs.Basin
import IgaArchive.Proofs.Action
import IgaArchive.Proofs.Archive.Format
import IgaArchive.Proofs.Archive.Creation
import IgaArchive.Proofs.Archive.Opening
import IgaArchive.Proofs.Archive.Transfer
import IgaArchive.Proofs.Archive.Extraction
import IgaArchive.Proofs.Archive.Destinations
import IgaArchive.Proofs.Archive.Confinement
import IgaArchive.Proofs.Archive.Decoding
import IgaArchive.Proofs.Archive.Members
import IgaArchive.Proofs.Archive.RoundTrip
import IgaArchive.Proofs.Archive.Writing
import IgaArchive.Proofs.Archive.Plan
import IgaArchive.Proofs.Archive.Truncation
import IgaArchive.Proofs.Archive.Unfinished
import IgaArchive.Proofs.Archive.Rejection
import IgaArchive.Proofs.Archive.Listing
import IgaArchive.Proofs.Archive.PartialExtraction
import IgaArchive.Proofs.Archive.Preservation
import IgaArchive.Proofs.Archive.MemberNames
import IgaArchive.Proofs.Lz4.Packing
import IgaArchive.Proofs.Lz4.Content
import IgaArchive.Proofs.Lz4.Frame
import IgaArchive.Proofs.Archive.Framing
import IgaArchive.Proofs.Archive.Overlap
import IgaArchive.Proofs.Archive.OwnFiles
import IgaArchive.Proofs.Archive.Completion
import IgaArchive.Proofs.Archive.UnwrapLimit
import IgaArchive.Proofs.Store.Agreement
import IgaArchive.Proofs.Archive.Alongside
import IgaArchive.Proofs.Archive.Transparency
import IgaArchive.Proofs.Directory.Tiling
import IgaArchive.Proofs.Archive.PayloadRange
import IgaArchive.Proofs.Store.Flat
import IgaArchive.Proofs.Archive.Acceptance
import IgaArchive.Proofs.Archive.Accounting
import IgaArchive.Proofs.Archive.Deposits
import IgaArchive.Proofs.Archive.ForcedKey
import IgaArchive.Proofs.CommandLine.Precedence
import IgaArchive.Proofs.Progress.Amount
import IgaArchive.Proofs.Progress.Attribution
