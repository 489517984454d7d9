import FlashParams.Disk.Tree
import FlashParams.Hex.Read
import FlashParams.Main
import FlashParams.Proofs.Image.Insert
import FlashParams.Proofs.Placement.Address
import FlashParams.Proofs.Placement.Fields
import FlashParams.Proofs.Placement.Blocks
import FlashParams.Proofs.Placement.Coverage
import FlashParams.Proofs.Value.Length
import FlashParams.Proofs.Assembly.Patch
import FlashParams.Proofs.Assembly.Sheet
import FlashParams.Proofs.Assembly.Finished
import FlashParams.Proofs.Assembly.Commit
import FlashParams.Proofs.Assembly.Run
import FlashParams.Proofs.Assembly.External
import FlashParams.Proofs.Assembly.Strict
import FlashParams.Proofs.Assembly.Elements
import FlashParams.Proofs.Assembly.Contents
import FlashParams.Proofs.Assembly.Verified
import FlashParams.Proofs.Assembly.AllOrNothing
import FlashParams.Proofs.Text.Split
import FlashParams.Proofs.Text.Utf8
import FlashParams.Proofs.Hex.Record
import FlashParams.Proofs.Image.Pieces
import FlashParams.Proofs.Hex.RoundTrip
import FlashParams.Proofs.Checksum.Polynomial
import FlashParams.Proofs.Checksum.Remainder
import FlashParams.Proofs.Placement.Reach
import FlashParams.Proofs.Assembly.Separation
import FlashParams.Proofs.Image.Memory
import FlashParams.Proofs.Image.Extend
import FlashParams.Proofs.Image.Refinement
import FlashParams.Proofs.Checksum.Detection
import FlashParams.Proofs.Checksum.LowFirst
import FlashParams.Proofs.Image.Runs
import FlashParams.Proofs.Hex.LastRecord
import FlashParams.Proofs.Assembly.Compatible
import FlashParams.Proofs.Assembly.Selection
import FlashParams.Proofs.Text.Damage
import FlashParams.Proofs.Hex.Damage
import FlashParams.Proofs.Revision.Address
import FlashParams.Proofs.Revision.Fields
import FlashParams.Proofs.Revision.Sheet
import FlashParams.Proofs.Revision.Blocks
import FlashParams.Proofs.Revision.Compile
import FlashParams.Proofs.Revision.Relocated
import FlashParams.Proofs.Revision.Pinned
import FlashParams.Proofs.Revision.Override
import FlashParams.Proofs.Revision.Effect
import FlashParams.Proofs.Value.Decode
import FlashParams.Proofs.Output.CSource
import FlashParams.Proofs.Output.DumpConfig
import FlashParams.Proofs.Output.Complete
import FlashParams.Proofs.Disk.Path
import FlashParams.Proofs.Disk.Tree
import FlashParams.Proofs.CommandLine.Job
import FlashParams.Proofs.CommandLine.Run
import FlashParams.Proofs.CommandLine.Rejected
import FlashParams.Proofs.Placement.Account
import FlashParams.Proofs.Value.Scalar
import FlashParams.Proofs.Value.RoundTrip
import FlashParams.Proofs.Hex.Grammar
import FlashParams.Proofs.Number.Spelling
import FlashParams.Proofs.Revision.Naming
import FlashParams.Proofs.Hex.Programming
import FlashParams.Proofs.Output.Initializer
import FlashParams.Proofs.Output.Confined
import FlashParams.Proofs.Output.FloatText
import FlashParams.Proofs.Placement.Measured
import FlashParams.Proofs.Assembly.Measured
import FlashParams.Proofs.Revision.Thinned
import FlashParams.Proofs.Revision.Refused
import FlashParams.Proofs.Manifest.Respelled
import FlashParams.Proofs.Checksum.WordSwap
import FlashParams.Proofs.Value.Single
import FlashParams.Proofs.CommandLine.Arguments
import FlashParams.Proofs.Placement.Shown
import FlashParams.Proofs.Value.DeclaredType
import FlashParams.Proofs.Assembly.Table
