import BinaryAst.Wire.ReaderStack
import BinaryAst.Wire.Sections
import BinaryAst.Main
import BinaryAst.Proofs.Wire.Spelling
import BinaryAst.Proofs.Wire.Primitives
import BinaryAst.Proofs.Wire.Frame
import BinaryAst.Proofs.Decode.Log
import BinaryAst.Proofs.Conformance
import BinaryAst.Proofs.Decode.Grammar
import BinaryAst.Proofs.Nesting
import BinaryAst.Proofs.Decode.References
import BinaryAst.Proofs.Decode.Objects
import BinaryAst.Proofs.Decode.Decoders
import BinaryAst.Proofs.Decode.Soundness
import BinaryAst.Proofs.Container.Passage
import BinaryAst.Proofs.Container.Layout
import BinaryAst.Proofs.Container.Steps
import BinaryAst.Proofs.Container.Marks
import BinaryAst.Proofs.Container.Assembly
import BinaryAst.Proofs.Wire.Header
import BinaryAst.Proofs.Container.Contents
import BinaryAst.Proofs.Container.Cuts
import BinaryAst.Proofs.Container.Slack
import BinaryAst.Proofs.Wire.Written
import BinaryAst.Proofs.Encode.Draft
import BinaryAst.Proofs.Encode.Encoder
import BinaryAst.Proofs.Encode.Grammatical
import BinaryAst.Proofs.Encode.Program
import BinaryAst.Proofs.Encode.Roundtrip
import BinaryAst.Proofs.Visits
import BinaryAst.Proofs.Decode.Narration
import BinaryAst.Proofs.Container.Trace
import BinaryAst.Proofs.Wire.Cost
import BinaryAst.Proofs.Size
import BinaryAst.Proofs.Decode.Footprint
import BinaryAst.Proofs.Container.Consumption
import BinaryAst.Proofs.Limits.Curbs
import BinaryAst.Proofs.Limits.Decoders
import BinaryAst.Proofs.Limits.Thresholds
import BinaryAst.Proofs.Wire.SignedGroups
import BinaryAst.Proofs.Encode.Readback
import BinaryAst.Proofs.Container.Streams
import BinaryAst.Proofs.Decode.Pieces
import BinaryAst.Proofs.Decode.Accounts
import BinaryAst.Proofs.Container.SideStreams
import BinaryAst.Proofs.Triple
import BinaryAst.Proofs.Wire.Faults
import BinaryAst.Proofs.Decode.Faults
import BinaryAst.Proofs.Container.Slots
import BinaryAst.Proofs.Arena.Decoder
import BinaryAst.Proofs.Arena.Simulation
import BinaryAst.Proofs.Arena.Chart
import BinaryAst.Proofs.Arena.Sections
import BinaryAst.Proofs.Arena.Container
import BinaryAst.Proofs.Container.Faults
import BinaryAst.Proofs.Normal.Mirror
import BinaryAst.Proofs.Normal.Format
import BinaryAst.Proofs.Normal.Sections
import BinaryAst.Proofs.Normal.Container
import BinaryAst.Proofs.Wire.Groups
import BinaryAst.Proofs.Wire.MachineWords
import BinaryAst.Proofs.Decode.IndexLaw
import BinaryAst.Proofs.Decode.Telling
import BinaryAst.Proofs.Decode.Standing
import BinaryAst.Proofs.Decode.Course
import BinaryAst.Proofs.Decode.Lineage
import BinaryAst.Proofs.Decode.Retention
import BinaryAst.Proofs.Container.Opening
import BinaryAst.Proofs.Container.Retention
import BinaryAst.Proofs.Container.Routing
import BinaryAst.Proofs.Container.Attribution
import BinaryAst.Proofs.Wire.Reports
import BinaryAst.Proofs.Wire.ReaderStack
import BinaryAst.Proofs.Container.Framing
import BinaryAst.Proofs.Container.Payloads
import BinaryAst.Proofs.Json.Members
import BinaryAst.Proofs.Json.Fields
import BinaryAst.Proofs.Json.Lossless
import BinaryAst.Proofs.Wire.Cursor
import BinaryAst.Proofs.Wire.IndexedCursor
import BinaryAst.Proofs.Wire.StringParts
import BinaryAst.Proofs.Text.Lines
import BinaryAst.Proofs.Text.Layout
import BinaryAst.Proofs.Text.Hidden
import BinaryAst.Proofs.Text.Indent
import BinaryAst.Proofs.Schema.Registration
import BinaryAst.Proofs.Schema.IndexedSchema
import BinaryAst.Proofs.Schema.Unions
