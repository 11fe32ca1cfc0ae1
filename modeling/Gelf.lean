import Gelf.Text.Blank
import Gelf.Text.Digit
import Gelf.Decimal.Finite
import Gelf.Decimal.Shortest
import Gelf.Decimal.Notation
import Gelf.Decimal.Reading
import Gelf.Json.Number
import Gelf.FieldMap
import Gelf.Json.Value
import Gelf.Json.Printer
import Gelf.Text.Hidden
import Gelf.Text.Quoted
import Gelf.Json.ReadError
import Gelf.Json.Scan
import Gelf.Json.Reader
import Gelf.Text.Utf8
import Gelf.Severity
import Gelf.Event
import Gelf.Fault
import Gelf.Record.Basic
import Gelf.Record.Reader
import Gelf.Encoder
import Gelf.Chunk.Basic
import Gelf.Chunk.Cursor
import Gelf.Chunk.Split
import Gelf.Chunk.Assembly
import Gelf.Checksum
import Gelf.Deflate.Bits
import Gelf.Deflate.Codes
import Gelf.Deflate.Tables
import Gelf.Deflate.Inflate
import Gelf.Deflate.Repetition
import Gelf.Deflate.Lengths
import Gelf.Deflate.Encoding
import Gelf.Compression
import Gelf.Codec
import Gelf.Receiver
import Gelf.Config
import Gelf.Address
import Gelf.Delivery.Network
import Gelf.Delivery.Direct
import Gelf.Delivery.Queue
import Gelf.Delivery.Connection
import Gelf.Diagnostics
import Gelf.Shipper.Builder
import Gelf.Shipper.Basic
import Gelf.Shipper.Run
import Gelf.Shipper.Inspection
import Gelf.Trace.Scope
import Gelf.Trace.Layer
import Gelf.Trace.Circuit
import Gelf.Proofs.Chunk.Layout
import Gelf.Proofs.Chunk.Cursor
import Gelf.Proofs.Chunk.Renaming
import Gelf.Proofs.Chunk.Reassembly
import Gelf.Proofs.Delivery.ReadAhead
import Gelf.Proofs.Delivery.Permits
import Gelf.Proofs.Delivery.Draining
import Gelf.Proofs.Delivery.Sending
import Gelf.Proofs.Delivery.Conservation
import Gelf.Proofs.Delivery.Losses
import Gelf.Proofs.Delivery.Returning
import Gelf.Proofs.Delivery.Admission
import Gelf.Proofs.Shipper.Steps
import Gelf.Proofs.Shipper.Books
import Gelf.Proofs.Decimal.Rounding
import Gelf.Proofs.Decimal.Scaling
import Gelf.Proofs.Decimal.Bounds
import Gelf.Proofs.Json.StringText
import Gelf.Proofs.Json.NumberText
import Gelf.Proofs.Json.Reads
import Gelf.Proofs.Json.RoundTrip
import Gelf.Proofs.Record.RoundTrip
import Gelf.Proofs.Encoder.Fields
import Gelf.Proofs.Encoder.RoundTrip
import Gelf.Proofs.Deflate.Bits
import Gelf.Proofs.Deflate.Codes
import Gelf.Proofs.Deflate.Packages
import Gelf.Proofs.Deflate.Repetitions
import Gelf.Proofs.Deflate.Pieces
import Gelf.Proofs.Deflate.Header
import Gelf.Proofs.Deflate.RoundTrip
import Gelf.Proofs.Compression
import Gelf.Proofs.Receiver
import Gelf.Proofs.Shipper.Pipeline
import Gelf.Proofs.Shipper.Carriage
import Gelf.Proofs.Shipper.Budget
import Gelf.Proofs.Delivery.EndToEnd
import Gelf.Proofs.Delivery.Mirroring
import Gelf.Proofs.Trace.Fields
import Gelf.Proofs.Trace.Circuit
import Gelf.Proofs.Chunk.Cutting
import Gelf.Proofs.Delivery.FirstFailure
import Gelf.Proofs.Shipper.Outcome
import Gelf.Proofs.Text.Order
import Gelf.Proofs.Encoder.Additional
import Gelf.Proofs.Json.Grammar
import Gelf.Proofs.Json.Printed
import Gelf.Proofs.Encoder.Slots
import Gelf.Proofs.Encoder.Line
import Gelf.Proofs.Encoder.Relay
import Gelf.Proofs.Calls
import Gelf.Proofs.Encoder.CallOrder
import Gelf.Proofs.Trace.Slots
import Gelf.Proofs.Decimal.Integers
import Gelf.Proofs.Trace.Integers
import Gelf.Proofs.Checksum
import Gelf.Proofs.Containers
import Gelf.Proofs.Json.Leaves
import Gelf.Proofs.Json.Meaning
import Gelf.Proofs.Json.Accepted
import Gelf.Proofs.Record.Steps
import Gelf.Proofs.Record.Schema
import Gelf.Proofs.Json.Bounds
import Gelf.Proofs.Record.Normal
import Gelf.Proofs.Decimal.Naturals
import Gelf.Proofs.Config
import Gelf.Proofs.Shipper.Host
import Gelf.Proofs.Diagnostics
import Gelf.Proofs.Encoder.Nested
import Gelf.Proofs.Chunk.Script
import Gelf.Proofs.Chunk.Width
import Gelf.Proofs.Decimal.Nearest
import Gelf.Proofs.Decimal.Scaled
import Gelf.Proofs.Decimal.Digits
import Gelf.Proofs.Json.Floats
import Gelf.Proofs.Json.FloatText
import Gelf.Proofs.Encoder.Timestamp
