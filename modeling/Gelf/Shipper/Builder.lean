import Gelf.Chunk.Split
import Gelf.Codec
import Gelf.Config
import Gelf.Diagnostics
import Gelf.Encoder
import Gelf.Text.Quoted

/-!
# Building shippers

Options are collected first and checked when they are all there. The limit of datagrams must leave
room beside the chunk header, and without a source host the host is that of the machine.
-/

namespace Gelf

/-- What a shipper does with an event before it is sent. -/
structure Pipeline where
  encoder : Encoder
  compression : Compression
  codec : Codec
  maxChunkSize : UInt64
  /-- A chunk has room for its payload. -/
  hasRoom : chunkHeaderSize < maxChunkSize.toNat

namespace Pipeline

def payload (pipeline : Pipeline) (event : Event) : Except Fault (List UInt8) :=
  match pipeline.encoder.encode event with
  | .error fault => .error fault
  | .ok json => pipeline.codec.compress pipeline.compression json

def chunks (pipeline : Pipeline) (id : MessageId) (event : Event) : Except Fault ChunkCursor :=
  match pipeline.payload event with
  | .error fault => .error fault
  | .ok bytes => split id bytes pipeline.maxChunkSize

theorem chunks_of_payload {pipeline : Pipeline} {event : Event} {payload : List UInt8}
    (id : MessageId) (h : pipeline.payload event = .ok payload) :
    pipeline.chunks id event = split id payload pipeline.maxChunkSize := by
  rw [chunks, h]

end Pipeline

inductive Hostname
  | name (s : String)
  | failed (error : IoError)
  | octets (bytes : List UInt8)
  deriving DecidableEq

inductive BuildError
  | hostname (error : IoError)
  | hostnameNotUnicode (bytes : List UInt8)
  | chunkSizeTooSmall (size : UInt64)
  deriving DecidableEq

namespace BuildError

def message : BuildError → String
  | .hostname _ => "failed to resolve local hostname"
  | .hostnameNotUnicode bytes => "local hostname is not valid UTF-8: " ++ Text.quotedBytes bytes
  | .chunkSizeTooSmall size =>
    "max chunk size " ++ toString size.toNat ++ " leaves no room for the chunk header"

def cause? : BuildError → Option String
  | .hostname error => some error.text
  | _ => none

end BuildError

structure Builder where
  /-- Fields of every record, in the order in which they were given. -/
  fields : List (String × Json.Value) := []
  sourceHost : Option String := none
  maxChunkSize : UInt64 := defaultMaxChunkSize
  compression : Compression := .none
  sink : Sink := .stderr

namespace Builder

def ofConfig (config : Config) : Builder where
  sourceHost := config.sourceHost
  maxChunkSize := config.maxChunkSize
  compression := config.compression

def addField (builder : Builder) (name : String) (value : Json.Value) : Builder :=
  { builder with fields := builder.fields ++ [(name, value)] }

/-- The host of the records: the source host, unless it is missing or blank, and else the host name
of the machine. -/
def host (builder : Builder) (hostname : Hostname) : Except BuildError String :=
  match builder.sourceHost.filter fun host => !Text.blank host with
  | some host => .ok host
  | none =>
    match hostname with
    | .name s => .ok s
    | .failed error => .error (.hostname error)
    | .octets bytes => .error (.hostnameNotUnicode bytes)

/-- Checks the options. The size comes before the host. -/
def build (builder : Builder) (hostname : Hostname) (codec : Codec) :
    Except BuildError Pipeline :=
  if h : chunkHeaderSize < builder.maxChunkSize.toNat then
    match builder.host hostname with
    | .error e => .error e
    | .ok host =>
      .ok { encoder := { host, fields := FieldMap.ofList builder.fields }
            compression := builder.compression
            codec
            maxChunkSize := builder.maxChunkSize
            hasRoom := h }
  else .error (.chunkSizeTooSmall builder.maxChunkSize)

/-- What was built has the options of the builder and works with the codec. Only the host may be
that of the machine. -/
theorem exists_host_of_build {builder : Builder} {hostname : Hostname} {codec : Codec}
    {pipeline : Pipeline} (h : builder.build hostname codec = .ok pipeline) :
    ∃ host, builder.host hostname = .ok host ∧
      pipeline.encoder = { host, fields := FieldMap.ofList builder.fields } ∧
      pipeline.compression = builder.compression ∧
      pipeline.codec = codec ∧
      pipeline.maxChunkSize = builder.maxChunkSize := by
  rw [build] at h
  split at h
  · split at h
    · cases h
    · rename_i host hhost
      cases h
      exact ⟨host, hhost, rfl, rfl, rfl, rfl⟩
  · cases h

end Builder

end Gelf
