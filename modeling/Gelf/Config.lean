import Gelf.Chunk.Basic
import Gelf.Compression
import Gelf.Decimal.Reading
import Gelf.Text.Blank
import Gelf.Text.Utf8

/-!
# Configuration

The options of a shipper, read from five variables over their defaults. A blank variable counts as
unset. The variables are asked for in a fixed order, and the first one with a bad value ends the
reading.
-/

namespace Gelf

structure Config where
  host : String := "127.0.0.1"
  port : UInt16 := 12201
  maxChunkSize : UInt64 := defaultMaxChunkSize
  compression : Compression := .none
  /-- The host of records whose event has none. Without it, the host is that of the machine. -/
  sourceHost : Option String := none
  deriving DecidableEq

inductive Variable
  | host
  | port
  | maxChunkSize
  | compression
  | sourceHost
  deriving DecidableEq, Repr

namespace Variable

def name : Variable → String
  | .host => "GELF_HOST"
  | .port => "GELF_PORT"
  | .maxChunkSize => "GELF_MAX_CHUNK_SIZE"
  | .compression => "GELF_COMPRESSION"
  | .sourceHost => "GELF_SOURCE_HOST"

/-- All variables, in the order in which they are asked for. -/
def all : List Variable := [.host, .port, .maxChunkSize, .compression, .sourceHost]

end Variable

inductive ValueError
  | integer (e : Decimal.IntegerError)
  | compression (e : CompressionNameError)
  deriving DecidableEq, Repr

def ValueError.message : ValueError → String
  | .integer e => e.message
  | .compression e => e.message

inductive ConfigError
  | notUnicode (v : Variable)
  /-- The value is given as it was found, with blanks. -/
  | invalid (v : Variable) (value : String) (reason : ValueError)
  deriving DecidableEq, Repr

def ConfigError.message : ConfigError → String
  | .notUnicode v => "environment variable " ++ v.name ++ " is not valid unicode"
  | .invalid v value reason =>
    "environment variable " ++ v.name ++ " has invalid value `" ++ value ++ "`: " ++ reason.message

namespace Config

def set (config : Config) (v : Variable) (value : String) : Except ValueError Config :=
  match v with
  | .host => .ok { config with host := value }
  | .port =>
    match Decimal.readNat 65535 value with
    | .ok n => .ok { config with port := UInt16.ofNat n }
    | .error e => .error (.integer e)
  | .maxChunkSize =>
    match Decimal.readNat 0xffffffffffffffff value with
    | .ok n => .ok { config with maxChunkSize := UInt64.ofNat n }
    | .error e => .error (.integer e)
  | .compression =>
    match Compression.parse value with
    | .ok c => .ok { config with compression := c }
    | .error e => .error (.compression e)
  | .sourceHost => .ok { config with sourceHost := some value }

/-- Where values are looked up. A question may change the state of the lookup. -/
abbrev Lookup (σ : Type) := Variable → σ → Option String × σ

/-- Reads variables one after another over the options. A bad value ends the reading. -/
def readFrom {σ : Type} (lookup : Lookup σ) :
    List Variable → Config → σ → Except ConfigError Config × σ
  | [], config, state => (.ok config, state)
  | v :: vs, config, state =>
    let (value?, state) := lookup v state
    match value?.filter fun value => !Text.blank value with
    | none => readFrom lookup vs config state
    | some value =>
      match config.set v (Text.trim value) with
      | .error reason => (.error (.invalid v value reason), state)
      | .ok config => readFrom lookup vs config state

/-- Reads the options through a lookup, and gives the state in which it is left. -/
def readThrough {σ : Type} (lookup : Lookup σ) (state : σ) : Except ConfigError Config × σ :=
  readFrom lookup Variable.all {} state

/-- What a reading asked for, in order, and what it came to. -/
structure Reading where
  asked : List Variable
  result : Except ConfigError Config

/-- Reads the options from given values, and notes what it asks for. -/
def ofLookup (values : Variable → Option String) : Reading :=
  let (result, asked) := readThrough (fun v asked => (values v, asked ++ [v])) []
  { asked, result }

inductive Setting
  | unset
  | text (s : String)
  /-- The value is not Unicode. -/
  | octets (bytes : List UInt8)
  deriving DecidableEq

def Setting.ofOctets (bytes : List UInt8) : Setting :=
  match Text.ofUtf8? bytes with
  | some s => .text s
  | none => .octets bytes

def Setting.text? : Setting → Option String
  | .text s => some s
  | _ => none

/-- Looks values up in an environment. One that is not Unicode is passed over, and the state is the
first variable with such a value. -/
def lookupIn (environment : Variable → Setting) : Lookup (Option Variable) := fun v passed =>
  match environment v with
  | .unset => (none, passed)
  | .text s => (some s, passed)
  | .octets _ => (none, passed.or (some v))

/-- Reads the options from an environment. If a value was passed over, that is the error in the
end. -/
def ofEnvironment (environment : Variable → Setting) : Except ConfigError Config :=
  -- Only variables that were asked for count, so an earlier bad value hides what is behind it.
  match readThrough (lookupIn environment) none with
  | (_, some v) => .error (.notUnicode v)
  | (result, none) => result

end Config

end Gelf
