import Gelf.Shipper.Basic

/-!
# Inspecting shippers

A shipper as one line of text, for logs and failed assertions.
-/

namespace Gelf

namespace Inspection

open Json (Number Value)

def commas (parts : List String) : String := ", ".intercalate parts

def braces (name : String) (parts : List String) : String :=
  name ++ "\x7b " ++ commas parts ++ " \x7d"

mutual

def valueText : Value → String
  | .null => "Null"
  | .bool b => "Bool(" ++ Json.boolText b ++ ")"
  | .number n => "Number(" ++ String.ofList n.chars ++ ")"
  | .string s => "String(" ++ Text.quoted s ++ ")"
  | .array items => "Array [" ++ commas (itemTexts items) ++ "]"
  | .object members => "Object \x7b" ++ commas (memberTexts members) ++ "\x7d"

def itemTexts : List Value → List String
  | [] => []
  | v :: vs => valueText v :: itemTexts vs

def memberTexts : List (String × Value) → List String
  | [] => []
  | (k, v) :: ms => (Text.quoted k ++ ": " ++ valueText v) :: memberTexts ms

end

def encoderText (encoder : Encoder) : String :=
  braces "MessageEncoder "
    ["host: " ++ Text.quoted encoder.host,
      "additional_fields: \x7b" ++ commas (memberTexts encoder.fields.entries) ++ "\x7d"]

def compressionText : Compression → String
  | .none => "None"
  | .gzip => "Gzip"
  | .zlib => "Zlib"

/-- A direct route that was not used yet. -/
def unusedRouteText (target : Delivery.Target) : String :=
  braces "UdpTransport "
    ["target: " ++ braces "TransportTarget "
      ["host: " ++ Text.quoted target.host, "port: " ++ toString target.port.toNat],
      "v4: OnceLock(<uninit>)", "v6: OnceLock(<uninit>)"]

end Inspection

/-- A direct shipper that was not used yet, in one line. -/
def Shipper.describe (shipper : Shipper) : String :=
  Inspection.braces "GelfHandler "
    ["encoder: " ++ Inspection.encoderText shipper.pipeline.encoder,
      "compression: " ++ Inspection.compressionText shipper.pipeline.compression,
      "max_chunk_size: " ++ toString shipper.pipeline.maxChunkSize.toNat,
      "transport: " ++ Inspection.unusedRouteText shipper.target, ".."]

end Gelf
