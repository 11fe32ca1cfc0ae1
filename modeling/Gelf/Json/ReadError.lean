import Gelf.Json.Printer
import Gelf.Text.Quoted

/-!
# Errors of reading JSON text

Each way in which a text is no JSON, or no JSON of the wanted shape. Errors are found in the order
in which the text is read.
-/

namespace Gelf.Json

inductive Found
  | null
  | bool (b : Bool)
  | number (n : Number)
  | string (s : String)
  | array
  | object
  deriving DecidableEq

inductive ReadError
  | endInValue
  | endInString
  | endInArray
  | endInObject
  | expectedValue
  | expectedLiteral
  | expectedColon
  | expectedCommaInArray
  | expectedCommaInObject
  | trailingComma
  | trailingText
  | nameNotString
  | invalidNumber
  | numberOutOfRange
  | invalidEscape
  | unfinishedSurrogates
  | loneSurrogate
  | invalidCodePoint
  | controlCharacter
  | tooDeep
  | mismatch (found : Found) (wanted : String)
  | outOfRange (n : Integer) (wanted : String)
  | missingField (name : String)
  | duplicateField (name : String)
  deriving DecidableEq

def Found.words : Found → String
  | .null => "null"
  | .bool b => "boolean `" ++ boolText b ++ "`"
  | .number (.integer n) => "integer `" ++ String.ofList (integerChars n.val) ++ "`"
  | .number (.real x) =>
    "floating point `" ++ String.ofList (Decimal.floatChars numerals x.val) ++ "`"
  | .string s => "string " ++ Text.quoted s
  | .array => "sequence"
  | .object => "map"

namespace ReadError

/-- Whether the text ended too early. -/
def atEnd : ReadError → Bool
  | .endInValue | .endInString | .endInArray | .endInObject => true
  | _ => false

def message : ReadError → String
  | .endInValue => "EOF while parsing a value"
  | .endInString => "EOF while parsing a string"
  | .endInArray => "EOF while parsing a list"
  | .endInObject => "EOF while parsing an object"
  | .expectedValue => "expected value"
  | .expectedLiteral => "expected ident"
  | .expectedColon => "expected `:`"
  | .expectedCommaInArray => "expected `,` or `]`"
  | .expectedCommaInObject => "expected `,` or `\x7d`"
  | .trailingComma => "trailing comma"
  | .trailingText => "trailing characters"
  | .nameNotString => "key must be a string"
  | .invalidNumber => "invalid number"
  | .numberOutOfRange => "number out of range"
  | .invalidEscape => "invalid escape"
  | .unfinishedSurrogates => "unexpected end of hex escape"
  | .loneSurrogate => "lone leading surrogate in hex escape"
  | .invalidCodePoint => "invalid unicode code point"
  | .controlCharacter => "control character (\\u0000-\\u001F) found while parsing a string"
  | .tooDeep => "recursion limit exceeded"
  | .mismatch found wanted => "invalid type: " ++ found.words ++ ", expected " ++ wanted
  | .outOfRange n wanted =>
    "invalid value: " ++ (Found.number (.integer n)).words ++ ", expected " ++ wanted
  | .missingField name => "missing field `" ++ name ++ "`"
  | .duplicateField name => "duplicate field `" ++ name ++ "`"

end ReadError

end Gelf.Json
