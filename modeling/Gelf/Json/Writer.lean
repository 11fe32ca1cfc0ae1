import Gelf.Json.Printer

/-!
# Writing documents

What is handed to the writer is wider than a value: the members of a map may have any document for
a name, and floats need not be finite. A float that is not finite is written as `null`, and a name
that has no text is refused. Values have only names that are written, so no value is refused.
-/

namespace Gelf.Json

inductive Document
  | null
  | bool (b : Bool)
  | integer (n : Integer)
  | float (x : Float)
  | text (s : String)
  | list (items : List Document)
  | map (members : List (Document × Document))

inductive WriteError
  | nameNotText
  | nameNotFinite
  deriving DecidableEq, Repr

def WriteError.message : WriteError → String
  | .nameNotText => "key must be a string"
  | .nameNotFinite => "float key must be finite (got NaN or +/-inf)"

namespace Document

def quotedChars (cs : List Char) : List Char := '"' :: (cs ++ ['"'])

/-- The name of a member. Numbers and truth values become texts. -/
def nameChars : Document → Except WriteError (List Char)
  | .text s => .ok (stringChars s)
  | .bool b => .ok (quotedChars (boolText b).toList)
  | .integer n => .ok (quotedChars (integerChars n.val))
  | .float x =>
    if x.isFinite then .ok (quotedChars (Decimal.floatChars numerals x)) else .error .nameNotFinite
  | .null | .list _ | .map _ => .error .nameNotText

mutual

def chars : Document → Except WriteError (List Char)
  | .null => .ok ['n', 'u', 'l', 'l']
  | .bool b => .ok (boolText b).toList
  | .integer n => .ok (integerChars n.val)
  | .float x => .ok (if x.isFinite then Decimal.floatChars numerals x else ['n', 'u', 'l', 'l'])
  | .text s => .ok (stringChars s)
  | .list [] => .ok ['[', ']']
  | .list (d :: ds) => do
    let item ← d.chars
    let tail ← itemsTail ds
    return '[' :: (item ++ tail)
  | .map [] => .ok ['{', '}']
  | .map ((name, d) :: ms) => do
    let name ← name.nameChars
    let value ← d.chars
    let tail ← membersTail ms
    return '{' :: (name ++ ':' :: (value ++ tail))

def itemsTail : List Document → Except WriteError (List Char)
  | [] => .ok [']']
  | d :: ds => do
    let item ← d.chars
    let tail ← itemsTail ds
    return ',' :: (item ++ tail)

def membersTail : List (Document × Document) → Except WriteError (List Char)
  | [] => .ok ['}']
  | (name, d) :: ms => do
    let name ← name.nameChars
    let value ← d.chars
    let tail ← membersTail ms
    return ',' :: (name ++ ':' :: (value ++ tail))

end

def write (d : Document) : Except WriteError String := d.chars.map String.ofList

end Document

namespace Value

mutual

def document : Value → Document
  | .null => .null
  | .bool b => .bool b
  | .number (.integer n) => .integer n
  | .number (.real x) => .float x.val
  | .string s => .text s
  | .array items => .list (itemDocuments items)
  | .object members => .map (memberDocuments members)

def itemDocuments : List Value → List Document
  | [] => []
  | v :: vs => v.document :: itemDocuments vs

def memberDocuments : List (String × Value) → List (Document × Document)
  | [] => []
  | (name, v) :: ms => (.text name, v.document) :: memberDocuments ms

end

mutual

theorem chars_document : (v : Value) → v.document.chars = .ok v.chars
  | .null => rfl
  | .bool _ => rfl
  | .number (.integer _) => rfl
  | .number (.real x) => congrArg Except.ok (if_pos x.isFinite)
  | .string _ => rfl
  | .array [] => rfl
  | .array (v :: vs) => by
    rw [document, itemDocuments, Document.chars, chars_document v, itemsTail_itemDocuments vs]
    rfl
  | .object [] => rfl
  | .object ((name, v) :: ms) => by
    rw [document, memberDocuments, Document.chars, chars_document v,
      membersTail_memberDocuments ms]
    rfl

theorem itemsTail_itemDocuments : (vs : List Value) →
    Document.itemsTail (itemDocuments vs) = .ok (itemsTail vs)
  | [] => rfl
  | v :: vs => by
    rw [itemDocuments, Document.itemsTail, chars_document v, itemsTail_itemDocuments vs]
    rfl

theorem membersTail_memberDocuments : (ms : List (String × Value)) →
    Document.membersTail (memberDocuments ms) = .ok (membersTail ms)
  | [] => rfl
  | (name, v) :: ms => by
    rw [memberDocuments, Document.membersTail, chars_document v, membersTail_memberDocuments ms]
    rfl

end

/-- Values are written, at any depth. -/
theorem write_document (v : Value) : v.document.write = .ok v.text := by
  rw [Document.write, chars_document]
  rfl

end Value

end Gelf.Json
