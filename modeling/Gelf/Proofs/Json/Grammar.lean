import Gelf.Text.Digit

/-!
# The grammar of JSON

Which texts are JSON, and what they say. Numbers are kept as they are written, and the members of an
object stand in the order of the text, however often a name occurs. A derivation takes one part off
the front of a text and leaves a rest.
-/

namespace Gelf.Json

/-- What a text says. -/
inductive Tree
  | null
  | bool (b : Bool)
  | number (literal : List Char)
  | string (s : String)
  | array (items : List Tree)
  | object (members : List (String × Tree))

namespace Grammar

/-- The second text is left of the first one behind some blanks, or none. -/
inductive Skips : List Char → List Char → Prop
  | none {s : List Char} : Skips s s
  | blank {c : Char} {s t : List Char} (hc : c = ' ' ∨ c = '\t' ∨ c = '\n' ∨ c = '\r')
    (h : Skips s t) : Skips (c :: s) t

/-! ### Numbers -/

structure Digits (ds : List Char) : Prop where
  ne_nil : ds ≠ []
  digits : ∀ c ∈ ds, c.isDigit = true

/-- A zero in front stands alone. -/
inductive Whole : List Char → Prop
  | zero : Whole ['0']
  | digits {ds : List Char} (h : Digits ds) (hzero : ds.head? ≠ some '0') : Whole ds

inductive Fraction : List Char → Prop
  | none : Fraction []
  | some {ds : List Char} (h : Digits ds) : Fraction ('.' :: ds)

inductive Exponent : List Char → Prop
  | none : Exponent []
  | some {e : Char} {sign ds : List Char} (he : e = 'e' ∨ e = 'E')
    (hsign : sign = [] ∨ sign = ['+'] ∨ sign = ['-']) (h : Digits ds) : Exponent (e :: (sign ++ ds))

inductive Literal : List Char → Prop
  | mk {sign whole fraction exponent : List Char} (hsign : sign = [] ∨ sign = ['-'])
    (hwhole : Whole whole) (hfraction : Fraction fraction) (hexponent : Exponent exponent) :
    Literal (sign ++ (whole ++ (fraction ++ exponent)))

/-! ### Strings -/

/-- The characters that may stand behind a backslash, with what they stand for. -/
def escapes : List (Char × Char) :=
  [('"', '"'), ('\\', '\\'), ('/', '/'), ('b', '\x08'), ('f', '\x0c'), ('n', '\n'), ('r', '\r'),
    ('t', '\t')]

def unit? (a b c d : Char) : Option Nat :=
  match Text.hexDigit? a, Text.hexDigit? b, Text.hexDigit? c, Text.hexDigit? d with
  | some a, some b, some c, some d => some (((a * 16 + b) * 16 + c) * 16 + d)
  | _, _, _, _ => none

/-- The characters of a string. The text begins behind the opening quote, and what stands behind the
closing one is left. -/
inductive Quoted : List Char → List Char → List Char → Prop
  | close {rest : List Char} : Quoted ('"' :: rest) [] rest
  | plain {c : Char} {s cs rest : List Char} (hcontrol : 0x20 ≤ c.toNat) (hquote : c ≠ '"')
    (hbackslash : c ≠ '\\') (h : Quoted s cs rest) : Quoted (c :: s) (c :: cs) rest
  | escape {e c : Char} {s cs rest : List Char} (he : (e, c) ∈ escapes) (h : Quoted s cs rest) :
    Quoted ('\\' :: e :: s) (c :: cs) rest
  | unit {a b c d : Char} {n : Nat} {s cs rest : List Char} (hn : unit? a b c d = some n)
    (hscalar : n < 0xd800 ∨ 0xdfff < n) (h : Quoted s cs rest) :
    Quoted ('\\' :: 'u' :: a :: b :: c :: d :: s) (Char.ofNat n :: cs) rest
  | surrogates {a b c d a' b' c' d' : Char} {high low : Nat} {s cs rest : List Char}
    (hhigh : unit? a b c d = some (0xd800 + high)) (hlow : unit? a' b' c' d' = some (0xdc00 + low))
    (hhigh' : high < 0x400) (hlow' : low < 0x400) (h : Quoted s cs rest) :
    Quoted ('\\' :: 'u' :: a :: b :: c :: d :: '\\' :: 'u' :: a' :: b' :: c' :: d' :: s)
      (Char.ofNat (0x10000 + high * 0x400 + low) :: cs) rest

/-! ### Values -/

mutual

/-- The text begins with a value, and the rest is left behind it. -/
inductive Derives : List Char → Tree → List Char → Prop
  | null {rest : List Char} : Derives ('n' :: 'u' :: 'l' :: 'l' :: rest) .null rest
  | true {rest : List Char} : Derives ('t' :: 'r' :: 'u' :: 'e' :: rest) (.bool true) rest
  | false {rest : List Char} : Derives ('f' :: 'a' :: 'l' :: 's' :: 'e' :: rest) (.bool false) rest
  | number {literal rest : List Char} (h : Literal literal) :
    Derives (literal ++ rest) (.number literal) rest
  | string {s cs rest : List Char} (h : Quoted s cs rest) :
    Derives ('"' :: s) (.string (String.ofList cs)) rest
  | emptyArray {s rest : List Char} (h : Skips s (']' :: rest)) :
    Derives ('[' :: s) (.array []) rest
  | array {s rest : List Char} {items : List Tree} (h : Items s items rest) :
    Derives ('[' :: s) (.array items) rest
  | emptyObject {s rest : List Char} (h : Skips s ('}' :: rest)) :
    Derives ('{' :: s) (.object []) rest
  | object {s rest : List Char} {members : List (String × Tree)} (h : Members s members rest) :
    Derives ('{' :: s) (.object members) rest

/-- Items up to the closing bracket. There is at least one. -/
inductive Items : List Char → List Tree → List Char → Prop
  | last {s t u rest : List Char} {v : Tree} (hs : Skips s t) (h : Derives t v u)
    (hu : Skips u (']' :: rest)) : Items s [v] rest
  | next {s t u s' rest : List Char} {v : Tree} {vs : List Tree} (hs : Skips s t)
    (h : Derives t v u) (hu : Skips u (',' :: s')) (hrest : Items s' vs rest) :
    Items s (v :: vs) rest

inductive Member : List Char → String × Tree → List Char → Prop
  | mk {s t u s' t' rest : List Char} {name : List Char} {v : Tree} (hs : Skips s ('"' :: t))
    (hname : Quoted t name u) (hu : Skips u (':' :: s')) (hs' : Skips s' t')
    (h : Derives t' v rest) : Member s (String.ofList name, v) rest

/-- Members up to the closing brace. There is at least one. -/
inductive Members : List Char → List (String × Tree) → List Char → Prop
  | last {s u rest : List Char} {m : String × Tree} (h : Member s m u)
    (hu : Skips u ('}' :: rest)) : Members s [m] rest
  | next {s u s' rest : List Char} {m : String × Tree} {ms : List (String × Tree)}
    (h : Member s m u) (hu : Skips u (',' :: s')) (hrest : Members s' ms rest) :
    Members s (m :: ms) rest

end

/-- The whole text is one value, with nothing but blanks around it. -/
def IsText (text : String) (v : Tree) : Prop :=
  ∃ s rest, Skips text.toList s ∧ Derives s v rest ∧ Skips rest []

end Grammar

end Gelf.Json
