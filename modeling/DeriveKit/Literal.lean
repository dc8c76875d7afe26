import DeriveKit.Datum

/-!
Literals: texts, integers, reals and flags, how they are written, and the values of literal tokens.

The kind of a literal takes part in equality, and reals are compared as numbers.
-/
namespace DeriveKit

inductive Literal where
  | text (s : String)
  | int (n : Int)
  | real (x : Binary64)
  | flag (b : Bool)
deriving DecidableEq, Repr

namespace Literal

inductive Kind where
  | text
  | int
  | real
  | flag
deriving DecidableEq, Repr

def kind : Literal → Kind
  | text _ => .text
  | int _ => .int
  | real _ => .real
  | flag _ => .flag

/-- Equality of literals. -/
def same : Literal → Literal → Bool
  | text s, text s' => s == s'
  | int n, int n' => n == n'
  | real x, real x' => x.same x'
  | flag b, flag b' => b == b'
  | _, _ => false

/-- One character inside a written text literal. -/
def writtenChar (c : Char) : List Char :=
  if c = '\\' then ['\\', '\\'] else if c = '"' then ['\\', '"'] else [c]

/-- The notation of a literal in source. -/
def render : Literal → String
  | text s => String.ofList ('"' :: (s.toList.flatMap writtenChar ++ ['"']))
  | int n => Text.signedDecimal n
  | real x => x.render
  | flag b => if b then "true" else "false"

/-- Whether a literal can be written: an integer of too many digits cannot. -/
def isWritable : Literal → Bool
  | int n => (Text.signedDecimal? n).isSome
  | _ => true

/-- The literal as it is written. -/
def render? (v : Literal) : Option String := if v.isWritable then some v.render else none

/-- Why data is no literal. -/
inductive Unsupported where
  /-- Data of another kind, as messages show it. -/
  | kind (shown : String)
  | tooManyDigits

def Unsupported.message : Unsupported → String
  | kind shown => "Unsupported literal value: " ++ shown
  | tooManyDigits => Text.digitLimitMessage ""

def ofDatum : Datum → Except Unsupported Literal
  | .flag b => .ok (.flag b)
  | .int n => .ok (.int n)
  | .real x => .ok (.real x)
  | .text s => .ok (.text s)
  | d =>
    match d.display? with
    | some shown => .error (.kind shown)
    | none => .error .tooManyDigits

end Literal

/-! ## The characters of a source -/

/-- A code point: a character, or a surrogate, which is none and has no bytes. -/
inductive CodePoint where
  | char (c : Char)
  | surrogate (n : Fin 0x800)
deriving DecidableEq, Repr

/-- What reading a source takes for granted about characters. -/
structure Charset where
  /-- The character of a name, as in `\N{BULLET}`. -/
  named : List Char → Option Char
  /-- The code point of a character. Texts are made of characters, while a source may hold surrogates
  too: then characters that do not occur in it stand in for them. -/
  code : Char → CodePoint

/-- The charset of a source without surrogates: each character is its own code point. -/
def Charset.plain (named : List Char → Option Char) : Charset := ⟨named, .char⟩

/-! ## The values of literal tokens

The content of a text literal is read in four steps: its code points have to be characters, escapes
are resolved over the UTF-8 bytes of these, each resulting code point has to be a byte, and the bytes
are read as UTF-8 again. Each step that fails tells where. An integer literal has at most 4300
digits. -/

namespace Literal

open DeriveKit.Text

/-- Why a literal token has no value. -/
inductive Error where
  /-- Code point number `start` of the content is a surrogate. -/
  | surrogate (start : Nat)
  /-- A bad escape; its backslash is byte `start` of the content. -/
  | escape (start : Nat)
  /-- Code point number `start` of the unescaped content is no byte. -/
  | wide (start : Nat)
  /-- The unescaped bytes are no UTF-8 from byte `start` on. -/
  | utf8 (start : Nat)
  | tooManyDigits (count : Nat)
deriving DecidableEq, Repr

/-- What is said about a literal; the errors of decoding have only a place. -/
def Error.message? : Error → Option String
  | tooManyDigits count => some (digitLimitMessage (": value has " ++ decimal count ++ " digits"))
  | _ => none

/-- The characters of a content, or the index of its first surrogate. -/
def scalars : List CodePoint → Except Nat (List Char)
  | [] => .ok []
  | .char c :: rest => ((scalars rest).map (c :: ·)).mapError (· + 1)
  | .surrogate _ :: _ => .error 0

/-- The number written by exactly `count` hexadecimal digits at the start of `cs`. -/
def takeHex? : Nat → Nat → List Char → Option Nat
  | 0, acc, _ => some acc
  | _ + 1, _, [] => none
  | count + 1, acc, c :: rest =>
    match hexValue? c with
    | some d => takeHex? count (16 * acc + d) rest
    | none => none

/-- The octal digits that `cs` starts with, three at most. -/
def octalDigits (cs : List Char) : List Char := (cs.take 3).takeWhile isOctal

def octalValue (ds : List Char) : Nat :=
  ds.foldl (fun n d => 8 * n + (d.toNat - '0'.toNat)) 0

/-- The name that `cs` starts with in braces; it is not empty and ends at the first closing brace. -/
def bracedName? : List Char → Option (List Char)
  | '\x7b' :: rest =>
    let name := rest.takeWhile (· != '\x7d')
    if name.isEmpty || name.length = rest.length then none else some name
  | _ => none

/-- What a letter or mark stands for after a backslash. -/
def singleEscape? : Char → Option Nat
  | '\\' => some 0x5C
  | '\'' => some 0x27
  | '"' => some 0x22
  | 'a' => some 0x07
  | 'b' => some 0x08
  | 'f' => some 0x0C
  | 'n' => some 0x0A
  | 'r' => some 0x0D
  | 't' => some 0x09
  | 'v' => some 0x0B
  | _ => none

/-- What an escape stands for: its code points and the number of characters after the backslash that
belong to it. -/
structure Escape where
  codes : List Nat
  length : Nat

/-- The escape whose backslash stands just before `cs`. A backslash before any other character
stands for itself. -/
def Escape.read? (named : List Char → Option Char) (cs : List Char) : Option Escape :=
  match cs with
  | [] => none
  | c :: rest =>
    match singleEscape? c with
    | some n => some ⟨[n], 1⟩
    | none =>
      if isOctal c then
        let ds := octalDigits cs
        some ⟨[octalValue ds], ds.length⟩
      else if c = '\n' then some ⟨[], 1⟩
      else if c = 'x' then (takeHex? 2 0 rest).map fun n => ⟨[n], 3⟩
      else if c = 'u' then (takeHex? 4 0 rest).map fun n => ⟨[n], 5⟩
      else if c = 'U' then
        match takeHex? 8 0 rest with
        | some n => if n < 0x110000 then some ⟨[n], 9⟩ else none
        | none => none
      else if c = 'N' then
        match bracedName? rest with
        | some name => (named name).map fun c => ⟨[c.toNat], name.length + 3⟩
        | none => none
      else some ⟨[0x5C], 0⟩

/-- Resolves the escapes after passing over `skip` characters, which belong to the escape before
them. Characters outside escapes give their bytes. -/
def unescapeAfter (named : List Char → Option Char) : Nat → List Char → Except Nat (List Nat)
  | _, [] => .ok []
  | skip + 1, c :: rest =>
    (unescapeAfter named skip rest).mapError (· + (Utf8.encodeChar c).length)
  | 0, c :: rest =>
    if c = '\\' then
      match Escape.read? named rest with
      | some e => ((unescapeAfter named e.length rest).map (e.codes ++ ·)).mapError (· + 1)
      | none => .error 0
    else
      let bytes := Utf8.encodeChar c
      ((unescapeAfter named 0 rest).map (bytes ++ ·)).mapError (· + bytes.length)

/-- The code points of a content, or the byte at which its first bad escape begins. -/
def unescape (named : List Char → Option Char) (cs : List Char) : Except Nat (List Nat) :=
  unescapeAfter named 0 cs

/-- Code points as bytes, or the index of the first that is none. -/
def narrow : List Nat → Except Nat (List Nat)
  | [] => .ok []
  | n :: rest =>
    if n < 0x100 then ((narrow rest).map (n :: ·)).mapError (· + 1) else .error 0

/-- The text that the content of a text literal stands for. -/
def decodeContent (named : List Char → Option Char) (content : List CodePoint) :
    Except Error (List Char) := do
  let cs ← (scalars content).mapError .surrogate
  let codes ← (unescape named cs).mapError .escape
  let bytes ← (narrow codes).mapError .wide
  (Utf8.decode bytes).mapError .utf8

/-- The text of a literal in its quotes. -/
def decodeText (chars : Charset) (token : String) : Except Error String :=
  (decodeContent chars.named ((token.toList.drop 1).dropLast.map chars.code)).map String.ofList

/-- The number written by decimal digits. -/
def decodeNat (ds : List Char) : Except Error Nat :=
  if maxDigits < ds.length then .error (.tooManyDigits ds.length) else .ok (decimalValue ds)

/-- The integer written by decimal digits, perhaps after a minus sign. -/
def decodeInt (s : String) : Except Error Int :=
  match s.toList with
  | '-' :: ds => (decodeNat ds).map fun n => -Int.ofNat n
  | ds => (decodeNat ds).map Int.ofNat

end Literal

end DeriveKit
