/-!
Texts: blanks and digits, the ways in which messages show a text, UTF-8, and places in a text.
-/
namespace DeriveKit.Text

/-! ## Blanks

A character is blank if Unicode counts it as white space or if it is one of the four information
separators U+001C to U+001F. `trim` removes blanks at both ends and nothing in between. -/

/-- The ranges of blank code points, both ends included, in increasing order. -/
def blankRanges : List (Nat × Nat) :=
  [(0x09, 0x0D), (0x1C, 0x20), (0x85, 0x85), (0xA0, 0xA0), (0x1680, 0x1680), (0x2000, 0x200A),
    (0x2028, 0x2029), (0x202F, 0x202F), (0x205F, 0x205F), (0x3000, 0x3000)]

def isBlank (c : Char) : Bool :=
  blankRanges.any fun (lo, hi) => lo ≤ c.toNat && c.toNat ≤ hi

/-- Drops the blanks at the start. -/
def trimStart (cs : List Char) : List Char := cs.dropWhile isBlank

/-- Drops the blanks at the end. -/
def trimEnd (cs : List Char) : List Char := (cs.reverse.dropWhile isBlank).reverse

/-- Drops the blanks at both ends. -/
def trim (cs : List Char) : List Char := trimEnd (trimStart cs)

/-! ## Digits of all scripts

The decimal digits of a script are ten code points in a row, from zero to nine. -/

/-- The code points of the zeros, in increasing order. -/
def zeros : List Nat :=
  [0x30, 0x660, 0x6F0, 0x7C0, 0x966, 0x9E6, 0xA66, 0xAE6, 0xB66, 0xBE6, 0xC66, 0xCE6, 0xD66, 0xDE6,
    0xE50, 0xED0, 0xF20, 0x1040, 0x1090, 0x17E0, 0x1810, 0x1946, 0x19D0, 0x1A80, 0x1A90, 0x1B50,
    0x1BB0, 0x1C40, 0x1C50, 0xA620, 0xA8D0, 0xA900, 0xA9D0, 0xA9F0, 0xAA50, 0xABF0, 0xFF10, 0x104A0,
    0x10D30, 0x11066, 0x110F0, 0x11136, 0x111D0, 0x112F0, 0x11450, 0x114D0, 0x11650, 0x116C0,
    0x11730, 0x118E0, 0x11950, 0x11C50, 0x11D50, 0x11DA0, 0x16A60, 0x16AC0, 0x16B50, 0x1D7CE,
    0x1D7D8, 0x1D7E2, 0x1D7EC, 0x1D7F6, 0x1E140, 0x1E2F0, 0x1E950, 0x1FBF0]

/-- The ASCII digit of the same value as a decimal digit; any other character is kept. -/
def asciiDigit (c : Char) : Char :=
  if c.toNat < 0x80 then c
  else
    match zeros.find? fun z => z ≤ c.toNat && c.toNat < z + 10 with
    | some z => Char.ofNat ('0'.toNat + (c.toNat - z))
    | none => c

/-! ## Digits of natural numbers, read and written in bases up to sixteen -/

/-- The value of an ASCII digit in base sixteen; letters count in either case. -/
def hexValue? (c : Char) : Option Nat :=
  if '0' ≤ c ∧ c ≤ '9' then some (c.toNat - '0'.toNat)
  else if 'a' ≤ c ∧ c ≤ 'f' then some (c.toNat - 'a'.toNat + 10)
  else if 'A' ≤ c ∧ c ≤ 'F' then some (c.toNat - 'A'.toNat + 10)
  else none

def isOctal (c : Char) : Bool := '0' ≤ c && c ≤ '7'

/-- An ASCII decimal digit. -/
def isDigit (c : Char) : Bool := '0' ≤ c && c ≤ '9'

/-- The number written by a run of decimal digits, most significant first. -/
def decimalValue (ds : List Char) : Nat :=
  ds.foldl (fun n d => 10 * n + (d.toNat - '0'.toNat)) 0

/-- The decimal digits of `n`. -/
def decimal (n : Nat) : String := String.ofList (Nat.toDigits 10 n)

/-- The decimal digits of `n`, after a minus sign if it is negative. -/
def signedDecimal (n : Int) : String :=
  if n < 0 then "-" ++ decimal n.natAbs else decimal n.natAbs

/-- The most digits of an integer that is read from text or written as text. -/
def maxDigits : Nat := 4300

/-- The text of an integer, unless it has too many digits. -/
def signedDecimal? (n : Int) : Option String :=
  if maxDigits < (Nat.toDigits 10 n.natAbs).length then none else some (signedDecimal n)

/-- What is said about an integer of too many digits; `found` tells their number, where it is known. -/
def digitLimitMessage (found : String) : String :=
  "Exceeds the limit (" ++ decimal maxDigits ++ " digits) for integer string conversion" ++ found
    ++ "; use sys.set_int_max_str_digits() to increase the limit"

/-- The lower-case hexadecimal digits of `n`, with zeros in front up to `width` digits. -/
def hexPadded (width n : Nat) : List Char :=
  let ds := Nat.toDigits 16 n
  List.replicate (width - ds.length) '0' ++ ds

/-! ## Quoted texts, as messages show a value

The text stands in single quotes, or in double quotes when it holds a single quote and no double
quote. The backslash and the quote in use are escaped, and so is every character that leaves no
visible mark: line feed, carriage return and tab by letter, the others by their code point. -/

/-- Ranges of code points that steer layout or have no fixed meaning, and so leave no mark. -/
def unmarkedRanges : List (Nat × Nat) :=
  [(0x00, 0x1F), (0x7F, 0x9F), (0xAD, 0xAD), (0x600, 0x605), (0x61C, 0x61C), (0x6DD, 0x6DD),
    (0x70F, 0x70F), (0x890, 0x891), (0x8E2, 0x8E2), (0x180E, 0x180E), (0x200B, 0x200F),
    (0x202A, 0x202E), (0x2060, 0x2064), (0x2066, 0x206F), (0xE000, 0xF8FF), (0xFEFF, 0xFEFF),
    (0xFFF9, 0xFFFB), (0x110BD, 0x110BD), (0x110CD, 0x110CD), (0x13430, 0x1343F),
    (0x1BCA0, 0x1BCA3), (0x1D173, 0x1D17A), (0xE0001, 0xE0001), (0xE0020, 0xE007F),
    (0xF0000, 0xFFFFD), (0x100000, 0x10FFFD)]

/-- Blanks other than the space leave no mark either. -/
def isUnmarked (c : Char) : Bool :=
  (isBlank c && c != ' ') || unmarkedRanges.any fun (lo, hi) => lo ≤ c.toNat && c.toNat ≤ hi

/-- The quote that encloses `cs`. -/
def quoteFor (cs : List Char) : Char :=
  if cs.contains '\'' && !cs.contains '"' then '"' else '\''

/-- One character of a text enclosed in `quote`. -/
def quotedChar (quote c : Char) : List Char :=
  if c = '\\' ∨ c = quote then ['\\', c]
  else if c = '\n' then ['\\', 'n']
  else if c = '\r' then ['\\', 'r']
  else if c = '\t' then ['\\', 't']
  else if isUnmarked c then
    if c.toNat < 0x100 then '\\' :: 'x' :: hexPadded 2 c.toNat
    else if c.toNat < 0x10000 then '\\' :: 'u' :: hexPadded 4 c.toNat
    else '\\' :: 'U' :: hexPadded 8 c.toNat
  else [c]

/-- The text `s` in quotes. -/
def quoted (s : String) : String :=
  let quote := quoteFor s.toList
  String.ofList (quote :: (s.toList.flatMap (quotedChar quote) ++ [quote]))

/-- A row of quoted texts in parentheses; a single one is followed by a comma. -/
def quotedRow : List String → String
  | [s] => "(" ++ quoted s ++ ",)"
  | ss => "(" ++ ", ".intercalate (ss.map quoted) ++ ")"

/-! ## Listings

Texts in brackets, each in double quotes. Inside the quotes the backslash, the double quote, the line
feed and the tab are written as a backslash and a letter or mark; everything else stands for itself,
so two different lists never have the same listing. -/

/-- One character of a listed text. -/
def listedChar (c : Char) : List Char :=
  if c = '\\' then ['\\', '\\']
  else if c = '"' then ['\\', '"']
  else if c = '\n' then ['\\', 'n']
  else if c = '\t' then ['\\', 't']
  else [c]

/-- One text of a listing, in its quotes. -/
def listed (s : String) : String :=
  String.ofList ('"' :: (s.toList.flatMap listedChar ++ ['"']))

/-- The listing of some texts, as `["a", "b"]`. -/
def listing (items : List String) : String :=
  "[" ++ ", ".intercalate (items.map listed) ++ "]"

/-! ## JSON strings

Printable ASCII characters, from the space to the tilde, stand for themselves. Whatever lies outside
is written by its UTF-16 units. -/

/-- One UTF-16 unit. -/
def unitEscape (n : Nat) : List Char := '\\' :: 'u' :: hexPadded 4 n

/-- One character of a JSON string. -/
def asciiChar (c : Char) : List Char :=
  let n := c.toNat
  if c = '"' ∨ c = '\\' then ['\\', c]
  else if c = '\n' then ['\\', 'n']
  else if c = '\r' then ['\\', 'r']
  else if c = '\t' then ['\\', 't']
  else if n = 0x08 then ['\\', 'b']
  else if n = 0x0C then ['\\', 'f']
  else if 0x20 ≤ n ∧ n < 0x7F then [c]
  else if n < 0x10000 then unitEscape n
  else
    let rest := n - 0x10000
    unitEscape (0xD800 + rest / 0x400) ++ unitEscape (0xDC00 + rest % 0x400)

/-- The text `s` as a JSON string, in its quotes. -/
def asciiJson (s : String) : String :=
  String.ofList ('"' :: (s.toList.flatMap asciiChar ++ ['"']))

end DeriveKit.Text

/-! ## UTF-8

Texts as lists of bytes, a byte being a number below 256. `encode` writes characters; `decode` reads
them back and, where the bytes are no UTF-8, tells the index at which the first bad sequence begins.
Overlong forms, surrogates and values above U+10FFFF are bad. -/

namespace DeriveKit.Utf8

/-- The bytes of one character. -/
def encodeChar (c : Char) : List Nat :=
  let n := c.toNat
  if n < 0x80 then [n]
  else if n < 0x800 then [0xC0 + n / 0x40, 0x80 + n % 0x40]
  else if n < 0x10000 then [0xE0 + n / 0x1000, 0x80 + n / 0x40 % 0x40, 0x80 + n % 0x40]
  else
    [0xF0 + n / 0x40000, 0x80 + n / 0x1000 % 0x40, 0x80 + n / 0x40 % 0x40, 0x80 + n % 0x40]

def encode (cs : List Char) : List Nat := cs.flatMap encodeChar

/-- A byte that continues a sequence. -/
def isContinuation (b : Nat) : Bool := 0x80 ≤ b && b < 0xC0

/-- The characters of `bytes`, or the index where the first bad sequence begins. -/
def decode : List Nat → Except Nat (List Char)
  | [] => .ok []
  | a :: rest =>
    if a < 0x80 then
      ((decode rest).map (Char.ofNat a :: ·)).mapError (· + 1)
    else
      match rest with
      | b :: rest =>
        if 0xC2 ≤ a && a < 0xE0 && isContinuation b then
          ((decode rest).map (Char.ofNat ((a - 0xC0) * 0x40 + (b - 0x80)) :: ·)).mapError (· + 2)
        else
          match rest with
          | c :: rest =>
            let n := (a - 0xE0) * 0x1000 + (b - 0x80) * 0x40 + (c - 0x80)
            if 0xE0 ≤ a && a < 0xF0 && isContinuation b && isContinuation c
                && 0x800 ≤ n && !(0xD800 ≤ n && n < 0xE000) then
              ((decode rest).map (Char.ofNat n :: ·)).mapError (· + 3)
            else
              match rest with
              | d :: rest =>
                let n := (a - 0xF0) * 0x40000 + (b - 0x80) * 0x1000 + (c - 0x80) * 0x40 + (d - 0x80)
                if 0xF0 ≤ a && a < 0xF8 && isContinuation b && isContinuation c
                    && isContinuation d && 0x10000 ≤ n && n < 0x110000 then
                  ((decode rest).map (Char.ofNat n :: ·)).mapError (· + 4)
                else .error 0
              | [] => .error 0
          | [] => .error 0
      | [] => .error 0

end DeriveKit.Utf8

/-! ## Places

A place is a line and a column, both counted from one. A column counts characters, and only a line
feed begins a new line. -/

namespace DeriveKit

structure Position where
  line : Nat
  column : Nat
deriving DecidableEq, Repr

namespace Position

def start : Position := ⟨1, 1⟩

/-- The place after a character that stands at `p`. -/
def next (p : Position) (c : Char) : Position :=
  if c = '\n' then ⟨p.line + 1, 1⟩ else ⟨p.line, p.column + 1⟩

/-- The place after a text that starts at `p`. -/
def advance (p : Position) (cs : List Char) : Position := cs.foldl next p

end Position

end DeriveKit
