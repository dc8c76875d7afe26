import DeriveKit.Text

/-!
Tokens of a source text: what kind of word each is, its text, and where it starts.

At each place the longest lexeme of the right class is taken: a token, or blank space, or a comment
up to the end of its line. Where none starts, lexing stops, and what came before is kept: a reader
that fails earlier never learns of the bad character.
-/
namespace DeriveKit

namespace Token

inductive Kind where
  | name
  | int
  | float
  | string
  | pub
  | struct
  | enum
  | mutable
  | trueWord
  | falseWord
  | leftParen
  | rightParen
  | comma
  | equals
  | pathSep
  | colon
  | semicolon
  | leftBrace
  | rightBrace
  | leftBracket
  | rightBracket
  | less
  | greater
  | ampersand
  | hash
deriving DecidableEq, Repr

namespace Kind

/-- The name by which errors call a kind. -/
def label : Kind → String
  | name => "NAME"
  | int => "INT"
  | float => "FLOAT"
  | string => "STRING"
  | pub => "PUB"
  | struct => "STRUCT"
  | enum => "ENUM"
  | mutable => "MUT"
  | trueWord => "TRUE"
  | falseWord => "FALSE"
  | leftParen => "LPAR"
  | rightParen => "RPAR"
  | comma => "COMMA"
  | equals => "EQ"
  | pathSep => "PATHSEP"
  | colon => "COLON"
  | semicolon => "SEMICOLON"
  | leftBrace => "LBRACE"
  | rightBrace => "RBRACE"
  | leftBracket => "LSQB"
  | rightBracket => "RSQB"
  | less => "LESSTHAN"
  | greater => "MORETHAN"
  | ampersand => "AMPERSAND"
  | hash => "HASH"

end Kind

end Token

structure Token where
  kind : Token.Kind
  text : String
  pos : Position
deriving DecidableEq, Repr

/-! ## From text to tokens -/

/-- The tokens of a text up to the first place where no lexeme starts, and that place. -/
structure Lexed where
  tokens : List Token
  stop : Option (Char × Position)
deriving DecidableEq, Repr

namespace Lexed

open DeriveKit.Text
open DeriveKit.Token (Kind)

def isNameStart (c : Char) : Bool :=
  ('A' ≤ c && c ≤ 'Z') || ('a' ≤ c && c ≤ 'z') || c == '_'

def isNameChar (c : Char) : Bool := isNameStart c || isDigit c

def isSpace (c : Char) : Bool :=
  c == ' ' || c == '\t' || c == '\x0c' || c == '\r' || c == '\n'

/-- The kind of a name; some names are keywords. -/
def nameKind (text : List Char) : Kind :=
  if text = "pub".toList then .pub
  else if text = "struct".toList then .struct
  else if text = "enum".toList then .enum
  else if text = "mut".toList then .mutable
  else if text = "true".toList then .trueWord
  else if text = "false".toList then .falseWord
  else .name

/-- The kind of a mark that is one character long. -/
def markKind? : Char → Option Kind
  | '(' => some .leftParen
  | ')' => some .rightParen
  | ',' => some .comma
  | '=' => some .equals
  | ':' => some .colon
  | ';' => some .semicolon
  | '\x7b' => some .leftBrace
  | '\x7d' => some .rightBrace
  | '[' => some .leftBracket
  | ']' => some .rightBracket
  | '<' => some .less
  | '>' => some .greater
  | '&' => some .ampersand
  | '#' => some .hash
  | _ => none

/-- The length of a string literal after its opening quote, the closing quote included. A backslash
takes the next character along, which must not be a line feed. -/
def stringTail? : List Char → Option Nat
  | [] => none
  | '"' :: _ => some 1
  | '\\' :: c :: rest => if c = '\n' then none else (stringTail? rest).map (· + 2)
  | '\\' :: [] => none
  | _ :: rest => (stringTail? rest).map (· + 1)

/-- The number of characters at the start of `cs` that satisfy `p`. -/
def run (p : Char → Bool) (cs : List Char) : Nat := (cs.takeWhile p).length

/-- The kind and length of a number that starts with a digit before `rest`: digits, and perhaps a
point with digits on both sides. -/
def numberTail (rest : List Char) : Kind × Nat :=
  let whole := run isDigit rest
  match rest.drop whole with
  | '.' :: d :: more => if isDigit d then (.float, whole + 2 + run isDigit more) else (.int, whole)
  | _ => (.int, whole)

/-- The lexeme that starts with `c` before `rest`: its kind, none for blank space and comments, and
the number of its characters after `c`. -/
def lexeme? (c : Char) (rest : List Char) : Option (Option Kind × Nat) :=
  if isSpace c then some (none, run isSpace rest)
  else if isNameStart c then
    let length := run isNameChar rest
    some (nameKind (c :: rest.take length), length)
  else if isDigit c then
    let (kind, length) := numberTail rest
    some (kind, length)
  else if c = '"' then (stringTail? rest).map fun length => (some .string, length)
  else if c = '/' then
    match rest with
    | '/' :: more => some (none, 1 + run (· != '\n') more)
    | _ => none
  else if c = ':' ∧ rest.head? = some ':' then some (some .pathSep, 1)
  else (markKind? c).map fun kind => (some kind, 0)

/-- Puts a token in front. -/
def cons (t : Token) (l : Lexed) : Lexed := { l with tokens := t :: l.tokens }

/-- Lexes a text whose first character stands at `pos`, after passing over `skip` characters that
belong to the lexeme before them. -/
def scanAfter : Nat → Position → List Char → Lexed
  | _, _, [] => ⟨[], none⟩
  | skip + 1, pos, c :: rest => scanAfter skip (pos.next c) rest
  | 0, pos, c :: rest =>
    match lexeme? c rest with
    | none => ⟨[], some (c, pos)⟩
    | some (kind, length) =>
      let after := scanAfter length (pos.next c) rest
      match kind with
      | none => after
      | some kind => cons ⟨kind, String.ofList (c :: rest.take length), pos⟩ after

/-- The tokens of a whole text. -/
def ofText (text : String) : Lexed := scanAfter 0 .start text.toList

end Lexed

end DeriveKit
