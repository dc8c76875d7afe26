import DeriveKit.Attribute
import DeriveKit.Reader

/-!
Token trees, and the metadata that they stand for.

Parameters are separated by commas, with one perhaps after the last. A parameter is a literal, a
path, a path with parameters in parentheses, or a path, `=` and a literal. Parameters are made sense
of from left to right. At the first that is none of these the whole is no metadata and is kept as
text; at the first literal that has no value, that is the answer instead.
-/
namespace DeriveKit

/-! ## Token trees

Runs of tokens in which parentheses match. They are what the arguments of an attribute are read as
before anything is made of them. -/

inductive TokenTree where
  | leaf (t : Token)
  | group (trees : List TokenTree)
deriving Repr

namespace TokenTree

open DeriveKit.Token (Kind)

mutual
/-- The tokens' texts with single spaces between them, and none inside parentheses. -/
def render : TokenTree → String
  | leaf t => t.text
  | group trees => "(" ++ " ".intercalate (renderEach trees) ++ ")"

def renderEach : List TokenTree → List String
  | [] => []
  | t :: ts => t.render :: renderEach ts
end

/-- The text of a run of trees. -/
def renderAll (trees : List TokenTree) : String := " ".intercalate (renderEach trees)

/-- The kinds of tokens that may stand in arguments, parentheses apart. -/
def isLeafKind : Kind → Bool
  | .name | .pathSep | .comma | .equals | .string | .float | .int | .trueWord | .falseWord => true
  | _ => false

/-- A run of trees that is being read: the trees of the innermost open group, and of those around
it from the inside out. -/
structure Open where
  inner : List TokenTree
  outer : List (List TokenTree)

/-- Adds one token to a run. A closing parenthesis needs an open group. -/
def Open.push : Open → Token → Option Open
  | ⟨inner, outer⟩, t =>
    if t.kind = .leftParen then some ⟨[], inner :: outer⟩
    else if t.kind = .rightParen then
      match outer with
      | around :: outer => some ⟨around ++ [.group inner], outer⟩
      | [] => none
    else if isLeafKind t.kind then some ⟨inner ++ [.leaf t], outer⟩
    else none

/-- Any number of trees. -/
@[reducible]
def many : Reader (List TokenTree) where
  State := Open
  start := ⟨[], []⟩
  feed := Open.push
  finish
    | ⟨trees, []⟩ => some trees
    | ⟨_, _ :: _⟩ => none

/-- One tree or more. -/
def oneOrMore : Reader (List TokenTree) :=
  many.filterMap fun trees => if trees.isEmpty then none else some trees

end TokenTree

/-! ## Metadata -/

/-- The arguments of an attribute before anything is made of them. -/
inductive Arguments where
  | none
  /-- Trees in parentheses. -/
  | parens (trees : List TokenTree)
  /-- Trees after `=`. -/
  | equals (trees : List TokenTree)
deriving Repr

namespace Metadata

open DeriveKit.Token (Kind)

/-- Why trees are no parameters. -/
inductive Refusal where
  | malformed
  | literal (e : Literal.Error)
deriving DecidableEq, Repr

/-- What one tree may contribute to a parameter. -/
inductive Item where
  | name (s : Segment)
  | pathSep
  | comma
  | equals
  | literal (value : Except Literal.Error Literal)
  | group (entries : Except Refusal (List Entry))
  | other

/-- The literal that a token writes, for the kinds of tokens that do. -/
def literal? (chars : Charset) (t : Token) : Option (Except Literal.Error Literal) :=
  match t.kind with
  | .string => some ((Literal.decodeText chars t.text).map .text)
  | .int => some ((Literal.decodeInt t.text).map .int)
  | .float => (Binary64.ofText? t.text).map fun x => .ok (.real x)
  | .trueWord => some (.ok (.flag true))
  | .falseWord => some (.ok (.flag false))
  | _ => none

def leafItem (chars : Charset) (t : Token) : Item :=
  match literal? chars t with
  | some value => .literal value
  | none =>
    match t.kind with
    | .name =>
      match Segment.of? t.text with
      | some s => .name s
      | none => .other
    | .pathSep => .pathSep
    | .comma => .comma
    | .equals => .equals
    | _ => .other

/-- The parts between commas, `current` being the beginning of the first. Nothing after the last
comma is no part. -/
def partsFrom : List Item → List Item → List (List Item)
  | current, [] => if current.isEmpty then [] else [current]
  | current, .comma :: rest => current :: partsFrom [] rest
  | current, item :: rest => partsFrom (current ++ [item]) rest

def parts (items : List Item) : List (List Item) := partsFrom [] items

/-- The path that `items` starts with, and what follows. A path does not end in `::`. -/
def takePath? : List Item → Option (Path × List Item)
  | .name s :: .pathSep :: rest =>
    (takePath? rest).map fun (p, rest) => (⟨s, p.head :: p.tail⟩, rest)
  | .name s :: rest => some (.single s, rest)
  | _ => none

/-- The entry that one part stands for. -/
def entry : List Item → Except Refusal Entry
  | [.literal value] => (value.mapError .literal).map .literal
  | part =>
    match takePath? part with
    | some (p, []) => .ok (.path p)
    | some (p, [.group entries]) => entries.map (.list p)
    | some (p, [.equals, .literal value]) => (value.mapError .literal).map (.keyValue p)
    | _ => .error .malformed

/-- The entries of all parts, or the first refusal. -/
def entriesOf : List (List Item) → Except Refusal (List Entry)
  | [] => .ok []
  | part :: more => do
    let e ← entry part
    let es ← entriesOf more
    return e :: es

mutual
def item (chars : Charset) : TokenTree → Item
  | .leaf t => leafItem chars t
  | .group trees => .group (entriesOf (parts (items chars trees)))

def items (chars : Charset) : List TokenTree → List Item
  | [] => []
  | tree :: trees => item chars tree :: items chars trees
end

/-- The entries that the trees between parentheses stand for. -/
def entries (chars : Charset) (trees : List TokenTree) : Except Refusal (List Entry) :=
  entriesOf (parts (items chars trees))

end Metadata

/-- What an attribute carries, given its arguments. -/
def Arguments.payload (chars : Charset) : Arguments → Except Literal.Error Payload
  | .none => .ok (.metadata .marker)
  | .parens trees =>
    match Metadata.entries chars trees with
    | .ok es => .ok (.metadata (.list es))
    | .error .malformed => .ok (.verbatim ("(" ++ TokenTree.renderAll trees ++ ")"))
    | .error (.literal e) => .error e
  | .equals trees =>
    match Metadata.items chars trees with
    | [.literal value] => value.map fun v => .metadata (.keyValue v)
    | _ => .ok (.verbatim ("= " ++ TokenTree.renderAll trees))

end DeriveKit
