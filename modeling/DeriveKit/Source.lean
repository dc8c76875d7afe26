import DeriveKit.Declaration
import DeriveKit.Metadata

/-!
Reading snippets of source text.

A text is read from left to right and the first thing that cannot belong to it is reported: a
character where no token starts, a token that continues no sentence, or the end of the text. Only a
text that is a sentence is asked for the values of its literals.
-/
namespace DeriveKit.Reader

/-! ## Paths: names with `::` between them -/

/-- A name as a segment of a path. -/
def segment : Reader Segment := one fun t => if t.kind = .name then Segment.of? t.text else none

def path : Reader Path :=
  (segment.andThen (many ((kind .pathSep).skipThen segment))).map
    fun (head, tail) => ⟨head, tail⟩

/-! ## Types

Types nest, so the reader keeps the types that are still open around the current one, from the
inside out. -/

/-- A type that is still open. -/
inductive TypeFrame where
  | ref
  | refMut
  /-- A path with the generic arguments read so far. -/
  | args (path : Path) (done : List TypeExpr)
  /-- A tuple with the elements read so far. -/
  | tuple (done : List TypeExpr)

inductive TypeState where
  /-- A type begins here, or the list around it closes. -/
  | wanted (frames : List TypeFrame)
  /-- After `&`. -/
  | ampersand (frames : List TypeFrame)
  | inPath (frames : List TypeFrame) (s : path.State)
  /-- A type has ended. -/
  | complete (frames : List TypeFrame) (type : TypeExpr)

namespace TypeState

/-- Begins a type. -/
def enter (frames : List TypeFrame) (t : Token) : Option TypeState :=
  if t.kind = .ampersand then some (ampersand frames)
  else if t.kind = .leftParen then some (wanted (.tuple [] :: frames))
  else (path.feed path.start t).map (inPath frames)

/-- Closes a list where a type could begin. Generic arguments are never empty. -/
def close : List TypeFrame → Token → Option TypeState
  | .tuple done :: frames, t =>
    if t.kind = .rightParen then some (complete frames (.tuple done)) else none
  | .args p done :: frames, t =>
    if t.kind = .greater ∧ done ≠ [] then some (complete frames (.path p done)) else none
  | _, _ => none

/-- The token after a type. -/
def leave : List TypeFrame → TypeExpr → Token → Option TypeState
  | [], _, _ => none
  | .ref :: frames, type, t => leave frames (.ref type) t
  | .refMut :: frames, type, t => leave frames (.refMut type) t
  | .args p done :: frames, type, t =>
    if t.kind = .comma then some (wanted (.args p (done ++ [type]) :: frames))
    else if t.kind = .greater then some (complete frames (.path p (done ++ [type])))
    else none
  | .tuple done :: frames, type, t =>
    if t.kind = .comma then some (wanted (.tuple (done ++ [type]) :: frames))
    else if t.kind = .rightParen then some (complete frames (.tuple (done ++ [type])))
    else none

def feed : TypeState → Token → Option TypeState
  | wanted frames, t => (enter frames t).orElse fun _ => close frames t
  | ampersand frames, t =>
    if t.kind = .mutable then some (wanted (.refMut :: frames)) else enter (.ref :: frames) t
  | inPath frames s, t =>
    match path.feed s t with
    | some s => some (inPath frames s)
    | none =>
      (path.finish s).bind fun p =>
        if t.kind = .less then some (wanted (.args p [] :: frames)) else leave frames (.path p []) t
  | complete frames type, t => leave frames type t

/-- The whole type, once nothing but references is open around `type`. -/
def outermost : List TypeFrame → TypeExpr → Option TypeExpr
  | [], type => some type
  | .ref :: frames, type => outermost frames (.ref type)
  | .refMut :: frames, type => outermost frames (.refMut type)
  | _ :: _, _ => none

def finish : TypeState → Option TypeExpr
  | inPath frames s => (path.finish s).bind fun p => outermost frames (.path p [])
  | complete frames type => outermost frames type
  | _ => none

end TypeState

@[reducible]
def typeExpr : Reader TypeExpr where
  State := TypeState
  start := .wanted []
  feed := TypeState.feed
  finish := TypeState.finish

/-! ## Attributes: `#[path]`, `#[path(trees)]` and `#[path = trees]`

Arguments are read as token trees first. What they stand for is settled once the whole text is known
to be a sentence, so readers of larger things carry the outcome along: a value, or the first literal
that has none. -/

def parens : Reader Arguments :=
  ((kind .leftParen).skipThen (TokenTree.many.thenSkip (kind .rightParen))).map .parens

def equals : Reader Arguments := ((kind .equals).skipThen TokenTree.oneOrMore).map .equals

def arguments : Reader Arguments := (optional (parens.orElse equals)).map (·.getD .none)

/-- An attribute before anything is made of its arguments. -/
def attrTrees : Reader ((Path × Arguments) × Option Position) :=
  located <| (kind .hash).skipThen <| (kind .leftBracket).skipThen <|
    (path.andThen arguments).thenSkip (kind .rightBracket)

def attr (chars : Charset) : Reader (Except Literal.Error Attribute) :=
  attrTrees.map fun ((path, arguments), loc) =>
    (arguments.payload chars).map fun payload => ⟨path, payload, loc⟩

/-- All values, or the first error. -/
def collect {ε α : Type} : List (Except ε α) → Except ε (List α)
  | [] => .ok []
  | x :: xs => do
    let a ← x
    let as ← collect xs
    return a :: as

def attrs (chars : Charset) : Reader (Except Literal.Error (List Attribute)) :=
  (many (attr chars)).map collect

/-! ## Declarations: structs without fields, with fields in braces or in parentheses, and enums -/

def visibility : Reader (Option Unit) := optional (kind .pub)

def name : Reader String := textOf .name

def namedField (chars : Charset) : Reader (Except Literal.Error Field) :=
  (located ((attrs chars).andThen (visibility.skipThen
    (name.andThen ((kind .colon).skipThen typeExpr))))).map
    fun ((attrs, name, type), loc) => attrs.map fun attrs => ⟨type, some name, attrs, loc⟩

def tupleField (chars : Charset) : Reader (Except Literal.Error Field) :=
  (located ((attrs chars).andThen (visibility.skipThen typeExpr))).map
    fun ((attrs, type), loc) => attrs.map fun attrs => ⟨type, none, attrs, loc⟩

/-- Fields in braces. -/
def namedFields (chars : Charset) : Reader (Except Literal.Error FieldList) :=
  ((kind .leftBrace).skipThen ((commaList (namedField chars)).thenSkip (kind .rightBrace))).map
    fun fields => (collect fields).map .named

/-- Fields in parentheses. -/
def tupleFields (chars : Charset) : Reader (Except Literal.Error FieldList) :=
  ((kind .leftParen).skipThen ((commaList (tupleField chars)).thenSkip (kind .rightParen))).map
    fun fields => (collect fields).map .tuple

/-- What follows the name of a struct. Fields in braces are not followed by a semicolon. -/
def structBody (chars : Charset) : Reader (Except Literal.Error Data) :=
  ((kind .semicolon).map fun _ => .ok (.struct (some .unit) true)).orElse <|
    ((namedFields chars).map (·.map fun fields => .struct (some fields) false)).orElse <|
      ((tupleFields chars).thenSkip (kind .semicolon)).map
        (·.map fun fields => .struct (some fields) true)

def structItem (chars : Charset) : Reader (String × Except Literal.Error Data) :=
  (kind .struct).skipThen (name.andThen (structBody chars))

def variant (chars : Charset) : Reader (Except Literal.Error Variant) :=
  (located ((attrs chars).andThen (name.andThen (optional ((namedFields chars).orElse (tupleFields chars)))))).map
    fun ((attrs, ident, fields), loc) => do
      let attrs ← attrs
      let fields ← fields.getD (.ok .unit)
      return ⟨ident, some fields, attrs, loc⟩

def enumItem (chars : Charset) : Reader (String × Except Literal.Error Data) :=
  (kind .enum).skipThen (name.andThen
    (((kind .leftBrace).skipThen ((commaList (variant chars)).thenSkip (kind .rightBrace))).map
      fun variants => (collect variants).map .enum))

def declaration (chars : Charset) : Reader (Except Literal.Error Declaration) :=
  (located ((attrs chars).andThen (visibility.skipThen ((structItem chars).orElse (enumItem chars))))).map
    fun ((attrs, ident, data), loc) => do
      let attrs ← attrs
      let data ← data
      return ⟨ident, data, attrs, loc⟩

end DeriveKit.Reader

/-! ## Whole texts -/

namespace DeriveKit.Source

/-- Why a text cannot be read. -/
inductive Error where
  | unexpectedChar (c : Char) (pos : Position)
  | unexpectedToken (t : Token)
  /-- The text ends too early; `pos` is the place of its last token. -/
  | unexpectedEnd (pos : Position)
  | badLiteral (e : Literal.Error)
  | notParameters (text : String)
  | notNamedFields (text : String)
  | notTupleFields (text : String)
deriving DecidableEq, Repr

/-- What is said about a text that cannot be read; where a sentence breaks off, only the place is told. -/
def Error.message? : Error → Option String
  | .badLiteral e => e.message?
  | .notParameters text => some ("not a parameter list: `" ++ text ++ "`")
  | .notNamedFields text => some ("not a named field list: `" ++ text ++ "`")
  | .notTupleFields text => some ("not an unnamed field list: `" ++ text ++ "`")
  | _ => none

variable {α : Type}

/-- Feeds `tokens` to a reader in state `s`; `last` is the place of the token before them. -/
def run (r : Reader α) (stop : Option (Char × Position)) :
    r.State → Position → List Token → Except Error α
  | s, _, t :: tokens =>
    match r.feed s t with
    | some s => run r stop s t.pos tokens
    | none => .error (.unexpectedToken t)
  | s, last, [] =>
    match stop with
    | some (c, pos) => .error (.unexpectedChar c pos)
    | none =>
      match r.finish s with
      | some a => .ok a
      | none => .error (.unexpectedEnd last)

/-- Reads a whole text. -/
def read (r : Reader α) (text : String) : Except Error α :=
  let lexed := Lexed.ofText text
  run r lexed.stop r.start .start lexed.tokens

/-- Reads a text and the values of its literals. -/
def readValue (r : Reader (Except Literal.Error α)) (text : String) : Except Error α := do
  let value ← read r text
  value.mapError .badLiteral

def readDeclaration (chars : Charset) (text : String) : Except Error Declaration :=
  readValue (Reader.declaration chars) text

def readAttribute (chars : Charset) (text : String) : Except Error Attribute :=
  readValue (Reader.attr chars) text

def readPath (text : String) : Except Error Path := read Reader.path text

def readType (text : String) : Except Error TypeExpr := read Reader.typeExpr text

/-- Reads the parameters of an attribute, as `Clone, tag(a), key = 1`. -/
def readParameters (chars : Charset) (text : String) : Except Error (List Entry) := do
  let a ← readAttribute chars ("#[_(" ++ text ++ ")]")
  match a.payload with
  | .metadata (.list entries) => return entries
  | _ => throw (.notParameters text)

/-- The field list of a struct. -/
def structFields? (d : Declaration) : Option FieldList :=
  match d.data with
  | .struct fields _ => fields
  | .enum _ => none

/-- Reads fields in braces. -/
def readNamedFields (chars : Charset) (text : String) : Except Error (List Field) := do
  let d ← readDeclaration chars ("struct _ " ++ text)
  match structFields? d with
  | some (.named fields) => return fields
  | _ => throw (.notNamedFields text)

/-- Reads fields in parentheses. -/
def readTupleFields (chars : Charset) (text : String) : Except Error (List Field) := do
  let d ← readDeclaration chars ("struct _ " ++ text ++ ";")
  match structFields? d with
  | some (.tuple fields) => return fields
  | _ => throw (.notTupleFields text)

end DeriveKit.Source
