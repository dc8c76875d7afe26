import DeriveKit.Path
import DeriveKit.Literal

/-!
Attributes: `#[path]`, `#[path(entries)]`, `#[path = literal]`, or a path with arguments that are no
metadata and are kept as text. Entries are the parameters inside the parentheses of an attribute, or
of another entry.
-/
namespace DeriveKit

/-! ## Entries -/

inductive Entry where
  /-- A bare path, as `Clone` in `#[derive(Clone)]`. -/
  | path (path : Path)
  /-- A path with parameters of its own, as `tag(a, b)`. -/
  | list (path : Path) (entries : List Entry)
  | literal (value : Literal)
  /-- A path and a value, as `key = "value"`. -/
  | keyValue (path : Path) (value : Literal)
deriving Repr

namespace Entry

/-- The path of an entry; a literal has none. -/
def path? : Entry → Option Path
  | path p => some p
  | list p _ => some p
  | literal _ => none
  | keyValue p _ => some p

/-- The name of an entry whose path is a single segment. -/
def ident? (e : Entry) : Option String := e.path?.bind Path.ident?

mutual
/-- The notation of an entry inside an attribute. -/
def render : Entry → String
  | path p => p.render
  | list p entries => p.render ++ "(" ++ ", ".intercalate (renderEach entries) ++ ")"
  | literal value => value.render
  | keyValue p value => p.render ++ " = " ++ value.render

def renderEach : List Entry → List String
  | [] => []
  | e :: es => e.render :: renderEach es
end

/-- The notation of entries between parentheses. -/
def renderAll (entries : List Entry) : String := ", ".intercalate (renderEach entries)

mutual
/-- Whether all literals of an entry can be written. -/
def isWritable : Entry → Bool
  | path _ => true
  | list _ entries => areWritable entries
  | literal value => value.isWritable
  | keyValue _ value => value.isWritable

def areWritable : List Entry → Bool
  | [] => true
  | e :: es => e.isWritable && areWritable es
end

/-- The entry as it is written inside an attribute. -/
def render? (e : Entry) : Option String := if e.isWritable then some e.render else none

mutual
/-- Equality of entries: same form, same path, same literal. -/
def same : Entry → Entry → Bool
  | path p, path p' => p == p'
  | list p es, list p' es' => p == p' && sameAll es es'
  | literal v, literal v' => v.same v'
  | keyValue p v, keyValue p' v' => p == p' && v.same v'
  | _, _ => false

/-- Equality of lists of entries. -/
def sameAll : List Entry → List Entry → Bool
  | [], [] => true
  | e :: es, e' :: es' => e.same e' && sameAll es es'
  | _, _ => false
end

/-- Whether `entries` holds an entry equal to `e`. -/
def isIn (e : Entry) (entries : List Entry) : Bool := entries.any (·.same e)

end Entry

/-! ## Aborts

An abort tells why an expansion stops. A cause carries what the diagnostic shows; its message, code
and notes are read off it. Host tools compare messages word for word. -/

/-- What a declaration was required to be. -/
inductive Requirement where
  | struct
  | unit
  | named
  | tuple
  | unitOrNamed
  | unitOrTuple
  | newtype
deriving DecidableEq, Repr

/-- Where the newtype pattern is explained. -/
def newtypeReference : String :=
  "See https://doc.rust-lang.org/book/ch19-04-advanced-types.html#advanced-types "
    ++ "for more information."

def Requirement.message : Requirement → String
  | struct => "This macro must be used on a struct."
  | unit => "This macro must be used on a unit struct."
  | named => "This macro must be used on a struct with named fields."
  | tuple => "This macro must be used on a struct with unnamed fields."
  | unitOrNamed =>
    "Macro must be used on either a unit struct or a struct with named fields.\n"
      ++ "This derive does not work on tuple structs."
  | unitOrTuple =>
    "Macro must be used on either a unit struct or tuple struct.\n"
      ++ "This derive does not work on structs with named fields."
  | newtype => "This macro must be used on a newtype struct.\n" ++ newtypeReference

inductive Cause where
  /-- The declaration has the wrong shape. -/
  | shape (required : Requirement)
  /-- A field's type is no path; the field's name, if it has one. -/
  | pathlessField (name : Option String)
  /-- A newtype with another number of fields than one. -/
  | newtypeArity (count : Nat)
  /-- Requested derives that are listed already. -/
  | derivesListed (overlap : List String)
  /-- Not one parameter directly in a namespace. -/
  | namespaceArity (ns : String) (parameters : List Entry)
  /-- Several parameters of a tag in a namespace. -/
  | tagArity (ns tag : String) (parameters : List Entry)
  /-- Attribute arguments that are no metadata. -/
  | malformed (text : String)
deriving Repr

/-- A cause and the place it is reported at. -/
structure Abort where
  cause : Cause
  loc : Option Position
deriving Repr

namespace Cause

def message : Cause → String
  | shape required => required.message
  | pathlessField name =>
    let mention := match name with
      | some name => "`" ++ name ++ "` "
      | none => ""
    "Expected " ++ mention ++ "field type to be a `Path` with a segment."
  | newtypeArity _ => "Newtype struct must only have one field.\n" ++ newtypeReference
  | derivesListed overlap =>
    "The following are automatically derived when this attribute is used:\n" ++ Text.listing overlap
  | namespaceArity ns _ => "Expected exactly one parameter for `#[" ++ ns ++ "(..)]`."
  | tagArity ns tag _ =>
    "Expected exactly one identifier for `#[" ++ ns ++ "(" ++ tag ++ "(..))]`."
  | malformed text =>
    "expected attribute arguments in parentheses or `= literal`, found `" ++ text ++ "`"

def code : Cause → String
  | shape _ | pathlessField _ => "E-SHAPE"
  | newtypeArity _ => "E-NEWTYPE"
  | derivesListed _ => "E-DERIVE"
  | namespaceArity .. | tagArity .. => "E-ARITY"
  | malformed _ => "E-META"

def notes : Cause → List String
  | newtypeArity count => ["found " ++ Text.decimal count ++ " fields"]
  | derivesListed overlap =>
    overlap.map fun name => "remove `" ++ name ++ "` from the existing `derive` list"
  | _ => []

end Cause

namespace Abort

/-- Every abort is an error. -/
def severity (_ : Abort) : String := "error"

def message (a : Abort) : String := a.cause.message

end Abort

/-! ## Attributes -/

/-- Well-formed arguments of an attribute. -/
inductive Meta where
  | marker
  | list (entries : List Entry)
  | keyValue (value : Literal)
deriving Repr

inductive Payload where
  | metadata (m : Meta)
  /-- Arguments that are no metadata, word by word. -/
  | verbatim (text : String)
deriving Repr

structure Attribute where
  path : Path
  payload : Payload
  loc : Option Position
deriving Repr

namespace Meta

def same : Meta → Meta → Bool
  | marker, marker => true
  | list es, list es' => Entry.sameAll es es'
  | keyValue v, keyValue v' => v.same v'
  | _, _ => false

/-- The entries of a list. -/
def entries? : Meta → Option (List Entry)
  | list es => some es
  | _ => none

/-- The notation of what stands after the path. -/
def render : Meta → String
  | marker => ""
  | list es => "(" ++ Entry.renderAll es ++ ")"
  | keyValue v => " = " ++ v.render

/-- Whether all literals can be written. -/
def isWritable : Meta → Bool
  | marker => true
  | list es => Entry.areWritable es
  | keyValue v => v.isWritable

end Meta

namespace Payload

def same : Payload → Payload → Bool
  | metadata m, metadata m' => m.same m'
  | verbatim t, verbatim t' => t == t'
  | _, _ => false

def render : Payload → String
  | metadata m => m.render
  | verbatim text => " " ++ text

def isWritable : Payload → Bool
  | metadata m => m.isWritable
  | verbatim _ => true

end Payload

namespace Attribute

/-- Equality of attributes; the place does not count. -/
def same (a b : Attribute) : Bool := a.path == b.path && a.payload.same b.payload

def sameAll : List Attribute → List Attribute → Bool
  | [], [] => true
  | a :: as, b :: bs => a.same b && sameAll as bs
  | _, _ => false

/-- The notation of an attribute. -/
def render (a : Attribute) : String := "#[" ++ a.path.render ++ a.payload.render ++ "]"

/-- The attribute as it is written, unless an integer in it has too many digits. -/
def render? (a : Attribute) : Option String := if a.payload.isWritable then some a.render else none

/-- The entries of an attribute that carries a list. -/
def entries? (a : Attribute) : Option (List Entry) :=
  match a.payload with
  | .metadata m => m.entries?
  | .verbatim _ => none

/-- The metadata of an attribute, unless its arguments are malformed. -/
def metadata (a : Attribute) : Except Abort Meta :=
  match a.payload with
  | .metadata m => .ok m
  | .verbatim text => .error ⟨.malformed text, a.loc⟩

end Attribute

end DeriveKit
