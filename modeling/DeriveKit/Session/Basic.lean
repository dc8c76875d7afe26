import DeriveKit.Derive
import DeriveKit.Growth

/-!
Sessions: one declaration, and steps that ask about it or edit it.

A step names the attribute list or field list it works on. When a declaration's own fields are
appended to it, they are the same fields at two places, and an edit at one place shows at the other.
A view keeps a lookup under a name; it looks at the attributes as they are when it is read, unless
it was taken as a snapshot. What it looks at is settled when it is made: a view of the last field
stays with that field when others are added.
-/
namespace DeriveKit.Session

/-- Whose attributes, or which field. -/
inductive Owner where
  | declaration
  | field (index : Int)
  | variant (index : Int)
  | variantField (variant field : Int)
deriving DecidableEq, Repr

/-- A place in a declaration, by positions from the start. Fields are added at the end only, so a
place stays what it is. -/
inductive Place where
  | declaration
  | field (index : Nat)
  | variant (index : Nat)
  | variantField (variant field : Nat)
deriving DecidableEq, Repr

/-- The field list a step works on. -/
inductive Target where
  | declaration
  /-- The field list of the struct, without the struct around it. -/
  | fields
  | variant (index : Int)
deriving DecidableEq, Repr

/-- A lookup kept under a name. -/
inductive View where
  | ofNamespace (place : Place) (ns : Path)
  | ofTag (place : Place) (ns tag : Path)
  | snapshot (lists : List (List Entry)) (tag : Path)

structure State where
  declaration : Declaration
  /-- A number for each field of the struct; equal numbers mark the same field. -/
  identities : List Nat
  views : List (String × View)

/-- What a step answers. -/
inductive Answer where
  | none
  | flag (b : Bool)
  | text (s : String)
  | path (p : Path)
  | entry (e : Option Entry)
  | entries (es : List Entry)
  | metadata (m : Meta)
  | metadatas (ms : List Meta)
  | attributes (as : List Attribute)
  | wellFormed (rows : List (Attribute × Meta))
  | field (f : Field)
  | fields (fs : Option FieldList)
  | data (d : Data)
  | declaration (d : Declaration)
  | construction (c : Construction)

/-- A part of a step as it was handed over, or why it cannot be read. That comes to light only when
the part is needed, after whatever else goes wrong before. -/
abbrev Part (α : Type) := Except Failure α

/-- A question about a list of attributes. -/
inductive Query where
  | byNamespace (ns : Path.Given)
  | containsNamespace (ns : Path.Given)
  | namespaceLists (ns : Path.Given)
  | namespaceParameters (ns : Path.Given)
  | namespaceParameter (ns : Path.Given) (config : Config)
  /-- The tag is needed only once the namespace has been looked up. -/
  | tagLists (ns : Path.Given) (tag : Part Path.Given)
  | findTag (ns tag : Path.Given)
  | containsTag (ns tag : Path.Given) (config : Config)
  | tagParameter (ns tag : Path.Given) (config : Config)
  | wellFormed
  | metadata (index : Int)

/-- A step of a session. -/
inductive Step where
  | query (q : Part Query) (on : Owner)
  | typeName (on : Owner)
  | isPhantomData (on : Owner)
  | shape (target : Target)
  | hasShape (shape : Shape) (target : Target)
  | construction (target : Target)
  | structData
  | fields
  | fieldsOfShape (shape : Shape)
  | newtypeField
  | isNewtype
  | requireNamed (name : String)
  | require (shape : Shape)
  | dump
  | appendDerives (requests : List Derive.Request) (config : Config)
  | appendNamed (addition : Part Addition) (target : Target)
  | appendTuple (addition : Part Addition) (target : Target)
  /-- Sets the type of a newtype's field and adds an attribute to it. -/
  | editNewtype (type : Option (Part TypeExpr)) (attr : Option (Part Attribute))
  | pushAttribute (a : Part Attribute) (on : Owner)
  | insertAttribute (index : Int) (a : Part Attribute) (on : Owner)
  | removeAttribute (index : Int) (on : Owner)
  | setPayload (index : Int) (payload : Part Payload) (on : Owner)
  | viewNamespace (view : String) (ns : Part Path.Given) (on : Owner)
  | viewTag (view source : String) (tag : Part Path.Given)
  | viewTagSnapshot (view : String) (ns tag : Part Path.Given) (on : Owner)
  | readView (view : String)
  | readViewParameters (view : String)

/-! ## Places

The attributes and fields that a step names are read and edited at a place. A negative index counts
from the end. -/

/-- The position that `index` names in a list of length `n`. -/
def position? (index : Int) (n : Nat) : Option Nat :=
  let i := if index < 0 then index + n else index
  if 0 ≤ i ∧ i < n then some i.toNat else none

/-- The position before which an element is inserted; beyond either end, that end. -/
def insertPosition (index : Int) (n : Nat) : Nat :=
  let i := if index < 0 then index + n else index
  min i.toNat n

/-- The position that `index` names in `xs`. -/
def locateIn {α : Type} (xs : List α) (index : Int) : Except Failure Nat :=
  match position? index xs.length with
  | some i => .ok i
  | none => .error .indexOutOfRange

/-- The element that `index` names. -/
def at? {α : Type} (xs : List α) (index : Int) : Except Failure α :=
  match (position? index xs.length).bind fun i => xs[i]? with
  | some x => .ok x
  | none => .error .indexOutOfRange

def variants (d : Declaration) : List Variant :=
  match d.data with
  | .enum variants => variants
  | .struct .. => []

def fieldsOf (fields : Option FieldList) : List Field :=
  match fields with
  | some fields => fields.toList
  | none => []

/-- The place that an owner names in the declaration as it stands. -/
def locate (d : Declaration) : Owner → Except Failure Place
  | .declaration => .ok .declaration
  | .field i => (locateIn d.ownFields i).map .field
  | .variant i => (locateIn (variants d) i).map .variant
  | .variantField i j => do
    let v ← at? (variants d) i
    return .variantField (← locateIn (variants d) i) (← locateIn (fieldsOf v.fields) j)

namespace Place

/-- The field at a place. -/
def field? (d : Declaration) : Place → Option Field
  | field i => d.ownFields[i]?
  | variantField i j => (variants d)[i]?.bind fun v => (fieldsOf v.fields)[j]?
  | declaration | variant _ => none

/-- The attributes at a place. -/
def attributes (d : Declaration) : Place → List Attribute
  | declaration => d.attrs
  | variant i => ((variants d)[i]?.map (·.attrs)).getD []
  | place => ((place.field? d).map (·.attrs)).getD []

end Place

/-- The field that an owner names. -/
def field (d : Declaration) (on : Owner) : Except Failure Field := do
  match (← locate d on).field? d with
  | some f => .ok f
  | none => .error .indexOutOfRange

/-- Edits every field of the struct that is the field at position `i`. -/
def editOwnField (s : State) (i : Nat) (f : Field → Field) : State :=
  match s.declaration.data with
  | .struct (some fields) semi =>
    let edited := fields.mapFields fun fs =>
      fs.mapIdx fun j field => if s.identities[j]? == s.identities[i]? then f field else field
    { s with declaration := { s.declaration with data := .struct (some edited) semi } }
  | _ => s

/-- Edits the variant at position `i`. -/
def editVariant (s : State) (i : Nat) (f : Variant → Variant) : State :=
  match s.declaration.data with
  | .enum vs => { s with declaration := { s.declaration with data := .enum (vs.modify i f) } }
  | _ => s

/-- Edits the attributes at a place. -/
def editAttributes (s : State) (place : Place) (f : List Attribute → List Attribute) : State :=
  let onField (field : Field) : Field := { field with attrs := f field.attrs }
  match place with
  | .declaration => { s with declaration := { s.declaration with attrs := f s.declaration.attrs } }
  | .field i => editOwnField s i onField
  | .variant i => editVariant s i fun v => { v with attrs := f v.attrs }
  | .variantField i j =>
    editVariant s i fun v =>
      { v with fields := v.fields.map (·.mapFields (·.modify j onField)) }

/-- The field list of a target. -/
def fieldList (d : Declaration) : Target → Except Failure (Option FieldList)
  | .declaration | .fields => (d.structData.map (·.1)).mapError .abort
  | .variant i => (at? (variants d) i).map (·.fields)

end DeriveKit.Session
