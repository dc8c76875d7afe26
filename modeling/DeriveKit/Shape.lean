import DeriveKit.Declaration

/-!
The shapes of declarations: structs without fields, with named fields or with fields by position,
and declarations that are no structs. A construction form is the pattern that binds every field of a
value, as `(_0, _1,)` or `{ a, b, }`.
-/
namespace DeriveKit

inductive Shape where
  | unit
  | named
  | tuple
  | notStruct
deriving DecidableEq, Repr

namespace Shape

def name : Shape → String
  | unit => "unit"
  | named => "named"
  | tuple => "tuple"
  | notStruct => "not_a_struct"

def ofName? : String → Option Shape
  | "unit" => some unit
  | "named" => some named
  | "tuple" => some tuple
  | "not_a_struct" => some notStruct
  | _ => none

/-- What is asked of a declaration by asking for a shape: for no struct, any struct. -/
def requirement : Shape → Requirement
  | unit => .unit
  | named => .named
  | tuple => .tuple
  | notStruct => .struct

/-- Whether a declaration of the shape `actual` is what is asked for. -/
def admits (expected actual : Shape) : Bool :=
  match expected with
  | notStruct => actual != notStruct
  | _ => actual == expected

end Shape

/-- Why a question about fields has no answer. -/
inductive ShapeError where
  /-- The field list was left out. -/
  | noFieldList
  | abort (a : Abort)
deriving Repr

def FieldList.shape : FieldList → Shape
  | unit => .unit
  | named _ => .named
  | tuple _ => .tuple

/-- The shape of a field list that may have been left out. -/
def FieldList.shape? : Option FieldList → Except ShapeError Shape
  | some fields => .ok fields.shape
  | none => .error .noFieldList

namespace Declaration

def shape (d : Declaration) : Except ShapeError Shape :=
  match d.data with
  | .struct fields _ => FieldList.shape? fields
  | .enum _ => .ok .notStruct

/-- The abort of a declaration that is not as required. -/
def unlike (d : Declaration) (required : Requirement) : Abort := ⟨.shape required, d.loc⟩

/-- The field list of a struct and whether a semicolon ends it. -/
def structData (d : Declaration) : Except Abort (Option FieldList × Bool) :=
  match d.data with
  | .struct fields semi => .ok (fields, semi)
  | .enum _ => .error (d.unlike .struct)

/-- Stops unless the declaration has the shape `expected`. Expecting no struct means expecting any
struct. -/
def require (d : Declaration) (expected : Shape) : Except ShapeError Unit := do
  let actual ← d.shape
  if expected.admits actual then .ok () else .error (.abort (d.unlike expected.requirement))

/-- The field list of a struct of the shape `expected`. -/
def fieldsOfShape (d : Declaration) (expected : Shape) : Except ShapeError (Option FieldList) := do
  d.require expected
  (d.structData.map (·.1)).mapError .abort

end Declaration

/-! ## Construction forms -/

inductive Construction where
  | unit
  | tuple (bindings : List String)
  | named (bindings : List String)
deriving DecidableEq, Repr

namespace Construction

def delimiter : Construction → String
  | unit => ""
  | tuple _ => "()"
  | named _ => "\x7b\x7d"

def bindings : Construction → List String
  | unit => []
  | tuple names => names
  | named names => names

def isEmpty : Construction → Bool
  | unit => true
  | _ => false

/-- Each binding with its comma. -/
def renderBindings (names : List String) : String := " ".intercalate (names.map (· ++ ","))

def render : Construction → String
  | unit => ""
  | tuple names => "(" ++ renderBindings names ++ ")"
  | named [] => "\x7b\x7d"
  | named names => "\x7b " ++ renderBindings names ++ " \x7d"

/-- The form of a list of fields. Fields by position are bound as `_0`, `_1` and so on, named fields
by their names; a named field without a name is left out. -/
def ofFields : Option FieldList → Construction
  | some (.tuple fields) => tuple ((List.range fields.length).map fun n => "_" ++ Text.decimal n)
  | some (.named fields) => named (fields.filterMap (·.name))
  | _ => unit

end Construction

/-- The form of a struct. -/
def Declaration.construction (d : Declaration) : Except Abort Construction :=
  d.structData.map fun (fields, _) => .ofFields fields

end DeriveKit
