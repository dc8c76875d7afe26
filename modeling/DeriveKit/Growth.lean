import DeriveKit.Failure
import DeriveKit.Log

/-!
Appending fields.

A struct without fields takes on the shape of what is appended; named fields and fields by position
never turn into each other. A refused append changes nothing.

Newtypes are structs with a single field by position.
-/
namespace DeriveKit

/-- Fields to append. -/
inductive Addition where
  | fields (fields : List Field)
  /-- The fields of the declaration itself, once more. -/
  | own

namespace Addition

/-- The fields that are appended to a declaration with the fields `current`. -/
def toAppend (a : Addition) (current : List Field) : List Field :=
  match a with
  | fields fs => fs
  | own => current

/-- How many fields are reported as appended, when `result` is what the list has become. The list of
the declaration itself has grown by then. -/
def reported (a : Addition) (result : List Field) : Nat :=
  match a with
  | fields fs => fs.length
  | own => result.length

end Addition

namespace FieldList

/-- A list with named fields appended. -/
def appendNamed (target : Option FieldList) (more : List Field) : Except Abort FieldList :=
  match target with
  | some (.named fs) => .ok (.named (fs ++ more))
  | some .unit => .ok (.named more)
  | _ => .error ⟨.shape .unitOrNamed, none⟩

/-- A list with fields by position appended. -/
def appendTuple (target : Option FieldList) (more : List Field) : Except Abort FieldList :=
  match target with
  | some (.tuple fs) => .ok (.tuple (fs ++ more))
  | some .unit => .ok (.tuple more)
  | _ => .error ⟨.shape .unitOrTuple, none⟩

end FieldList

namespace Declaration

/-- The fields of a struct; no fields if there are none to be had. -/
def ownFields (d : Declaration) : List Field :=
  match d.data with
  | .struct (some fields) _ => fields.toList
  | _ => []

/-- Appends named fields to a struct without fields or with named ones. Fields in braces need no
semicolon after them. -/
def appendNamed (addition : Addition) (d : Declaration) : Logged (Except ShapeError Declaration) :=
  match d.data with
  | .struct none _ => pure (.error .noFieldList)
  | .struct (some fields) _ =>
    match FieldList.appendNamed (some fields) (addition.toAppend d.ownFields) with
    | .ok grown => do
      Logged.report
        (.fieldsAppended (addition.reported grown.toList) d.ident fields.shape .named)
      return .ok { d with data := .struct (some grown) false }
    | .error _ => pure (.error (.abort (d.unlike .unitOrNamed)))
  | .enum _ => pure (.error (.abort (d.unlike .unitOrNamed)))

/-- Appends fields by position to a struct without fields or with such fields. -/
def appendTuple (addition : Addition) (d : Declaration) : Logged (Except ShapeError Declaration) :=
  match d.data with
  | .struct none _ => pure (.error .noFieldList)
  | .struct (some fields) semi =>
    match FieldList.appendTuple (some fields) (addition.toAppend d.ownFields) with
    | .ok grown => do
      Logged.report
        (.fieldsAppended (addition.reported grown.toList) d.ident fields.shape .tuple)
      return .ok { d with data := .struct (some grown) semi }
    | .error _ => pure (.error (.abort (d.unlike .unitOrTuple)))
  | .enum _ => pure (.error (.abort (d.unlike .unitOrTuple)))

end Declaration

/-! ## Newtypes, and what a field's type is called -/

namespace Declaration

/-- The fields by position of a tuple struct. -/
def tupleFields? (d : Declaration) : Option (List Field) :=
  match d.data with
  | .struct (some (.tuple fields)) _ => some fields
  | _ => none

def isNewtype (d : Declaration) : Bool := d.tupleFields?.any (·.length == 1)

/-- The field of a newtype. -/
def newtypeField (d : Declaration) : Except Abort Field :=
  match d.tupleFields? with
  | none => .error (d.unlike .newtype)
  | some [field] => .ok field
  | some fields => .error ⟨.newtypeArity fields.length, d.loc⟩

end Declaration

namespace Field

/-- The last segment of the field's type, which has to be a path. -/
def typeName (f : Field) : Except Abort String :=
  match f.type with
  | .path p _ => .ok p.last
  | .compound .. => .error ⟨.pathlessField f.name, f.loc⟩

def isPhantomData (f : Field) : Except Abort Bool := f.typeName.map (· == "PhantomData")

end Field

end DeriveKit
