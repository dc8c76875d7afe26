import DeriveKit.Attribute

/-!
Declarations: structs with a list of fields, and enums with a list of variants, each with its
attributes and its place in the source. Places never count in comparisons.

A host may leave out the field list of a struct or variant, hence the `Option FieldList`.
-/
namespace DeriveKit

/-! ## Types of fields

Paths with generic arguments, references, tuples, and forms that a host adds. -/

/-- The forms of a type other than a path. -/
inductive TypeForm where
  | ref
  | refMut
  | tuple
  | other (tag : String)
deriving DecidableEq, Repr

inductive TypeExpr where
  /-- A path and its generic arguments, as `u32` or `Vec<T>`. -/
  | path (path : Path) (args : List TypeExpr)
  /-- A type of another form. A reference keeps its referent as the first argument, a tuple its
  elements; a path is carried along but has no part in references and tuples. -/
  | compound (form : TypeForm) (path : Option Path) (args : List TypeExpr)
deriving Repr

namespace TypeForm

def ofTag : String → TypeForm
  | "ref" => ref
  | "ref_mut" => refMut
  | "tuple" => tuple
  | tag => other tag

def tag : TypeForm → String
  | ref => "ref"
  | refMut => "ref_mut"
  | tuple => "tuple"
  | other tag => tag

end TypeForm

namespace TypeExpr

/-- A type whose form was said to be a path and that has none. -/
inductive Error where
  | pathMissing
deriving DecidableEq, Repr

def Error.message : Error → String
  | pathMissing => "path types require a path"

/-- The tag of path types. -/
def pathTag : String := "path"

/-- The type with the form named by `tag`. -/
def make (tag : String) (p : Option Path) (args : List TypeExpr) : Except Error TypeExpr :=
  if tag = pathTag then
    match p with
    | some p => .ok (path p args)
    | none => .error .pathMissing
  else .ok (compound (.ofTag tag) p args)

/-- The type named by a written path. -/
def named (name : String) (args : List TypeExpr) : Except Path.Error TypeExpr :=
  (Path.parse name).map (path · args)

def ref (referent : TypeExpr) : TypeExpr := compound .ref none [referent]

def refMut (referent : TypeExpr) : TypeExpr := compound .refMut none [referent]

def tuple (elements : List TypeExpr) : TypeExpr := compound .tuple none elements

def tag : TypeExpr → String
  | path .. => pathTag
  | compound form .. => form.tag

def path? : TypeExpr → Option Path
  | path p _ => some p
  | compound _ p _ => p

def args : TypeExpr → List TypeExpr
  | path _ args => args
  | compound _ _ args => args

/-- A name and its generic arguments, if any. -/
def renderGeneric (name : String) (args : List String) : String :=
  if args.isEmpty then name else name ++ "<" ++ ", ".intercalate args ++ ">"

/-- The elements of a tuple; a single one is followed by a comma. -/
def renderTuple (elements : List String) : String :=
  "(" ++ ", ".intercalate elements ++ if elements.length = 1 then ",)" else ")"

/-- The name of a form that a host added. -/
def renderName : Option Path → String
  | some p => p.render
  | none => "None"

mutual
/-- The type as it is written. A reference without a referent has no text. -/
def render : TypeExpr → Option String
  | path p args => (renderEach args).map (renderGeneric p.render)
  | compound .ref _ (referent :: _) => referent.render.map ("&" ++ ·)
  | compound .ref _ [] => none
  | compound .refMut _ (referent :: _) => referent.render.map ("&mut " ++ ·)
  | compound .refMut _ [] => none
  | compound .tuple _ elements => (renderEach elements).map renderTuple
  | compound (.other _) p args => (renderEach args).map (renderGeneric (renderName p))

def renderEach : List TypeExpr → Option (List String)
  | [] => some []
  | t :: ts =>
    match t.render, renderEach ts with
    | some s, some ss => some (s :: ss)
    | _, _ => none
end

mutual
/-- Equality of types. -/
def same : TypeExpr → TypeExpr → Bool
  | path p args, path p' args' => p == p' && sameAll args args'
  | compound form p args, compound form' p' args' => form == form' && p == p' && sameAll args args'
  | _, _ => false

def sameAll : List TypeExpr → List TypeExpr → Bool
  | [], [] => true
  | t :: ts, t' :: ts' => t.same t' && sameAll ts ts'
  | _, _ => false
end

end TypeExpr

/-! ## Declarations -/

structure Field where
  type : TypeExpr
  name : Option String
  attrs : List Attribute
  loc : Option Position
deriving Repr

inductive FieldList where
  | unit
  | named (fields : List Field)
  | tuple (fields : List Field)
deriving Repr

structure Variant where
  ident : String
  fields : Option FieldList
  attrs : List Attribute
  loc : Option Position
deriving Repr

inductive Data where
  /-- A struct; `semi` tells whether a semicolon ends it. -/
  | struct (fields : Option FieldList) (semi : Bool)
  | enum (variants : List Variant)
deriving Repr

structure Declaration where
  ident : String
  data : Data
  attrs : List Attribute
  loc : Option Position
deriving Repr

namespace Field

def same (f g : Field) : Bool :=
  f.type.same g.type && f.name == g.name && Attribute.sameAll f.attrs g.attrs

def sameAll : List Field → List Field → Bool
  | [], [] => true
  | f :: fs, g :: gs => f.same g && sameAll fs gs
  | _, _ => false

end Field

namespace FieldList

def same : FieldList → FieldList → Bool
  | unit, unit => true
  | named fs, named gs => Field.sameAll fs gs
  | tuple fs, tuple gs => Field.sameAll fs gs
  | _, _ => false

/-- Equality where either list may be left out. -/
def same? : Option FieldList → Option FieldList → Bool
  | some fs, some gs => fs.same gs
  | none, none => true
  | _, _ => false

/-- The fields in order; a unit list has none. -/
def toList : FieldList → List Field
  | unit => []
  | named fs => fs
  | tuple fs => fs

/-- Applies `f` to the list of fields. -/
def mapFields (f : List Field → List Field) : FieldList → FieldList
  | unit => unit
  | named fs => named (f fs)
  | tuple fs => tuple (f fs)

end FieldList

namespace Variant

def same (v w : Variant) : Bool :=
  v.ident == w.ident && FieldList.same? v.fields w.fields && Attribute.sameAll v.attrs w.attrs

def sameAll : List Variant → List Variant → Bool
  | [], [] => true
  | v :: vs, w :: ws => v.same w && sameAll vs ws
  | _, _ => false

end Variant

namespace Data

def same : Data → Data → Bool
  | struct fs semi, struct gs semi' => FieldList.same? fs gs && semi == semi'
  | enum vs, enum ws => Variant.sameAll vs ws
  | _, _ => false

end Data

namespace Declaration

def same (d e : Declaration) : Bool :=
  d.ident == e.ident && d.data.same e.data && Attribute.sameAll d.attrs e.attrs

end Declaration

end DeriveKit
