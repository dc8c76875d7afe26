import DeriveKit.Source
import DeriveKit.Declaration

/-!
# The grammar of snippets

Which runs of tokens are paths, types, attributes and declarations, and what each of them stands for.
There is one relation for each symbol of the grammar and one case for each of its rules, and none of
them knows how a run is read.

A declaration stands for a tree in which attributes still hold their arguments as token trees. What a
tree comes to, once its literals are asked for their values, is its `value`.
-/
namespace DeriveKit.Grammar

open DeriveKit.Token (Kind)

variable {α β : Type}

/-- Which runs of tokens are a phrase of some sort, and what they stand for. -/
abbrev Phrase (α : Type) := List Token → α → Prop

/-- The same runs, standing for what `f` makes of what they stood for. -/
def Phrase.map (f : α → β) (L : Phrase α) : Phrase β := fun ts b => ∃ a, L ts a ∧ f a = b

/-- `L*` -/
inductive Star (L : Phrase α) : Phrase (List α)
  | nil : Star L [] []
  | cons {ts us : List Token} {a : α} {as : List α} (h : L ts a) (hs : Star L us as) :
      Star L (ts ++ us) (a :: as)

/-- `(L ("," L)* ","?)?` -/
inductive CommaList (L : Phrase α) : Phrase (List α)
  | nil : CommaList L [] []
  | last {ts : List Token} {a : α} (h : L ts a) : CommaList L ts [a]
  | cons {ts us : List Token} {comma : Token} {a : α} {as : List α} (h : L ts a)
      (hcomma : comma.kind = .comma) (hs : CommaList L us as) :
      CommaList L (ts ++ comma :: us) (a :: as)

/-- The place of the first token. -/
def place (ts : List Token) : Option Position := ts.head?.map (·.pos)

/-! ## Paths and types -/

/-- `NAME`, as a segment of a path. -/
inductive IsSegment : Phrase Segment
  | name {t : Token} {s : Segment} (hkind : t.kind = .name) (htext : t.text = s.val) :
      IsSegment [t] s

/-- `"::" NAME` -/
inductive IsStep : Phrase Segment
  | sep {sep : Token} {ts : List Token} {s : Segment} (hsep : sep.kind = .pathSep)
      (hs : IsSegment ts s) : IsStep (sep :: ts) s

/-- `NAME ("::" NAME)*` -/
inductive IsPath : Phrase Path
  | mk {ts us : List Token} {head : Segment} {tail : List Segment} (hhead : IsSegment ts head)
      (htail : Star IsStep us tail) : IsPath (ts ++ us) ⟨head, tail⟩

inductive IsType : Phrase TypeExpr
  /-- `path` -/
  | path {ts : List Token} {p : Path} (hp : IsPath ts p) : IsType ts (.path p [])
  /-- `path "<" type ("," type)* ","? ">"` -/
  | generic {ts us : List Token} {less greater : Token} {p : Path} {args : List TypeExpr}
      (hp : IsPath ts p) (hless : less.kind = .less) (hargs : CommaList IsType us args)
      (hne : args ≠ []) (hgreater : greater.kind = .greater) :
      IsType (ts ++ less :: (us ++ [greater])) (.path p args)
  /-- `"&" type` -/
  | ref {ts : List Token} {amp : Token} {type : TypeExpr} (hamp : amp.kind = .ampersand)
      (h : IsType ts type) : IsType (amp :: ts) (.ref type)
  /-- `"&" "mut" type` -/
  | refMut {ts : List Token} {amp word : Token} {type : TypeExpr} (hamp : amp.kind = .ampersand)
      (hword : word.kind = .mutable) (h : IsType ts type) : IsType (amp :: word :: ts) (.refMut type)
  /-- `"(" (type ("," type)* ","?)? ")"` -/
  | tuple {us : List Token} {left right : Token} {types : List TypeExpr}
      (hleft : left.kind = .leftParen) (htypes : CommaList IsType us types)
      (hright : right.kind = .rightParen) : IsType (left :: (us ++ [right])) (.tuple types)

/-! ## Attributes -/

/-- The tokens that are trees by themselves. -/
def leafKinds : List Kind :=
  [.name, .pathSep, .comma, .equals, .string, .float, .int, .trueWord, .falseWord]

inductive IsTree : Phrase TokenTree
  | leaf {t : Token} (h : t.kind ∈ leafKinds) : IsTree [t] (.leaf t)
  /-- `"(" tree* ")"` -/
  | group {us : List Token} {left right : Token} {trees : List TokenTree}
      (hleft : left.kind = .leftParen) (h : Star IsTree us trees) (hright : right.kind = .rightParen) :
      IsTree (left :: (us ++ [right])) (.group trees)

/-- `("(" tree* ")" | "=" tree+)?` -/
inductive IsArguments : Phrase Arguments
  | none : IsArguments [] .none
  | parens {us : List Token} {left right : Token} {trees : List TokenTree}
      (hleft : left.kind = .leftParen) (h : Star IsTree us trees) (hright : right.kind = .rightParen) :
      IsArguments (left :: (us ++ [right])) (.parens trees)
  | equals {us : List Token} {eq : Token} {trees : List TokenTree} (heq : eq.kind = .equals)
      (h : Star IsTree us trees) (hne : trees ≠ []) : IsArguments (eq :: us) (.equals trees)

/-- An attribute before anything is made of its arguments. -/
structure AttributeTree where
  path : Path
  arguments : Arguments
  loc : Option Position

/-- `"#" "[" path arguments "]"` -/
inductive IsAttribute : Phrase AttributeTree
  | mk {ps as : List Token} {hash left right : Token} {p : Path} {arguments : Arguments}
      (hhash : hash.kind = .hash) (hleft : left.kind = .leftBracket) (hp : IsPath ps p)
      (hargs : IsArguments as arguments) (hright : right.kind = .rightBracket) :
      IsAttribute (hash :: left :: (ps ++ as ++ [right])) ⟨p, arguments, some hash.pos⟩

def AttributeTree.value (chars : Charset) (a : AttributeTree) : Except Literal.Error Attribute :=
  (a.arguments.payload chars).map fun payload => ⟨a.path, payload, a.loc⟩

/-! ## Fields -/

structure FieldTree where
  attrs : List AttributeTree
  name : Option String
  type : TypeExpr
  loc : Option Position

inductive FieldsTree where
  | unit
  | named (fields : List FieldTree)
  | tuple (fields : List FieldTree)

/-- `"pub"?` -/
inductive IsVisibility : List Token → Prop
  | none : IsVisibility []
  | pub {t : Token} (h : t.kind = .pub) : IsVisibility [t]

/-- `attribute* "pub"? NAME ":" type` -/
inductive IsNamedField : Phrase FieldTree
  | mk {tokens as vs ts : List Token} {name colon : Token} {attrs : List AttributeTree}
      {type : TypeExpr} (hattrs : Star IsAttribute as attrs) (hvis : IsVisibility vs)
      (hname : name.kind = .name) (hcolon : colon.kind = .colon) (htype : IsType ts type)
      (htokens : tokens = as ++ (vs ++ name :: colon :: ts)) :
      IsNamedField tokens ⟨attrs, some name.text, type, place tokens⟩

/-- `attribute* "pub"? type` -/
inductive IsTupleField : Phrase FieldTree
  | mk {tokens as vs ts : List Token} {attrs : List AttributeTree} {type : TypeExpr}
      (hattrs : Star IsAttribute as attrs) (hvis : IsVisibility vs) (htype : IsType ts type)
      (htokens : tokens = as ++ (vs ++ ts)) : IsTupleField tokens ⟨attrs, none, type, place tokens⟩

/-- Fields in braces. -/
inductive IsNamedFields : Phrase FieldsTree
  | mk {us : List Token} {left right : Token} {fields : List FieldTree}
      (hleft : left.kind = .leftBrace) (h : CommaList IsNamedField us fields)
      (hright : right.kind = .rightBrace) : IsNamedFields (left :: (us ++ [right])) (.named fields)

/-- Fields in parentheses. -/
inductive IsTupleFields : Phrase FieldsTree
  | mk {us : List Token} {left right : Token} {fields : List FieldTree}
      (hleft : left.kind = .leftParen) (h : CommaList IsTupleField us fields)
      (hright : right.kind = .rightParen) : IsTupleFields (left :: (us ++ [right])) (.tuple fields)

def FieldTree.value (chars : Charset) (f : FieldTree) : Except Literal.Error Field :=
  (Reader.collect (f.attrs.map (AttributeTree.value chars))).map fun attrs => ⟨f.type, f.name, attrs, f.loc⟩

def FieldsTree.value (chars : Charset) : FieldsTree → Except Literal.Error FieldList
  | unit => .ok .unit
  | named fields => (Reader.collect (fields.map (FieldTree.value chars))).map .named
  | tuple fields => (Reader.collect (fields.map (FieldTree.value chars))).map .tuple

/-! ## Declarations -/

structure VariantTree where
  attrs : List AttributeTree
  ident : String
  fields : FieldsTree
  loc : Option Position

inductive DataTree where
  | struct (fields : FieldsTree)
  | enum (variants : List VariantTree)

structure DeclarationTree where
  attrs : List AttributeTree
  ident : String
  data : DataTree
  loc : Option Position

/-- The fields of a variant, if it has any. -/
inductive IsVariantFields : Phrase FieldsTree
  | none : IsVariantFields [] .unit
  | named {ts : List Token} {fields : FieldsTree} (h : IsNamedFields ts fields) :
      IsVariantFields ts fields
  | tuple {ts : List Token} {fields : FieldsTree} (h : IsTupleFields ts fields) :
      IsVariantFields ts fields

/-- `attribute* NAME fields?` -/
inductive IsVariant : Phrase VariantTree
  | mk {tokens as ts : List Token} {name : Token} {attrs : List AttributeTree} {fields : FieldsTree}
      (hattrs : Star IsAttribute as attrs) (hname : name.kind = .name)
      (hfields : IsVariantFields ts fields) (htokens : tokens = as ++ name :: ts) :
      IsVariant tokens ⟨attrs, name.text, fields, place tokens⟩

/-- What follows the name of a struct. Fields in braces are not followed by a semicolon. -/
inductive IsStructBody : Phrase FieldsTree
  | unit {semi : Token} (hsemi : semi.kind = .semicolon) : IsStructBody [semi] .unit
  | named {ts : List Token} {fields : FieldsTree} (h : IsNamedFields ts fields) :
      IsStructBody ts fields
  | tuple {ts : List Token} {semi : Token} {fields : FieldsTree} (h : IsTupleFields ts fields)
      (hsemi : semi.kind = .semicolon) : IsStructBody (ts ++ [semi]) fields

/-- A struct or an enum: its name and what it holds. -/
inductive IsItem : Phrase (String × DataTree)
  | struct {ts : List Token} {word name : Token} {fields : FieldsTree}
      (hword : word.kind = .struct) (hname : name.kind = .name) (hbody : IsStructBody ts fields) :
      IsItem (word :: name :: ts) (name.text, .struct fields)
  | enum {us : List Token} {word name left right : Token} {variants : List VariantTree}
      (hword : word.kind = .enum) (hname : name.kind = .name) (hleft : left.kind = .leftBrace)
      (h : CommaList IsVariant us variants) (hright : right.kind = .rightBrace) :
      IsItem (word :: name :: left :: (us ++ [right])) (name.text, .enum variants)

/-- `attribute* "pub"? item` -/
inductive IsDeclaration : Phrase DeclarationTree
  | mk {tokens as vs ts : List Token} {attrs : List AttributeTree} {ident : String} {data : DataTree}
      (hattrs : Star IsAttribute as attrs) (hvis : IsVisibility vs) (hitem : IsItem ts (ident, data))
      (htokens : tokens = as ++ (vs ++ ts)) :
      IsDeclaration tokens ⟨attrs, ident, data, place tokens⟩

def VariantTree.value (chars : Charset) (v : VariantTree) : Except Literal.Error Variant := do
  let attrs ← Reader.collect (v.attrs.map (AttributeTree.value chars))
  let fields ← v.fields.value chars
  return ⟨v.ident, some fields, attrs, v.loc⟩

/-- Whether a semicolon ends a struct with these fields. -/
def FieldsTree.semi : FieldsTree → Bool
  | named _ => false
  | unit | tuple _ => true

def DataTree.value (chars : Charset) : DataTree → Except Literal.Error Data
  | struct fields => (fields.value chars).map fun list => .struct (some list) fields.semi
  | enum variants => (Reader.collect (variants.map (VariantTree.value chars))).map .enum

def DeclarationTree.value (chars : Charset) (d : DeclarationTree) : Except Literal.Error Declaration := do
  let attrs ← Reader.collect (d.attrs.map (AttributeTree.value chars))
  let data ← d.data.value chars
  return ⟨d.ident, data, attrs, d.loc⟩

end DeriveKit.Grammar
