import DeriveKit.Proofs.AttributeReading
import DeriveKit.Source

/-!
# Reading snippets

The readers of fields, variants and declarations are built from readers that are exact, and so they
are exact too. `reads_grammar_exactly` says so for the four symbols with which a snippet may start: a
run of tokens is read exactly if it is a sentence, and then as what the sentence stands for.
-/
namespace DeriveKit.Reader

open DeriveKit.Token (Kind)
open DeriveKit.Grammar

variable (chars : Charset)

/-! ## Fields -/

theorem exact_visibility :
    visibility.Exact (fun ts o => IsVisibility ts ∧ o = ts.head?.map fun _ => ()) ⟨true, [.pub], [.pub]⟩ := by
  refine ((exact_kind .pub).optional rfl).congr (by decide) fun ts o => ?_
  constructor
  · rintro (⟨rfl, rfl⟩ | ⟨_, ⟨t, rfl, ht⟩, rfl⟩)
    · exact ⟨.none, rfl⟩
    · exact ⟨.pub ht, rfl⟩
  · rintro ⟨h, rfl⟩
    cases h with
    | none => exact .inl ⟨rfl, rfl⟩
    | pub ht => exact .inr ⟨(), ⟨_, rfl, ht⟩, rfl⟩

theorem exact_name :
    name.Exact (fun ts text => ∃ t, ts = [t] ∧ t.kind = .name ∧ t.text = text) ⟨false, [.name], []⟩ :=
  exact_textOf .name

theorem exact_namedField : (namedField chars).Exact (Phrase.map (FieldTree.value chars) IsNamedField)
    ⟨false, [.hash, .pub, .name], [.pathSep, .less]⟩ := by
  have htyped := exact_name.andThen ((exact_kind .colon).skipThen exact_typeExpr (by decide)) (by decide)
  have h := ((exact_attrs chars).andThen (exact_visibility.skipThen htyped (by decide)) (by decide)).located
  refine (h.map _).congr (by decide) fun ts value => ?_
  constructor
  · rintro ⟨⟨⟨_, _, type⟩, _⟩, ⟨⟨as, _, rfl, ⟨attrs, hattrs, rfl⟩, vs, _, rfl, ⟨_, hvis, -⟩,
      _, _, rfl, ⟨name, rfl, hname, rfl⟩, _, ts, rfl, ⟨_, colon, rfl, hcolon⟩, htype⟩, rfl⟩, rfl⟩
    exact ⟨_, .mk hattrs hvis hname hcolon htype rfl, rfl⟩
  · rintro ⟨_, ⟨hattrs, hvis, hname, hcolon, htype, rfl⟩, rfl⟩
    exact ⟨((_, _, _), _), ⟨⟨_, _, rfl, ⟨_, hattrs, rfl⟩, _, _, rfl, ⟨_, hvis, rfl⟩,
      [_], _, rfl, ⟨_, rfl, hname, rfl⟩, [_], _, rfl, ⟨(), _, rfl, hcolon⟩, htype⟩, rfl⟩, rfl⟩

theorem exact_tupleField : (tupleField chars).Exact (Phrase.map (FieldTree.value chars) IsTupleField)
    ⟨false, [.hash, .pub, .name, .ampersand, .leftParen], [.pathSep, .less]⟩ := by
  have h := ((exact_attrs chars).andThen (exact_visibility.skipThen exact_typeExpr (by decide)) (by decide)).located
  refine (h.map _).congr (by decide) fun ts value => ?_
  constructor
  · rintro ⟨⟨⟨_, type⟩, _⟩, ⟨⟨as, _, rfl, ⟨attrs, hattrs, rfl⟩, vs, ts, rfl, ⟨_, hvis, -⟩, htype⟩,
      rfl⟩, rfl⟩
    exact ⟨_, .mk hattrs hvis htype rfl, rfl⟩
  · rintro ⟨_, ⟨hattrs, hvis, htype, rfl⟩, rfl⟩
    exact ⟨((_, _), _), ⟨⟨_, _, rfl, ⟨_, hattrs, rfl⟩, _, _, rfl, ⟨_, hvis, rfl⟩, htype⟩, rfl⟩, rfl⟩

/-- A list between two tokens, read through `f` item by item. -/
theorem Exact.enclosedList {α β : Type} {p : Reader β} {f : α → β} {L : Phrase α} {π : Profile}
    (hp : p.Exact (Phrase.map f L) π) (hne : π.empty = false) (hcomma : .comma ∉ π.next)
    (left right : Kind) (hright : right ∉ (π.repeated [.comma]).next) :
    ((kind left).skipThen (p.commaList.thenSkip (kind right))).Exact
      (fun ts bs => ∃ l us r as, ts = l :: (us ++ [r]) ∧ l.kind = left ∧ CommaList L us as ∧
        r.kind = right ∧ as.map f = bs) ⟨false, [left], []⟩ := by
  refine ((hp.commaList hne hcomma).enclosed left right hright).congr (.refl _) fun ts bs => ?_
  constructor
  · rintro ⟨l, us, r, rfl, hl, hbs, hr⟩
    obtain ⟨as, has, rfl⟩ := commaList_map_iff.1 hbs
    exact ⟨l, us, r, as, rfl, hl, has, hr, rfl⟩
  · rintro ⟨l, us, r, as, rfl, hl, has, hr, rfl⟩
    exact ⟨l, us, r, rfl, hl, commaList_map_iff.2 ⟨as, has, rfl⟩, hr⟩

theorem exact_namedFields :
    (namedFields chars).Exact (Phrase.map (FieldsTree.value chars) IsNamedFields) ⟨false, [.leftBrace], []⟩ := by
  have h := (exact_namedField chars).enclosedList rfl (by decide) .leftBrace .rightBrace (by decide)
  refine (h.map _).congr (.refl _) fun ts value => ?_
  constructor
  · rintro ⟨_, ⟨left, us, right, fields, rfl, hleft, hfields, hright, rfl⟩, rfl⟩
    exact ⟨_, .mk hleft hfields hright, rfl⟩
  · rintro ⟨_, ⟨hleft, hfields, hright⟩, rfl⟩
    exact ⟨_, ⟨_, _, _, _, rfl, hleft, hfields, hright, rfl⟩, rfl⟩

theorem exact_tupleFields :
    (tupleFields chars).Exact (Phrase.map (FieldsTree.value chars) IsTupleFields) ⟨false, [.leftParen], []⟩ := by
  have h := (exact_tupleField chars).enclosedList rfl (by decide) .leftParen .rightParen (by decide)
  refine (h.map _).congr (.refl _) fun ts value => ?_
  constructor
  · rintro ⟨_, ⟨left, us, right, fields, rfl, hleft, hfields, hright, rfl⟩, rfl⟩
    exact ⟨_, .mk hleft hfields hright, rfl⟩
  · rintro ⟨_, ⟨hleft, hfields, hright⟩, rfl⟩
    exact ⟨_, ⟨_, _, _, _, rfl, hleft, hfields, hright, rfl⟩, rfl⟩

/-! ## Structs and enums -/

theorem exact_structBody :
    (structBody chars).Exact (Phrase.map (fun fields => (DataTree.struct fields).value chars) IsStructBody)
      ⟨false, [.semicolon, .leftBrace, .leftParen], []⟩ := by
  have htuple := ((exact_tupleFields chars).thenSkip (exact_kind .semicolon) (by decide)).map
    (·.map fun fields => Data.struct (some fields) true)
  have hnamed := (exact_namedFields chars).map (·.map fun fields => Data.struct (some fields) false)
  have hunit := (exact_kind .semicolon).map
    fun _ => (.ok (.struct (some .unit) true) : Except Literal.Error Data)
  have h := hunit.orElse (hnamed.orElse htuple rfl rfl (by decide)) rfl rfl (by decide)
  refine h.congr (by decide) fun ts value => ?_
  constructor
  · rintro (⟨_, ⟨t, rfl, ht⟩, rfl⟩ | ⟨_, ⟨_, hfields, rfl⟩, rfl⟩ |
      ⟨_, ⟨us, _, rfl, ⟨_, hfields, rfl⟩, _, semi, rfl, hsemi⟩, rfl⟩)
    · exact ⟨.unit, .unit ht, rfl⟩
    · exact ⟨_, .named hfields, by cases hfields; rfl⟩
    · exact ⟨_, .tuple hfields hsemi, by cases hfields; rfl⟩
  · rintro ⟨fields, hbody, rfl⟩
    cases hbody with
    | unit hsemi => exact .inl ⟨(), ⟨_, rfl, hsemi⟩, rfl⟩
    | named hfields => exact .inr (.inl ⟨_, ⟨_, hfields, rfl⟩, by cases hfields; rfl⟩)
    | tuple hfields hsemi =>
      exact .inr (.inr ⟨_, ⟨_, [_], rfl, ⟨_, hfields, rfl⟩, (), _, rfl, hsemi⟩, by cases hfields; rfl⟩)

/-- Fields that may be left out, as the reader has them: nothing, or what one of two readers gives. -/
theorem isVariantFields_iff {ts : List Token} {value : Except Literal.Error FieldList} :
    Phrase.map (FieldsTree.value chars) IsVariantFields ts value ↔
      ∃ o : Option (Except Literal.Error FieldList), ((ts = [] ∧ o = none) ∨
        ∃ a, (Phrase.map (FieldsTree.value chars) IsNamedFields ts a ∨
          Phrase.map (FieldsTree.value chars) IsTupleFields ts a) ∧ o = some a) ∧ o.getD (.ok .unit) = value := by
  constructor
  · rintro ⟨fields, h, rfl⟩
    cases h with
    | none => exact ⟨none, .inl ⟨rfl, rfl⟩, rfl⟩
    | named h => exact ⟨_, .inr ⟨_, .inl ⟨_, h, rfl⟩, rfl⟩, rfl⟩
    | tuple h => exact ⟨_, .inr ⟨_, .inr ⟨_, h, rfl⟩, rfl⟩, rfl⟩
  · rintro ⟨o, ⟨rfl, rfl⟩ | ⟨_, ⟨fields, h, rfl⟩ | ⟨fields, h, rfl⟩, rfl⟩, rfl⟩
    · exact ⟨.unit, .none, rfl⟩
    · exact ⟨fields, .named h, rfl⟩
    · exact ⟨fields, .tuple h, rfl⟩

theorem exact_variant :
    (variant chars).Exact (Phrase.map (VariantTree.value chars) IsVariant)
      ⟨false, [.hash, .name], [.leftBrace, .leftParen]⟩ := by
  have hfields := ((exact_namedFields chars).orElse (exact_tupleFields chars) rfl rfl (by decide)).optional rfl
  have h := ((exact_attrs chars).andThen (exact_name.andThen hfields (by decide)) (by decide)).located
  refine (h.map _).congr (by decide) fun ts value => ?_
  constructor
  · rintro ⟨⟨⟨_, _, o⟩, _⟩, ⟨⟨as, _, rfl, ⟨attrs, hattrs, rfl⟩, _, us, rfl,
      ⟨name, rfl, hname, rfl⟩, ho⟩, rfl⟩, rfl⟩
    obtain ⟨fields, hfields, hvalue⟩ := (isVariantFields_iff chars).2 ⟨o, ho, rfl⟩
    refine ⟨_, .mk hattrs hname hfields rfl, ?_⟩
    rw [VariantTree.value, hvalue]
  · rintro ⟨_, ⟨hattrs, hname, hfields, rfl⟩, rfl⟩
    obtain ⟨o, ho, hvalue⟩ := (isVariantFields_iff chars).1 ⟨_, hfields, rfl⟩
    refine ⟨((_, _, o), _), ⟨⟨_, _, rfl, ⟨_, hattrs, rfl⟩, [_], _, rfl, ⟨_, rfl, hname, rfl⟩, ho⟩,
      rfl⟩, ?_⟩
    rw [VariantTree.value, ← hvalue]
    rfl

theorem exact_item : ((structItem chars).orElse (enumItem chars)).Exact
    (Phrase.map (fun item => (item.1, item.2.value chars)) IsItem) ⟨false, [.struct, .enum], []⟩ := by
  have hstruct := (exact_kind .struct).skipThen (exact_name.andThen (exact_structBody chars) (by decide)) (by decide)
  have hvariants := ((exact_variant chars).enclosedList rfl (by decide) .leftBrace .rightBrace (by decide)).map
    fun variants => (collect variants).map Data.enum
  have henum := (exact_kind .enum).skipThen (exact_name.andThen hvariants (by decide)) (by decide)
  refine (hstruct.orElse henum rfl rfl (by decide)).congr (by decide) fun ts value => ?_
  obtain ⟨ident, value⟩ := value
  constructor
  · rintro (⟨_, _, rfl, ⟨_, word, rfl, hword⟩, _, us, rfl, ⟨name, rfl, hname, rfl⟩, fields, hbody, rfl⟩ |
      ⟨_, _, rfl, ⟨_, word, rfl, hword⟩, _, _, rfl, ⟨name, rfl, hname, rfl⟩,
        _, ⟨left, us, right, variants, rfl, hleft, hvariants, hright, rfl⟩, rfl⟩)
    · exact ⟨_, .struct hword hname hbody, rfl⟩
    · exact ⟨_, .enum hword hname hleft hvariants hright, rfl⟩
  · rintro ⟨item, h, hvalue⟩
    cases h with
    | struct hword hname hbody =>
      cases hvalue
      exact .inl ⟨[_], _, rfl, ⟨(), _, rfl, hword⟩, [_], _, rfl, ⟨_, rfl, hname, rfl⟩, _, hbody, rfl⟩
    | enum hword hname hleft hvariants hright =>
      cases hvalue
      exact .inr ⟨[_], _, rfl, ⟨(), _, rfl, hword⟩, [_], _, rfl, ⟨_, rfl, hname, rfl⟩,
        _, ⟨_, _, _, _, rfl, hleft, hvariants, hright, rfl⟩, rfl⟩

theorem exact_declaration :
    (declaration chars).Exact (Phrase.map (DeclarationTree.value chars) IsDeclaration)
      ⟨false, [.hash, .pub, .struct, .enum], []⟩ := by
  have hitem := exact_visibility.skipThen (exact_item chars) (by decide)
  have h := ((exact_attrs chars).andThen hitem (by decide)).located
  refine (h.map _).congr (by decide) fun ts value => ?_
  constructor
  · rintro ⟨⟨⟨_, _, _⟩, _⟩, ⟨⟨as, _, rfl, ⟨attrs, hattrs, rfl⟩, vs, us, rfl, ⟨_, hvis, -⟩,
      ⟨ident, data⟩, hitem, hvalue⟩, rfl⟩, rfl⟩
    cases hvalue
    exact ⟨_, .mk hattrs hvis hitem rfl, rfl⟩
  · rintro ⟨_, ⟨hattrs, hvis, hitem, rfl⟩, rfl⟩
    exact ⟨((_, _, _), _), ⟨⟨_, _, rfl, ⟨_, hattrs, rfl⟩, _, _, rfl, ⟨_, hvis, rfl⟩,
      _, hitem, rfl⟩, rfl⟩, rfl⟩

end DeriveKit.Reader

namespace DeriveKit

open DeriveKit.Grammar

/-! ## The four symbols -/

/-- The symbols with which a snippet may start. -/
inductive Symbol where
  | declaration
  | attr
  | path
  | type

namespace Symbol

/-- What sentences stand for. A literal without a value is no fault of the sentence. -/
@[reducible]
def Value : Symbol → Type
  | declaration => Except Literal.Error Declaration
  | attr => Except Literal.Error Attribute
  | path => Path
  | type => TypeExpr

def reader (chars : Charset) : (s : Symbol) → Reader s.Value
  | declaration => Reader.declaration chars
  | attr => Reader.attr chars
  | path => Reader.path
  | type => Reader.typeExpr

/-- The sentences that start with the symbol, and what they stand for. -/
def Sentence (chars : Charset) : (s : Symbol) → Phrase s.Value
  | declaration => Phrase.map (DeclarationTree.value chars) IsDeclaration
  | attr => Phrase.map (AttributeTree.value chars) IsAttribute
  | path => IsPath
  | type => IsType

theorem exact_reader (chars : Charset) (s : Symbol) :
    ∃ π, (s.reader chars).Exact (s.Sentence chars) π := by
  cases s with
  | declaration => exact ⟨_, Reader.exact_declaration chars⟩
  | attr => exact ⟨_, Reader.exact_attr chars⟩
  | path => exact ⟨_, Reader.exact_path⟩
  | type => exact ⟨_, Reader.exact_typeExpr⟩

end Symbol

namespace Source

/-- A text is read if nothing in it stops lexing and the reader takes its tokens. -/
theorem run_eq_ok_iff {α : Type} {r : Reader α} {stop : Option (Char × Position)} {state : r.State}
    {last : Position} {ts : List Token} {a : α} :
    run r stop state last ts = .ok a ↔ stop = none ∧ r.readFrom state ts = some a := by
  induction ts generalizing state last with
  | nil => cases stop <;> cases h : r.finish state <;> simp [run, Reader.readFrom_nil, h]
  | cons t ts ih =>
    rw [Reader.readFrom_cons]
    cases h : r.feed state t with
    | none => simp [run, h]
    | some state' => simpa [run, h] using ih

/-- Tokens are read exactly if they are a sentence, and as what the sentence stands for. An attribute
is read as its path and the trees of its arguments, and what it stands for is made of these. -/
theorem reads_grammar_exactly (chars : Charset) (s : Symbol) (ts : List Token) :
    (∀ value, run (s.reader chars) none (s.reader chars).start .start ts = .ok value ↔
      s.Sentence chars ts value) ∧
    ∀ p arguments loc, run Reader.attrTrees none Reader.attrTrees.start .start ts =
      .ok ((p, arguments), loc) ↔ IsAttribute ts ⟨p, arguments, loc⟩ := by
  obtain ⟨π, hexact⟩ := s.exact_reader chars
  constructor
  · intro value
    rw [run_eq_ok_iff, ← hexact.reads]
    exact and_iff_right rfl
  · intro p arguments loc
    rw [run_eq_ok_iff, and_iff_right rfl]
    exact Reader.exact_attrTrees.reads ts ((p, arguments), loc)

end Source

end DeriveKit
