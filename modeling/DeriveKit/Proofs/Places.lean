import DeriveKit.Proofs.FirstError

/-!
# Places

Whatever is read from a text knows its place: a declaration, an attribute, a field and a variant stand where
the first of their own tokens stands, be that the start of an attribute or a `pub`.

`Node.Located` says so of a node with all that is in it. The tokens of a node hold the tokens of its children,
one stretch behind the other. As places of tokens increase along a text, so do those of siblings, and no child
stands before its parent (`places_of_readDeclaration`).
-/
namespace DeriveKit

open DeriveKit.Grammar

/-! ## The order of places -/

namespace Position

/-- On an earlier line, or further left on the same. -/
def Before (p q : Position) : Prop := p.line < q.line ∨ p.line = q.line ∧ p.column < q.column

theorem Before.trans {p q r : Position} (h : p.Before q) (h' : q.Before r) : p.Before r := by
  unfold Before at *
  omega

theorem not_before_self (p : Position) : ¬ p.Before p := by
  unfold Before
  omega

theorem Before.not_before {p q : Position} (h : p.Before q) : ¬ q.Before p := by
  unfold Before at *
  omega

theorem Before.of_not_before {p q r : Position} (h : p.Before q) (h' : ¬ r.Before q) : p.Before r := by
  unfold Before at *
  omega

theorem before_next (p : Position) (c : Char) : p.Before (p.next c) := by
  unfold next Before
  split <;> simp

theorem before_advance (p : Position) {word : List Char} (h : word ≠ []) : p.Before (p.advance word) := by
  induction word generalizing p with
  | nil => exact absurd rfl h
  | cons c word ih =>
    by_cases hword : word = []
    · subst hword
      exact p.before_next c
    · exact (p.before_next c).trans (ih (p.next c) hword)

end Position

/-- Each token stands before the ones that follow. -/
def Token.Increasing (ts : List Token) : Prop := ts.Pairwise fun t u => t.pos.Before u.pos

theorem Lexed.Cut.increasing {pos : Position} {pre rest : List Char} {ts : List Token}
    (h : Cut pos pre rest ts) : Token.Increasing ts ∧ ∀ t ∈ ts, ¬ t.pos.Before pos := by
  induction h with
  | nil => exact ⟨.nil, by simp⟩
  | @skip pos word pre rest ts hword h ih =>
    obtain ⟨hts, hlater⟩ := ih
    have hpos := pos.before_advance hword.lexeme.ne_nil
    exact ⟨hts, fun t ht => (hpos.of_not_before (hlater t ht)).not_before⟩
  | @token pos kind word pre rest ts hword h ih =>
    obtain ⟨hts, hlater⟩ := ih
    have hpos := pos.before_advance hword.lexeme.ne_nil
    have hafter : ∀ t ∈ ts, pos.Before t.pos := fun t ht => hpos.of_not_before (hlater t ht)
    refine ⟨.cons hafter hts, List.forall_mem_cons.2 ⟨pos.not_before_self, ?_⟩⟩
    exact fun t ht => (hafter t ht).not_before

/-! ## Stretches of tokens -/

namespace Grammar

variable {α β γ ε : Type} {L : Phrase α} {M : Phrase γ} {ts us : List Token} {as as' : List α}

/-- Phrases that have stretches of the tokens to themselves, one behind the other. -/
inductive InOrder (L : Phrase α) : Phrase (List α)
  | nil {ts : List Token} : InOrder L ts []
  | cons {before ts rest : List Token} {a : α} {as : List α} (h : L ts a) (hs : InOrder L rest as) :
      InOrder L (before ++ (ts ++ rest)) (a :: as)

namespace InOrder

theorem one {a : α} (h : L ts a) : InOrder L ts [a] := by
  have hone : InOrder L ([] ++ (ts ++ [])) [a] := .cons h .nil
  rwa [List.nil_append, List.append_nil] at hone

theorem append (h : InOrder L ts as) (h' : InOrder L us as') : InOrder L (ts ++ us) (as ++ as') := by
  induction h with
  | nil =>
    cases h' with
    | nil => exact .nil
    | cons h hs =>
      rw [← List.append_assoc]
      exact .cons h hs
  | cons h hs ih =>
    rw [List.append_assoc, List.append_assoc]
    exact .cons h ih

theorem preceded (h : InOrder L ts as) (before : List Token) : InOrder L (before ++ ts) as := by
  have hnone : InOrder L before [] := .nil
  exact hnone.append h

theorem followed (h : InOrder L ts as) (after : List Token) : InOrder L (ts ++ after) as := by
  rw [← List.append_nil as]
  exact h.append .nil

theorem of_mem (h : InOrder L ts as) : ∀ a ∈ as, ∃ us, us.Sublist ts ∧ L us a := by
  induction h with
  | nil => simp
  | @cons before us rest a as h hs ih =>
    have hrest : (us ++ rest).Sublist (before ++ (us ++ rest)) := List.sublist_append_right before _
    intro b hb
    rcases List.mem_cons.1 hb with rfl | hb
    · exact ⟨us, (List.sublist_append_left us rest).trans hrest, h⟩
    · obtain ⟨vs, hvs, hb⟩ := ih b hb
      exact ⟨vs, hvs.trans ((List.sublist_append_right us rest).trans hrest), hb⟩

/-- What phrases come to has their stretches. -/
theorem collect {value : α → Except ε β} {f : β → γ} {bs : List β} (h : InOrder L ts as)
    (hL : ∀ ts a b, L ts a → value a = .ok b → M ts (f b)) (hvalue : Reader.collect (as.map value) = .ok bs) :
    InOrder M ts (bs.map f) := by
  induction h generalizing bs with
  | nil =>
    cases hvalue
    exact .nil
  | cons h hs ih =>
    obtain ⟨b, hb, hvalue⟩ := ok_of_bind hvalue
    obtain ⟨bs, hbs, hvalue⟩ := ok_of_bind hvalue
    cases hvalue
    exact .cons (hL _ _ _ h hb) (ih hbs)

end InOrder

theorem Star.inOrder (h : Star L ts as) : InOrder L ts as := by
  induction h with
  | nil => exact .nil
  | cons h hs ih => exact (InOrder.one h).append ih

theorem CommaList.inOrder (h : CommaList L ts as) : InOrder L ts as := by
  induction h with
  | nil => exact .nil
  | last h => exact .one h
  | cons h hcomma hs ih => exact (InOrder.one h).append (ih.preceded [_])

end Grammar

/-! ## Nodes -/

/-- The parts of a declaration that have a place. -/
inductive Node where
  | declaration (d : Declaration)
  | attr (a : Attribute)
  | field (f : Field)
  | variant (v : Variant)

namespace Node

def loc : Node → Option Position
  | declaration d => d.loc
  | attr a => a.loc
  | field f => f.loc
  | variant v => v.loc

def fields (list : Option FieldList) : List Node := (list.elim [] FieldList.toList).map field

/-- The fields of a struct, or the variants of an enum. -/
def members : Data → List Node
  | .struct list _ => fields list
  | .enum variants => variants.map variant

/-- The attributes first, then what the node holds. -/
def children : Node → List Node
  | declaration d => d.attrs.map attr ++ members d.data
  | attr _ => []
  | field f => f.attrs.map attr
  | variant v => v.attrs.map attr ++ fields v.fields

/-- A node, its children, the children of these, and so on. -/
inductive Contains : Node → Node → Prop where
  | self (n : Node) : Contains n n
  | child {n c m : Node} (hc : c ∈ n.children) (h : Contains c m) : Contains n m

/-- The runs of tokens that come to a node. -/
inductive Derived (chars : Charset) : Phrase Node
  | declaration {ts : List Token} {tree : DeclarationTree} {d : Declaration} (h : IsDeclaration ts tree)
      (hvalue : tree.value chars = .ok d) : Derived chars ts (.declaration d)
  | attr {ts : List Token} {tree : AttributeTree} {a : Attribute} (h : IsAttribute ts tree)
      (hvalue : tree.value chars = .ok a) : Derived chars ts (.attr a)
  | namedField {ts : List Token} {tree : FieldTree} {f : Field} (h : IsNamedField ts tree)
      (hvalue : tree.value chars = .ok f) : Derived chars ts (.field f)
  | tupleField {ts : List Token} {tree : FieldTree} {f : Field} (h : IsTupleField ts tree)
      (hvalue : tree.value chars = .ok f) : Derived chars ts (.field f)
  | variant {ts : List Token} {tree : VariantTree} {v : Variant} (h : IsVariant ts tree)
      (hvalue : tree.value chars = .ok v) : Derived chars ts (.variant v)

/-- A node that stands where the first of its tokens stands, with all that is in it: the children have
stretches of these tokens and stand where these start. -/
inductive Located (chars : Charset) : Phrase Node
  | mk {first : Token} {ts : List Token} {n : Node} (hderived : n.Derived chars (first :: ts))
      (hloc : n.loc = some first.pos) (hchildren : InOrder (Located chars) (first :: ts) n.children) :
      Located chars (first :: ts) n

/-- Both nodes have a place, and the first stands before the second. -/
def Precedes (m n : Node) : Prop := ∃ p q, m.loc = some p ∧ n.loc = some q ∧ p.Before q

/-! ## Order from places -/

variable {chars : Charset} {ts : List Token} {m n : Node} {ns : List Node}

theorem Located.first (h : n.Located chars ts) : ∃ t ∈ ts, n.loc = some t.pos := by
  cases h with
  | mk hderived hloc hchildren => exact ⟨_, List.mem_cons_self, hloc⟩

theorem place_of_inOrder (h : InOrder (Located chars) ts ns) : ∀ n ∈ ns, ∃ t ∈ ts, n.loc = some t.pos := by
  intro n hn
  obtain ⟨us, hus, hlocated⟩ := h.of_mem n hn
  obtain ⟨t, ht, hloc⟩ := hlocated.first
  exact ⟨t, hus.subset ht, hloc⟩

theorem pairwise_of_inOrder (h : InOrder (Located chars) ts ns) (hts : Token.Increasing ts) :
    ns.Pairwise Precedes := by
  induction h with
  | nil => exact .nil
  | @cons before us rest n ns h hs ih =>
    -- The first token of `n` is among `us`, those of its siblings are among `rest`.
    obtain ⟨-, hts, -⟩ := List.pairwise_append.1 hts
    obtain ⟨-, hrest, hcross⟩ := List.pairwise_append.1 hts
    refine .cons (fun m hm => ?_) (ih hrest)
    obtain ⟨t, ht, hn⟩ := h.first
    obtain ⟨u, hu, hm⟩ := place_of_inOrder hs m hm
    exact ⟨t.pos, u.pos, hn, hm, hcross t ht u hu⟩

/-- The children of a node stand one after the other, and none before the node. -/
theorem Located.ordered (h : n.Located chars ts) (hts : Token.Increasing ts) :
    n.children.Pairwise Precedes ∧
      ∀ m ∈ n.children, ∃ p q, n.loc = some p ∧ m.loc = some q ∧ ¬ q.Before p := by
  cases h with
  | @mk first ts n hderived hloc hchildren =>
    refine ⟨pairwise_of_inOrder hchildren hts, fun m hm => ?_⟩
    obtain ⟨t, ht, hm⟩ := place_of_inOrder hchildren m hm
    refine ⟨first.pos, t.pos, hloc, hm, ?_⟩
    rcases List.mem_cons.1 ht with rfl | ht
    · exact t.pos.not_before_self
    · exact ((List.pairwise_cons.1 hts).1 t ht).not_before

theorem Located.of_contains (hm : n.Contains m) (h : n.Located chars ts) :
    ∃ us, us.Sublist ts ∧ m.Located chars us := by
  induction hm generalizing ts with
  | self n => exact ⟨ts, .refl ts, h⟩
  | child hc hm ih =>
    cases h with
    | mk hderived hloc hchildren =>
      obtain ⟨us, hus, hc⟩ := hchildren.of_mem _ hc
      obtain ⟨vs, hvs, hm⟩ := ih hc
      exact ⟨vs, hvs.trans hus, hm⟩

theorem Located.of_place (hderived : n.Derived chars ts) (hloc : n.loc = place ts) (hne : ts ≠ [])
    (hchildren : InOrder (Located chars) ts n.children) : n.Located chars ts := by
  cases ts with
  | nil => exact absurd rfl hne
  | cons first ts => exact .mk hderived hloc hchildren

end Node

/-! ## Places of phrases -/

namespace Grammar

open Node

variable {chars : Charset} {ts : List Token}

theorem IsType.ne_nil {type : TypeExpr} (h : IsType ts type) : ts ≠ [] := by
  cases h with
  | path hp =>
    obtain ⟨⟨_, _⟩, _⟩ := hp
    simp
  | _ => simp

theorem IsItem.ne_nil {item : String × DataTree} (h : IsItem ts item) : ts ≠ [] := by
  cases h <;> simp

theorem IsAttribute.located {tree : AttributeTree} {a : Attribute} (h : IsAttribute ts tree)
    (hvalue : tree.value chars = .ok a) : (Node.attr a).Located chars ts := by
  have hderived := Derived.attr h hvalue
  obtain ⟨payload, -, rfl⟩ := ok_of_map hvalue
  cases h
  exact .mk hderived rfl .nil

theorem Star.attrs {trees : List AttributeTree} {attrs : List Attribute} (h : Star IsAttribute ts trees)
    (hvalue : Reader.collect (trees.map (AttributeTree.value chars)) = .ok attrs) :
    InOrder (Located chars) ts (attrs.map .attr) :=
  h.inOrder.collect (fun _ _ _ => IsAttribute.located) hvalue

theorem IsNamedField.located {tree : FieldTree} {f : Field} (h : IsNamedField ts tree)
    (hvalue : tree.value chars = .ok f) : (Node.field f).Located chars ts := by
  have hderived := Derived.namedField h hvalue
  obtain ⟨attrs, hattrsValue, rfl⟩ := ok_of_map hvalue
  cases h with
  | mk hattrs hvis hname hcolon htype htokens =>
    subst htokens
    exact .of_place hderived rfl (by simp) ((hattrs.attrs hattrsValue).followed _)

theorem IsTupleField.located {tree : FieldTree} {f : Field} (h : IsTupleField ts tree)
    (hvalue : tree.value chars = .ok f) : (Node.field f).Located chars ts := by
  have hderived := Derived.tupleField h hvalue
  obtain ⟨attrs, hattrsValue, rfl⟩ := ok_of_map hvalue
  cases h with
  | mk hattrs hvis htype htokens =>
    subst htokens
    exact .of_place hderived rfl (by simp [htype.ne_nil]) ((hattrs.attrs hattrsValue).followed _)

theorem IsNamedFields.inOrder {tree : FieldsTree} {list : FieldList} (h : IsNamedFields ts tree)
    (hvalue : tree.value chars = .ok list) : InOrder (Located chars) ts (Node.fields list) := by
  cases h with
  | mk hleft h hright =>
    obtain ⟨fs, hfs, rfl⟩ := ok_of_map hvalue
    exact ((h.inOrder.collect (fun _ _ _ => IsNamedField.located) hfs).followed _).preceded [_]

theorem IsTupleFields.inOrder {tree : FieldsTree} {list : FieldList} (h : IsTupleFields ts tree)
    (hvalue : tree.value chars = .ok list) : InOrder (Located chars) ts (Node.fields list) := by
  cases h with
  | mk hleft h hright =>
    obtain ⟨fs, hfs, rfl⟩ := ok_of_map hvalue
    exact ((h.inOrder.collect (fun _ _ _ => IsTupleField.located) hfs).followed _).preceded [_]

theorem IsVariant.located {tree : VariantTree} {v : Variant} (h : IsVariant ts tree)
    (hvalue : tree.value chars = .ok v) : (Node.variant v).Located chars ts := by
  have hderived := Derived.variant h hvalue
  obtain ⟨attrs, hattrsValue, hvalue⟩ := ok_of_bind hvalue
  obtain ⟨list, hlist, hvalue⟩ := ok_of_bind hvalue
  cases hvalue
  cases h with
  | @mk _ as us name _ _ hattrs hname hfields htokens =>
    have hinOrder : InOrder (Located chars) us (Node.fields list) := by
      cases hfields with
      | none =>
        cases hlist
        exact .nil
      | named h => exact h.inOrder hlist
      | tuple h => exact h.inOrder hlist
    subst htokens
    exact .of_place hderived rfl (by simp) ((hattrs.attrs hattrsValue).append (hinOrder.preceded [name]))

theorem IsStructBody.inOrder {tree : FieldsTree} {list : FieldList} (h : IsStructBody ts tree)
    (hvalue : tree.value chars = .ok list) : InOrder (Located chars) ts (Node.fields list) := by
  cases h with
  | unit =>
    cases hvalue
    exact .nil
  | named h => exact h.inOrder hvalue
  | tuple h hsemi => exact (h.inOrder hvalue).followed [_]

theorem IsItem.inOrder {ident : String} {tree : DataTree} {data : Data} (h : IsItem ts (ident, tree))
    (hvalue : tree.value chars = .ok data) : InOrder (Located chars) ts (members data) := by
  cases h with
  | struct hword hname hbody =>
    obtain ⟨list, hlist, rfl⟩ := ok_of_map hvalue
    exact (hbody.inOrder hlist).preceded [_, _]
  | enum hword hname hleft h hright =>
    obtain ⟨variants, hvariants, rfl⟩ := ok_of_map hvalue
    exact ((h.inOrder.collect (fun _ _ _ => IsVariant.located) hvariants).followed _).preceded [_, _, _]

theorem IsDeclaration.located {tree : DeclarationTree} {d : Declaration} (h : IsDeclaration ts tree)
    (hvalue : tree.value chars = .ok d) : (Node.declaration d).Located chars ts := by
  have hderived := Derived.declaration h hvalue
  obtain ⟨attrs, hattrsValue, hvalue⟩ := ok_of_bind hvalue
  obtain ⟨data, hdata, hvalue⟩ := ok_of_bind hvalue
  cases hvalue
  cases h with
  | mk hattrs hvis hitem htokens =>
    subst htokens
    exact .of_place hderived rfl (by simp [hitem.ne_nil])
      ((hattrs.attrs hattrsValue).append ((hitem.inOrder hdata).preceded _))

end Grammar

/-- In a declaration that was read every part has a place, that of the first token it was read from: the start
of its attributes if it has some, else a `pub` in front of it. So attributes and members stand in their order,
and nothing stands before what it is part of. -/
theorem places_of_readDeclaration (chars : Charset) {text : String} {d : Declaration}
    (hread : Source.readDeclaration chars text = .ok d) :
    ∃ ts, Lexed.ofText text = ⟨ts, none⟩ ∧ (Node.declaration d).Located chars ts ∧
      ∀ n, (Node.declaration d).Contains n → n.children.Pairwise Node.Precedes ∧
        ∀ m ∈ n.children, ∃ p q, n.loc = some p ∧ m.loc = some q ∧ ¬ q.Before p := by
  obtain ⟨value, hvalue, hok⟩ := ok_of_bind hread
  obtain ⟨ts, hcut, tree, htree, rfl⟩ := (Symbol.read_eq_ok_iff (s := .declaration)).1 hvalue
  have hlocated := htree.located (ok_of_mapError hok)
  refine ⟨ts, hcut.scan_eq, hlocated, fun n hn => ?_⟩
  obtain ⟨us, hus, hn⟩ := hlocated.of_contains hn
  exact hn.ordered (hcut.increasing.1.sublist hus)

/-- A variant and its field that start with attributes, a `pub` behind one of these, and a variant without any;
the first attribute holds a character by its name. -/
theorem places_of_readDeclaration_enum :
    let chars : Charset := .plain fun name => if name = "DIGIT NINE".toList then some '9' else none
    let text := "#[a(\"\\N\x7bDIGIT NINE\x7d\")]\npub enum E \x7b #[b] A(#[c] pub u8), B \x7d"
    ∃ d ts, Source.readDeclaration chars text = .ok d ∧ Lexed.ofText text = ⟨ts, none⟩ ∧
      (Node.declaration d).Located chars ts ∧
      (∀ n, (Node.declaration d).Contains n → n.children.Pairwise Node.Precedes ∧
        ∀ m ∈ n.children, ∃ p q, n.loc = some p ∧ m.loc = some q ∧ ¬ q.Before p) ∧
      d.attrs.map Attribute.render = ["#[a(\"9\")]"] ∧ d.loc = some ⟨1, 1⟩ ∧
      (Node.declaration d).children.map Node.loc = [some ⟨1, 1⟩, some ⟨2, 14⟩, some ⟨2, 35⟩] := by
  intro chars text
  have hany : (Source.readDeclaration chars text).toOption.any (fun d =>
      d.attrs.map Attribute.render = ["#[a(\"9\")]"] ∧ d.loc = some ⟨1, 1⟩ ∧
      (Node.declaration d).children.map Node.loc = [some ⟨1, 1⟩, some ⟨2, 14⟩, some ⟨2, 35⟩]) = true := by
    decide +kernel
  obtain ⟨d, hread, hshape⟩ := ok_of_any hany
  obtain ⟨ts, hlexed, hlocated, hordered⟩ := places_of_readDeclaration chars hread
  exact ⟨d, ts, hread, hlexed, hlocated, hordered, of_decide_eq_true hshape⟩

end DeriveKit
