import DeriveKit.Proofs.EntryTrees

/-!
# The grammar of parameters

Which token trees are parameters, and which entries they stand for: one relation for a parameter and one
for a list of them, with a case for each rule. Trees between parentheses are read as entries exactly if
they are parameters that stand for them (`entries_eq_ok_iff`). If every literal has a value, trees that are
no parameters are kept as text and nothing else can go wrong (`parameters_read_exactly`).
-/
namespace DeriveKit

open DeriveKit.Token (Kind)

namespace Grammar

/-- A token that writes a literal. -/
inductive IsLiteral (chars : Charset) (t : Token) : Literal → Prop
  | text {s : String} (hkind : t.kind = .string) (h : Literal.decodeText chars t.text = .ok s) :
      IsLiteral chars t (.text s)
  | int {n : Int} (hkind : t.kind = .int) (h : Literal.decodeInt t.text = .ok n) : IsLiteral chars t (.int n)
  | real {x : Binary64} (hkind : t.kind = .float) (h : Binary64.ofText? t.text = some x) :
      IsLiteral chars t (.real x)
  | yes (hkind : t.kind = .trueWord) : IsLiteral chars t (.flag true)
  | no (hkind : t.kind = .falseWord) : IsLiteral chars t (.flag false)

mutual

inductive IsParam (chars : Charset) : List TokenTree → Entry → Prop
  | literal {t : Token} {v : Literal} (h : IsLiteral chars t v) : IsParam chars [.leaf t] (.literal v)
  | path {ts : List Token} {p : Path} (hp : IsPath ts p) : IsParam chars (ts.map .leaf) (.path p)
  /-- `path "(" params ")"` -/
  | list {ts : List Token} {p : Path} {inner : List TokenTree} {es : List Entry} (hp : IsPath ts p)
      (h : IsParams chars inner es) : IsParam chars (ts.map .leaf ++ [.group inner]) (.list p es)
  /-- `path "=" literal` -/
  | keyValue {ts : List Token} {p : Path} {eq t : Token} {v : Literal} (hp : IsPath ts p)
      (heq : eq.kind = .equals) (h : IsLiteral chars t v) :
      IsParam chars (ts.map .leaf ++ [.leaf eq, .leaf t]) (.keyValue p v)

/-- `(param ("," param)* ","?)?` -/
inductive IsParams (chars : Charset) : List TokenTree → List Entry → Prop
  | nil : IsParams chars [] []
  | last {trees : List TokenTree} {e : Entry} (h : IsParam chars trees e) : IsParams chars trees [e]
  | cons {trees more : List TokenTree} {comma : Token} {e : Entry} {es : List Entry} (h : IsParam chars trees e)
      (hcomma : comma.kind = .comma) (hs : IsParams chars more es) :
      IsParams chars (trees ++ .leaf comma :: more) (e :: es)

end

/-- The kinds of tokens that write literals. -/
def literalKinds : List Kind := [.string, .int, .float, .trueWord, .falseWord]

section Literals

variable {chars : Charset}

theorem isLiteral_iff {t : Token} {v : Literal} :
    IsLiteral chars t v ↔ Metadata.literal? chars t = some (.ok v) := by
  constructor
  · intro h
    cases h with
    | text hkind h | int hkind h | real hkind h =>
      simp only [Metadata.literal?, hkind, h]
      rfl
    | yes hkind | no hkind => simp only [Metadata.literal?, hkind]
  · intro h
    unfold Metadata.literal? at h
    split at h
    next hkind =>
      obtain ⟨s, hs, rfl⟩ := ok_of_map (Option.some.inj h)
      exact .text hkind hs
    next hkind =>
      obtain ⟨n, hn, rfl⟩ := ok_of_map (Option.some.inj h)
      exact .int hkind hn
    next hkind =>
      obtain ⟨x, hx, heq⟩ := Option.map_eq_some_iff.1 h
      cases heq
      exact .real hkind hx
    next hkind =>
      cases h
      exact .yes hkind
    next hkind =>
      cases h
      exact .no hkind
    next => cases h

theorem exists_isLiteral_iff (chars : Charset) (t : Token) :
    ((Metadata.literal? chars t).bind Except.toOption).isSome = true ↔ ∃ v, IsLiteral chars t v := by
  simp only [isLiteral_iff]
  cases Metadata.literal? chars t with
  | none => simp
  | some value =>
    cases value with
    | ok v => exact ⟨fun _ => ⟨v, rfl⟩, fun _ => rfl⟩
    | error e =>
      constructor
      · intro h
        cases h
      · rintro ⟨v, hv⟩
        cases hv

instance (chars : Charset) (t : Token) : Decidable (∃ v, IsLiteral chars t v) :=
  decidable_of_iff _ (exists_isLiteral_iff chars t)

theorem kind_mem_literalKinds {t : Token} {value : Except Literal.Error Literal}
    (h : Metadata.literal? chars t = some value) : t.kind ∈ literalKinds := by
  unfold Metadata.literal? at h
  split at h <;> simp_all [literalKinds]

theorem IsLiteral.kind_mem {t : Token} {v : Literal} (h : IsLiteral chars t v) : t.kind ∈ literalKinds :=
  kind_mem_literalKinds (isLiteral_iff.1 h)

end Literals

end Grammar

namespace TokenTree

mutual

/-- The tokens of a tree at any depth, parentheses apart. -/
def leaves : TokenTree → List Token
  | leaf t => [t]
  | group trees => leavesAll trees

def leavesAll : List TokenTree → List Token
  | [] => []
  | tree :: trees => tree.leaves ++ leavesAll trees

end

/-- Every literal among the leaves has a value. -/
def Decoded (chars : Charset) (trees : List TokenTree) : Prop :=
  ∀ t ∈ leavesAll trees, t.kind ∈ Grammar.literalKinds → ∃ v, Grammar.IsLiteral chars t v

instance (chars : Charset) (trees : List TokenTree) : Decidable (Decoded chars trees) :=
  inferInstanceAs (Decidable (∀ t ∈ leavesAll trees, _))

end TokenTree

namespace Metadata

open DeriveKit.Grammar

variable {chars : Charset}

/-! ## What a tree contributes -/

theorem leafItem_of_isLiteral {t : Token} {v : Literal} (h : IsLiteral chars t v) :
    leafItem chars t = .literal (.ok v) := by
  rw [leafItem, isLiteral_iff.1 h]

/-- All that a tree can contribute. -/
inductive Gives (chars : Charset) : TokenTree → Item → Prop
  | name {t : Token} {s : Segment} (hkind : t.kind = .name) (htext : t.text = s.val) :
      Gives chars (.leaf t) (.name s)
  | pathSep {t : Token} (hkind : t.kind = .pathSep) : Gives chars (.leaf t) .pathSep
  | comma {t : Token} (hkind : t.kind = .comma) : Gives chars (.leaf t) .comma
  | equals {t : Token} (hkind : t.kind = .equals) : Gives chars (.leaf t) .equals
  | literal {t : Token} {v : Literal} (h : IsLiteral chars t v) : Gives chars (.leaf t) (.literal (.ok v))
  | undecoded {t : Token} {e : Literal.Error} (hkind : t.kind ∈ literalKinds) (h : ∀ v, ¬ IsLiteral chars t v) :
      Gives chars (.leaf t) (.literal (.error e))
  | group {trees : List TokenTree} : Gives chars (.group trees) (.group (entries chars trees))
  | other {t : Token} : Gives chars (.leaf t) .other

theorem gives_leafItem (chars : Charset) (t : Token) : Gives chars (.leaf t) (leafItem chars t) := by
  unfold leafItem
  split
  next value hvalue =>
    cases value with
    | ok v => exact .literal (isLiteral_iff.2 hvalue)
    | error e =>
      refine .undecoded (kind_mem_literalKinds hvalue) fun v hv => ?_
      rw [isLiteral_iff.1 hv] at hvalue
      cases hvalue
  next =>
    split
    next hkind =>
      split
      next s hs =>
        obtain ⟨htext, hs⟩ := Option.dite_none_left_eq_some.1 hs
        cases hs
        exact .name hkind rfl
      next => exact .other
    next hkind => exact .pathSep hkind
    next hkind => exact .comma hkind
    next hkind => exact .equals hkind
    next => exact .other

theorem gives_item (chars : Charset) (tree : TokenTree) : Gives chars tree (item chars tree) := by
  cases tree with
  | leaf t =>
    rw [item]
    exact gives_leafItem chars t
  | group trees =>
    rw [item]
    exact .group

theorem items_eq_map (trees : List TokenTree) : items chars trees = trees.map (item chars) := by
  induction trees with
  | nil => rfl
  | cons tree trees ih => rw [items, ih, List.map_cons]

/-- Trees that contribute a path are the tokens of that path. -/
theorem steps_of_items {trees : List TokenTree} {tail : List Segment} (h : items chars trees = stepItems tail) :
    ∃ ts, trees = ts.map .leaf ∧ Star IsStep ts tail := by
  induction tail generalizing trees with
  | nil =>
    cases trees with
    | nil => exact ⟨[], rfl, .nil⟩
    | cons => cases h
  | cons s tail ih =>
    match trees, h with
    | [_], h => cases (List.cons.inj h).2
    | sepTree :: tree :: trees, h =>
      obtain ⟨hsep, h⟩ := List.cons.inj h
      obtain ⟨hname, h⟩ := List.cons.inj h
      obtain ⟨ts, rfl, hts⟩ := ih h
      have hsepGives := gives_item chars sepTree
      have hgives := gives_item chars tree
      rw [hsep] at hsepGives
      rw [hname] at hgives
      cases hsepGives with
      | pathSep hsepKind =>
        cases hgives with
        | name hkind htext =>
          exact ⟨_ :: _ :: ts, rfl, .cons (.sep hsepKind (.name hkind htext)) hts⟩

theorem path_of_items {trees : List TokenTree} {p : Path} (h : items chars trees = pathItems p) :
    ∃ ts, trees = ts.map .leaf ∧ IsPath ts p := by
  match trees, h with
  | tree :: trees, h =>
    obtain ⟨hname, h⟩ := List.cons.inj h
    obtain ⟨ts, rfl, hts⟩ := steps_of_items h
    have hgives := gives_item chars tree
    rw [hname] at hgives
    cases hgives with
    | name hkind htext => exact ⟨_ :: ts, rfl, .mk (.name hkind htext) hts⟩

/-! ## One parameter -/

theorem eq_pathItems_of_takePath? {xs rest : List Item} {p : Path} (h : takePath? xs = some (p, rest)) :
    xs = pathItems p ++ rest := by
  fun_induction takePath? xs generalizing p rest with
  | case1 s xs ih =>
    obtain ⟨⟨q, rest'⟩, hq, heq⟩ := Option.map_eq_some_iff.1 h
    cases heq
    rw [ih hq]
    rfl
  | case2 s xs _ =>
    cases h
    rfl
  | case3 => cases h

/-- The parts that stand for an entry. -/
inductive Makes : List Item → Entry → Prop
  | literal (v : Literal) : Makes [.literal (.ok v)] (.literal v)
  | path (p : Path) : Makes (pathItems p) (.path p)
  | list (p : Path) (es : List Entry) : Makes (pathItems p ++ [.group (.ok es)]) (.list p es)
  | keyValue (p : Path) (v : Literal) :
      Makes (pathItems p ++ [.equals, .literal (.ok v)]) (.keyValue p v)

theorem makes_of_entry {part : List Item} {e : Entry} (h : entry part = .ok e) : Makes part e := by
  unfold entry at h
  split at h
  next value =>
    cases value with
    | error => cases h
    | ok v =>
      cases h
      exact .literal v
  next =>
    split at h
    next p htake =>
      cases h
      rw [eq_pathItems_of_takePath? htake, List.append_nil]
      exact .path p
    next p entries htake =>
      rw [eq_pathItems_of_takePath? htake]
      cases entries with
      | error => cases h
      | ok es =>
        cases h
        exact .list p es
    next p value htake =>
      rw [eq_pathItems_of_takePath? htake]
      cases value with
      | error => cases h
      | ok v =>
        cases h
        exact .keyValue p v
    next => cases h

/-- Trees that contribute a path and more are the tokens of the path, and more trees. -/
theorem path_append_of_items {trees : List TokenTree} {p : Path} {more : List Item}
    (h : items chars trees = pathItems p ++ more) :
    ∃ ts rest, trees = ts.map .leaf ++ rest ∧ IsPath ts p ∧ items chars rest = more := by
  rw [items_eq_map] at h
  obtain ⟨front, rest, rfl, hfront, hrest⟩ := List.map_eq_append_iff.1 h
  rw [← items_eq_map] at hfront hrest
  obtain ⟨ts, rfl, hp⟩ := path_of_items hfront
  exact ⟨ts, rest, rfl, hp, hrest⟩

theorem items_eq_singleton {trees : List TokenTree} {x : Item} (h : items chars trees = [x]) :
    ∃ tree, trees = [tree] ∧ Gives chars tree x := by
  rw [items_eq_map] at h
  obtain ⟨tree, rfl, rfl⟩ := List.map_eq_singleton_iff.1 h
  exact ⟨tree, rfl, gives_item chars tree⟩

/-! ## Lists of parameters -/

mutual

theorem stands_of_isParam {trees : List TokenTree} {e : Entry} : IsParam chars trees e → Stands chars trees e
  | .literal h => .literal (leafItem_of_isLiteral h)
  | .path hp => .path (items_path hp)
  | .list hp h => .list (items_path hp) (entries_of_isParams h)
  | .keyValue hp heq h => .keyValue (items_path hp) heq (leafItem_of_isLiteral h)

theorem entries_of_isParams {trees : List TokenTree} {es : List Entry} :
    IsParams chars trees es → Metadata.entries chars trees = .ok es
  | .nil => rfl
  | .last h => (stands_of_isParam h).entries
  | .cons h hcomma hs => (stands_of_isParam h).entries_cons hcomma (entries_of_isParams hs)

end

/-- Trees without a comma, or the trees before and after the first. -/
theorem split_at_comma (chars : Charset) (trees : List TokenTree) :
    Item.comma ∉ items chars trees ∨ ∃ front comma more, trees = front ++ .leaf comma :: more ∧
      comma.kind = .comma ∧ Item.comma ∉ items chars front := by
  induction trees with
  | nil => exact .inl List.not_mem_nil
  | cons tree trees ih =>
    have hgives := gives_item chars tree
    by_cases hcomma : item chars tree = .comma
    · rw [hcomma] at hgives
      cases hgives with
      | comma hkind => exact .inr ⟨[], _, trees, rfl, hkind, List.not_mem_nil⟩
    · rcases ih with hnone | ⟨front, comma, more, rfl, hkind, hfront⟩
      · exact .inl (by simpa [items, hnone] using fun h => hcomma h.symm)
      · exact .inr ⟨tree :: front, comma, more, rfl, hkind,
          by simpa [items, hfront] using fun h => hcomma h.symm⟩

/-- How trees come to be read as entries: there are none, or one part without a comma, or a part, a comma
and more. -/
theorem entries_cases {trees : List TokenTree} {es : List Entry} (h : entries chars trees = .ok es) :
    (trees = [] ∧ es = []) ∨
    (∃ e, es = [e] ∧ entry (items chars trees) = .ok e) ∨
    ∃ front comma more e es', trees = front ++ .leaf comma :: more ∧ comma.kind = .comma ∧
      es = e :: es' ∧ entry (items chars front) = .ok e ∧ entries chars more = .ok es' := by
  rcases split_at_comma chars trees with hcomma | ⟨front, comma, more, rfl, hkind, hfront⟩
  · cases trees with
    | nil =>
      cases h
      exact .inl ⟨rfl, rfl⟩
    | cons tree trees =>
      rw [entries_of_comma_not_mem (by simp [items]) hcomma] at h
      obtain ⟨e, he, rfl⟩ := ok_of_map h
      exact .inr (.inl ⟨e, rfl, he⟩)
  · rw [entries_append_comma hfront hkind] at h
    obtain ⟨e, he, h⟩ := ok_of_bind h
    obtain ⟨es', hes, rfl⟩ := ok_of_map h
    exact .inr (.inr ⟨front, comma, more, e, es', rfl, hkind, rfl, he, hes⟩)

mutual

/-- Trees that are read as an entry are a parameter. -/
theorem isParam_of_entry : ∀ (e : Entry) (trees : List TokenTree), entry (items chars trees) = .ok e →
    IsParam chars trees e
  | .literal v, trees, h => by
    generalize hitems : items chars trees = part at h
    cases makes_of_entry h with
    | literal =>
      obtain ⟨_, rfl, hgives⟩ := items_eq_singleton hitems
      cases hgives with
      | literal hv => exact .literal hv
  | .path p, trees, h => by
    generalize hitems : items chars trees = part at h
    cases makes_of_entry h with
    | path =>
      obtain ⟨ts, rfl, hp⟩ := path_of_items hitems
      exact .path hp
  | .list p es, trees, h => by
    generalize hitems : items chars trees = part at h
    cases makes_of_entry h with
    | list =>
      obtain ⟨ts, rest, rfl, hp, hrest⟩ := path_append_of_items hitems
      obtain ⟨tree, rfl, hgives⟩ := items_eq_singleton hrest
      generalize hinner : (.ok es : Except Refusal (List Entry)) = inner at hgives
      cases hgives with
      | group => exact .list hp (isParams_of_entries es _ hinner.symm)
  | .keyValue p v, trees, h => by
    generalize hitems : items chars trees = part at h
    cases makes_of_entry h with
    | keyValue =>
      obtain ⟨ts, rest, rfl, hp, hrest⟩ := path_append_of_items hitems
      match rest, hrest with
      | eqTree :: rest, hrest =>
        obtain ⟨heq, hrest⟩ := List.cons.inj hrest
        obtain ⟨tree, rfl, hgives⟩ := items_eq_singleton hrest
        have heqGives := gives_item chars eqTree
        rw [heq] at heqGives
        cases heqGives with
        | equals hkind =>
          cases hgives with
          | literal hv => exact .keyValue hp hkind hv

/-- Trees that are read as entries are parameters. -/
theorem isParams_of_entries : ∀ (es : List Entry) (trees : List TokenTree), entries chars trees = .ok es →
    IsParams chars trees es
  | [], trees, h => by
    rcases entries_cases h with ⟨rfl, -⟩ | ⟨e, he, -⟩ | ⟨front, comma, more, e, es, -, -, he, -⟩
    · exact .nil
    · cases he
    · cases he
  | e :: es, trees, h => by
    rcases entries_cases h with ⟨-, he⟩ | ⟨e', he, hentry⟩ |
      ⟨front, comma, more, e', es', rfl, hkind, he, hentry, hentries⟩
    · cases he
    · cases he
      exact .last (isParam_of_entry e _ hentry)
    · cases he
      exact .cons (isParam_of_entry e _ hentry) hkind (isParams_of_entries es _ hentries)

end

theorem entries_eq_ok_iff {trees : List TokenTree} {es : List Entry} :
    entries chars trees = .ok es ↔ IsParams chars trees es :=
  ⟨isParams_of_entries es trees, entries_of_isParams⟩

/-! ## Literals with values -/

/-- The item holds no literal without a value. -/
def Item.Sound : Item → Prop
  | .literal value => ∃ v, value = .ok v
  | .group entries => ∀ e, entries ≠ .error (.literal e)
  | _ => True

theorem entry_sound {part : List Item} (h : ∀ x ∈ part, x.Sound) (e : Literal.Error) :
    entry part ≠ .error (.literal e) := by
  intro he
  unfold entry at he
  split at he
  next value =>
    obtain ⟨v, rfl⟩ := h _ List.mem_cons_self
    cases he
  next =>
    split at he
    next => cases he
    next p entries htake =>
      rw [eq_pathItems_of_takePath? htake] at h
      have hsound : (Item.group entries).Sound := h _ (by simp)
      cases entries with
      | ok es => cases he
      | error refusal =>
        cases he
        exact hsound e rfl
    next p value htake =>
      rw [eq_pathItems_of_takePath? htake] at h
      obtain ⟨v, rfl⟩ : (Item.literal value).Sound := h _ (by simp)
      cases he
    next => cases he

theorem mem_partsFrom {current xs part : List Item} {x : Item} (hpart : part ∈ partsFrom current xs)
    (hx : x ∈ part) : x ∈ current ∨ x ∈ xs := by
  fun_induction partsFrom current xs with
  | case1 current hempty => cases hpart
  | case2 current hne =>
    rw [List.mem_singleton.1 hpart] at hx
    exact .inl hx
  | case3 current rest ih =>
    rcases List.mem_cons.1 hpart with rfl | hpart
    · exact .inl hx
    · exact .inr (List.mem_cons_of_mem _ ((ih hpart).resolve_left List.not_mem_nil))
  | case4 current y rest hy ih =>
    rcases ih hpart with hmem | hmem
    · rcases List.mem_append.1 hmem with hmem | hmem
      · exact .inl hmem
      · exact .inr (List.mem_singleton.1 hmem ▸ List.mem_cons_self)
    · exact .inr (List.mem_cons_of_mem _ hmem)

theorem entriesOf_sound {parts : List (List Item)} (h : ∀ part ∈ parts, ∀ x ∈ part, x.Sound)
    (e : Literal.Error) : entriesOf parts ≠ .error (.literal e) := by
  induction parts with
  | nil =>
    intro he
    cases he
  | cons part parts ih =>
    obtain ⟨hpart, hparts⟩ := List.forall_mem_cons.1 h
    rw [entriesOf]
    cases hentry : entry part with
    | error refusal =>
      intro he
      cases he
      exact entry_sound hpart e hentry
    | ok entry =>
      cases hentries : entriesOf parts with
      | error refusal =>
        intro he
        cases he
        exact ih hparts hentries
      | ok es =>
        intro he
        cases he

theorem entries_sound {trees : List TokenTree} (h : ∀ x ∈ items chars trees, x.Sound) (e : Literal.Error) :
    entries chars trees ≠ .error (.literal e) :=
  entriesOf_sound (fun _ hpart x hx => h x ((mem_partsFrom hpart hx).resolve_left List.not_mem_nil)) e

mutual

theorem item_sound : ∀ tree : TokenTree, TokenTree.Decoded chars [tree] → (item chars tree).Sound
  | .leaf t, h => by
    have hgives := gives_item chars (.leaf t)
    generalize item chars (.leaf t) = x at hgives
    cases hgives with
    | literal => exact ⟨_, rfl⟩
    | undecoded hkind hnone =>
      obtain ⟨v, hv⟩ := h t (by simp [TokenTree.leavesAll, TokenTree.leaves]) hkind
      exact absurd hv (hnone v)
    | name | pathSep | comma | equals | other => trivial
  | .group trees, h => by
    have hinner : TokenTree.Decoded chars trees := by
      simpa [TokenTree.Decoded, TokenTree.leavesAll, TokenTree.leaves] using h
    rw [item]
    exact entries_sound (items_sound trees hinner)

theorem items_sound : ∀ trees : List TokenTree, TokenTree.Decoded chars trees → ∀ x ∈ items chars trees, x.Sound
  | [], _ => fun _ hx => absurd hx List.not_mem_nil
  | tree :: trees, h => by
    rw [items]
    refine List.forall_mem_cons.2 ⟨item_sound tree fun t ht => h t ?_, items_sound trees fun t ht => h t ?_⟩
    · simp only [TokenTree.leavesAll, List.append_nil] at ht
      exact List.mem_append_left _ ht
    · exact List.mem_append_right _ ht

end

end Metadata

/-! ## Arguments of an attribute -/

namespace Arguments

open DeriveKit.Grammar
open DeriveKit.Metadata (entries items)

section Payload

variable {chars : Charset}

theorem payload_parens_eq_list_iff {trees : List TokenTree} {es : List Entry} :
    (parens trees).payload chars = .ok (.metadata (.list es)) ↔ IsParams chars trees es := by
  rw [← Metadata.entries_eq_ok_iff, payload]
  cases hentries : entries chars trees with
  | ok es' => simp
  | error refusal => cases refusal <;> simp

theorem payload_parens_of_not_isParams {trees : List TokenTree} (h : TokenTree.Decoded chars trees)
    (hnone : ∀ es, ¬ IsParams chars trees es) :
    (parens trees).payload chars = .ok (.verbatim ("(" ++ TokenTree.renderAll trees ++ ")")) := by
  rw [payload]
  cases hentries : entries chars trees with
  | ok es => exact absurd (Metadata.entries_eq_ok_iff.1 hentries) (hnone es)
  | error refusal =>
    cases refusal with
    | malformed => rfl
    | literal e => exact absurd hentries (Metadata.entries_sound (Metadata.items_sound trees h) e)

theorem payload_equals_of_isLiteral {t : Token} {v : Literal} (h : IsLiteral chars t v) :
    (equals [.leaf t]).payload chars = .ok (.metadata (.keyValue v)) := by
  rw [payload, items, items, Metadata.item, Metadata.leafItem_of_isLiteral h]
  rfl

/-- What `=` leads to: a single literal token is asked for its value, and anything else is kept. -/
theorem payload_equals_cases (trees : List TokenTree) :
    (∃ t, trees = [.leaf t] ∧ t.kind ∈ literalKinds) ∨
      (equals trees).payload chars = .ok (.verbatim ("= " ++ TokenTree.renderAll trees)) := by
  rw [payload]
  split
  next value hitems =>
    obtain ⟨tree, rfl, hgives⟩ := Metadata.items_eq_singleton hitems
    cases hgives with
    | literal h => exact .inl ⟨_, rfl, h.kind_mem⟩
    | undecoded hkind => exact .inl ⟨_, rfl, hkind⟩
  next => exact .inr rfl

end Payload

/-- If every literal has a value, trees in parentheses are a list of entries exactly if they are
parameters, and no trees are parameters for two lists. Trees after `=` are a value exactly if they are a
single literal. All other trees are kept as text, and no error comes up. This holds whatever names of
characters there are. -/
theorem parameters_read_exactly (chars : Charset) (trees : List TokenTree) (h : TokenTree.Decoded chars trees) :
    (∀ es, (parens trees).payload chars = .ok (.metadata (.list es)) ↔ IsParams chars trees es) ∧
    (∀ es es', IsParams chars trees es → IsParams chars trees es' → es = es') ∧
    ((∀ es, ¬ IsParams chars trees es) →
      (parens trees).payload chars = .ok (.verbatim ("(" ++ TokenTree.renderAll trees ++ ")"))) ∧
    (∀ v, (equals trees).payload chars = .ok (.metadata (.keyValue v)) ↔
      ∃ t, trees = [.leaf t] ∧ IsLiteral chars t v) ∧
    ((∀ t, trees = [.leaf t] → t.kind ∉ literalKinds) →
      (equals trees).payload chars = .ok (.verbatim ("= " ++ TokenTree.renderAll trees))) := by
  refine ⟨fun es => payload_parens_eq_list_iff, fun es es' hes hes' => ?_,
    payload_parens_of_not_isParams h, fun v => ?_, fun hnone => ?_⟩
  · exact Except.ok.inj ((Metadata.entries_of_isParams hes).symm.trans (Metadata.entries_of_isParams hes'))
  · constructor
    · intro hv
      rcases payload_equals_cases trees with ⟨t, rfl, hkind⟩ | hverbatim
      · obtain ⟨v', hv'⟩ := h t (by simp [TokenTree.leavesAll, TokenTree.leaves]) hkind
        rw [payload_equals_of_isLiteral hv'] at hv
        cases hv
        exact ⟨t, rfl, hv'⟩
      · rw [hverbatim] at hv
        cases hv
    · rintro ⟨t, rfl, hv⟩
      exact payload_equals_of_isLiteral hv
  · rcases payload_equals_cases trees with ⟨t, rfl, hkind⟩ | hverbatim
    · exact absurd hkind (hnone t rfl)
    · exact hverbatim

/-- `tag("\N{LATIN SMALL LETTER X}",), k = true` is parameters, and a comma too many makes it text. -/
theorem parameters_read_exactly_nested :
    let chars : Charset := .plain fun name =>
      if name = "LATIN SMALL LETTER X".toList then some 'x' else .none
    let token (kind : Kind) (text : String) : TokenTree := .leaf ⟨kind, text, .start⟩
    let inner := [token .string "\"\\N\x7bLATIN SMALL LETTER X\x7d\"", token .comma ","]
    let trees := [token .name "tag", .group inner, token .comma ",", token .name "k", token .equals "=",
      token .trueWord "true"]
    let es : List Entry := [.list (.single ⟨"tag", by decide⟩) [.literal (.text "x")],
      .keyValue (.single ⟨"k", by decide⟩) (.flag true)]
    let twice := token .comma "," :: trees
    let text := "(, tag (\"\\N\x7bLATIN SMALL LETTER X\x7d\" ,) , k = true)"
    (TokenTree.Decoded chars trees ∧ IsParams chars trees es ∧
      (parens trees).payload chars = .ok (.metadata (.list es))) ∧
      TokenTree.Decoded chars twice ∧ (parens twice).payload chars = .ok (.verbatim text) ∧
      ∀ es, ¬ IsParams chars twice es := by
  intro chars token inner trees es twice text
  have htrees : TokenTree.Decoded chars trees := by decide +kernel
  have htwice : TokenTree.Decoded chars twice := by decide +kernel
  have hlist : (parens trees).payload chars = .ok (.metadata (.list es)) := rfl
  have hrefused : entries chars twice = .error .malformed := rfl
  have hwords : "(" ++ TokenTree.renderAll twice ++ ")" = text := by decide +kernel
  have htext : (parens twice).payload chars = .ok (.verbatim text) := by
    rw [payload, hrefused, ← hwords]
  have hes : IsParams chars trees es := ((parameters_read_exactly chars trees htrees).1 es).1 hlist
  have hnone : ∀ es, ¬ IsParams chars twice es := by
    intro es hes
    have hmetadata := ((parameters_read_exactly chars twice htwice).1 es).2 hes
    rw [htext] at hmetadata
    cases hmetadata
  exact ⟨⟨htrees, hes, hlist⟩, htwice, htext, hnone⟩

end Arguments

end DeriveKit
