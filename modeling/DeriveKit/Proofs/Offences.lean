import DeriveKit.Proofs.Parameters

/-!
# Offences of parameters

What can be wrong with trees that are to be parameters, and where. An offence is a parameter that is missing
before a comma, a parameter of no known form, or a literal without a value in a parameter of a known form.
Parameters of the form `path(..)` are looked into, parameters of no known form are not. Every offence stands
at a place, the number of tokens before it. `offends_comma` says what a comma does: the offences are those of
the parameter in front of it, and after them those of what follows.
-/
namespace DeriveKit

open DeriveKit.Token (Kind)

namespace TokenTree

mutual

/-- The number of tokens of a tree, parentheses included. -/
def width : TokenTree → Nat
  | leaf _ => 1
  | group trees => widthAll trees + 2

def widthAll : List TokenTree → Nat
  | [] => 0
  | tree :: trees => tree.width + widthAll trees

end

theorem widthAll_append (as bs : List TokenTree) : widthAll (as ++ bs) = widthAll as + widthAll bs := by
  induction as with
  | nil => simp [widthAll]
  | cons a as ih => simp [widthAll, ih, Nat.add_assoc]

theorem widthAll_leaves (ts : List Token) : widthAll (ts.map .leaf) = ts.length := by
  induction ts with
  | nil => rfl
  | cons t ts ih => simp [widthAll, width, ih, Nat.add_comm]

theorem width_pos (tree : TokenTree) : 0 < tree.width := by
  cases tree <;> simp [width]

theorem widthAll_pos {trees : List TokenTree} (h : trees ≠ []) : 0 < widthAll trees := by
  cases trees with
  | nil => exact absurd rfl h
  | cons tree trees => exact Nat.add_pos_left (width_pos tree) _

end TokenTree

namespace Grammar

open DeriveKit.TokenTree (widthAll)

/-! ## Literals and forms -/

/-- A token that is a literal, whether or not it has a value. Every number with a point that is read has one. -/
inductive IsLiteralToken (t : Token) : Prop
  | text (hkind : t.kind = .string)
  | int (hkind : t.kind = .int)
  | real {x : Binary64} (hkind : t.kind = .float) (h : Binary64.ofText? t.text = some x)
  | flag (hkind : t.kind = .trueWord ∨ t.kind = .falseWord)

/-- A literal without a value: a text with a bad escape or bad bytes, or an integer with too many digits. -/
inductive Undecodable (chars : Charset) (t : Token) (e : Literal.Error) : Prop
  | text (hkind : t.kind = .string) (h : Literal.decodeText chars t.text = .error e)
  | int (hkind : t.kind = .int) (h : Literal.decodeInt t.text = .error e)

/-- What a parameter is, apart from values and from what is inside parentheses. The length is that of the
path. -/
inductive Form where
  | literal (t : Token)
  | path
  | list (length : Nat) (inner : List TokenTree)
  | keyValue (length : Nat) (t : Token)

inductive IsForm : List TokenTree → Form → Prop
  | literal {t : Token} (h : IsLiteralToken t) : IsForm [.leaf t] (.literal t)
  | path {ts : List Token} {p : Path} (hp : IsPath ts p) : IsForm (ts.map .leaf) .path
  /-- `path "(" .. ")"` -/
  | list {ts : List Token} {p : Path} {inner : List TokenTree} (hp : IsPath ts p) :
      IsForm (ts.map .leaf ++ [.group inner]) (.list ts.length inner)
  /-- `path "=" literal` -/
  | keyValue {ts : List Token} {p : Path} {eq t : Token} (hp : IsPath ts p) (heq : eq.kind = .equals)
      (h : IsLiteralToken t) : IsForm (ts.map .leaf ++ [.leaf eq, .leaf t]) (.keyValue ts.length t)

/-! ## Offences and where they stand -/

inductive Offence where
  /-- A comma without a parameter before it. -/
  | missing
  /-- A parameter of no known form. -/
  | malformed
  /-- A literal without a value. -/
  | undecodable (e : Literal.Error)
deriving DecidableEq, Repr

/-- No comma outside parentheses. -/
def NoComma (trees : List TokenTree) : Prop := ∀ t, .leaf t ∈ trees → t.kind ≠ .comma

/-- `part` stands in `trees` between commas, or between a comma and an end. -/
structure Delimited (trees before part after : List TokenTree) : Prop where
  split : trees = before ++ (part ++ after)
  unbroken : NoComma part
  start : before = [] ∨ ∃ front comma, comma.kind = .comma ∧ before = front ++ [.leaf comma]
  stop : after = [] ∨ ∃ comma rest, comma.kind = .comma ∧ after = .leaf comma :: rest

mutual

/-- The offences of one parameter, each with the number of tokens before it. -/
inductive ParamOffends (chars : Charset) : List TokenTree → Nat → Offence → Prop
  | malformed {part : List TokenTree} (hne : part ≠ []) (h : ∀ f, ¬ IsForm part f) :
      ParamOffends chars part 0 .malformed
  | literal {part : List TokenTree} {t : Token} {e : Literal.Error} (hf : IsForm part (.literal t))
      (h : Undecodable chars t e) : ParamOffends chars part 0 (.undecodable e)
  | list {part inner : List TokenTree} {k n : Nat} {o : Offence} (hf : IsForm part (.list k inner))
      (h : Offends chars inner n o) : ParamOffends chars part (k + 1 + n) o
  | keyValue {part : List TokenTree} {k : Nat} {t : Token} {e : Literal.Error}
      (hf : IsForm part (.keyValue k t)) (h : Undecodable chars t e) : ParamOffends chars part (k + 1) (.undecodable e)

/-- The offences of parameters between commas, each with the number of tokens before it. -/
inductive Offends (chars : Charset) : List TokenTree → Nat → Offence → Prop
  | missing {trees before after : List TokenTree} (h : Delimited trees before [] after) (hne : after ≠ []) :
      Offends chars trees (widthAll before) .missing
  | param {trees before part after : List TokenTree} {n : Nat} {o : Offence}
      (h : Delimited trees before part after) (ho : ParamOffends chars part n o) :
      Offends chars trees (widthAll before + n) o

end

/-! ## Literals that are read -/

section Values

variable {chars : Charset}

theorem isLiteralToken_iff {t : Token} :
    IsLiteralToken t ↔ ∃ value, Metadata.literal? chars t = some value := by
  constructor
  · intro h
    cases h with
    | text hkind | int hkind => simp [Metadata.literal?, hkind]
    | real hkind h => simp [Metadata.literal?, hkind, h]
    | flag hkind => rcases hkind with hkind | hkind <;> simp [Metadata.literal?, hkind]
  · rintro ⟨value, h⟩
    unfold Metadata.literal? at h
    split at h
    next hkind => exact .text hkind
    next hkind => exact .int hkind
    next hkind =>
      obtain ⟨x, hx, -⟩ := Option.map_eq_some_iff.1 h
      exact .real hkind hx
    next hkind => exact .flag (.inl hkind)
    next hkind => exact .flag (.inr hkind)
    next => cases h

theorem undecodable_iff {t : Token} {e : Literal.Error} :
    Undecodable chars t e ↔ Metadata.literal? chars t = some (.error e) := by
  constructor
  · intro h
    cases h with
    | text hkind h | int hkind h =>
      simp only [Metadata.literal?, hkind, h]
      rfl
  · intro h
    unfold Metadata.literal? at h
    split at h
    next hkind =>
      cases htext : Literal.decodeText chars t.text with
      | ok s => rw [htext] at h; cases h
      | error e' => rw [htext] at h; cases h; exact .text hkind htext
    next hkind =>
      cases hint : Literal.decodeInt t.text with
      | ok n => rw [hint] at h; cases h
      | error e' => rw [hint] at h; cases h; exact .int hkind hint
    next hkind =>
      obtain ⟨x, -, hx⟩ := Option.map_eq_some_iff.1 h
      cases hx
    next => cases h
    next => cases h
    next => cases h

end Values

/-! ## Around a comma -/

section Commas

variable {chars : Charset} {trees front more before part after : List TokenTree} {comma : Token} {n : Nat}
  {o : Offence}

theorem Delimited.of_noComma (hno : NoComma trees) (h : Delimited trees before part after) :
    before = [] ∧ part = trees ∧ after = [] := by
  obtain ⟨rfl, -, hstart, hstop⟩ := h
  rcases hstart with rfl | ⟨front, comma, hcomma, rfl⟩
  · rcases hstop with rfl | ⟨comma, rest, hcomma, rfl⟩
    · simp
    · exact absurd hcomma (hno comma (by simp))
  · exact absurd hcomma (hno comma (by simp))

theorem delimited_self (h : NoComma trees) : Delimited trees [] trees [] :=
  ⟨by simp, h, .inl rfl, .inl rfl⟩

/-- In front of the first comma there is one parameter, and the others are parameters of what follows. -/
theorem Delimited.of_comma (hfront : NoComma front) (hcomma : comma.kind = .comma)
    (h : Delimited (front ++ .leaf comma :: more) before part after) :
    (before = [] ∧ part = front ∧ after = .leaf comma :: more) ∨
      ∃ before', before = front ++ .leaf comma :: before' ∧ Delimited more before' part after := by
  obtain ⟨hsplit, hpart, hstart, hstop⟩ := h
  rcases hstart with rfl | ⟨front', comma', hcomma', rfl⟩
  · left
    rw [List.nil_append, List.append_eq_append_iff] at hsplit
    rcases hsplit with ⟨as, rfl, has⟩ | ⟨bs, rfl, hbs⟩
    · cases as with
      | nil => exact ⟨rfl, by simp, has.symm⟩
      | cons x as =>
        cases has
        exact absurd hcomma (hpart comma (by simp))
    · cases bs with
      | nil => exact ⟨rfl, by simp, by simpa using hbs⟩
      | cons x bs =>
        rcases hstop with rfl | ⟨comma', rest, hcomma', rfl⟩
        · cases hbs
        · cases hbs
          exact absurd hcomma' (hfront comma' (by simp))
  · right
    rw [List.append_assoc, List.singleton_append, List.append_eq_append_iff] at hsplit
    rcases hsplit with ⟨as, rfl, has⟩ | ⟨bs, rfl, hbs⟩
    · cases as with
      | nil =>
        cases has
        exact ⟨[], by simp, rfl, hpart, .inl rfl, hstop⟩
      | cons x as =>
        cases has
        exact ⟨as ++ [.leaf comma'], by simp, by simp, hpart, .inr ⟨as, comma', hcomma', rfl⟩, hstop⟩
    · cases bs with
      | nil =>
        cases hbs
        exact ⟨[], by simp, rfl, hpart, .inl rfl, hstop⟩
      | cons x bs =>
        obtain ⟨rfl, -⟩ := List.cons.inj hbs
        exact absurd hcomma' (hfront comma' (by simp))

theorem delimited_first (hfront : NoComma front) (hcomma : comma.kind = .comma) :
    Delimited (front ++ .leaf comma :: more) [] front (.leaf comma :: more) :=
  ⟨rfl, hfront, .inl rfl, .inr ⟨comma, more, hcomma, rfl⟩⟩

theorem Delimited.later (hcomma : comma.kind = .comma) (h : Delimited more before part after) :
    Delimited (front ++ .leaf comma :: more) (front ++ .leaf comma :: before) part after where
  split := by simp [h.split]
  unbroken := h.unbroken
  start := by
    rcases h.start with rfl | ⟨front', comma', hcomma', rfl⟩
    · exact .inr ⟨front, comma, hcomma, rfl⟩
    · exact .inr ⟨front ++ .leaf comma :: front', comma', hcomma', by simp⟩
  stop := h.stop

theorem offends_of_noComma (h : NoComma trees) : Offends chars trees n o ↔ ParamOffends chars trees n o := by
  constructor
  · intro ho
    cases ho with
    | missing hd hne => exact absurd (hd.of_noComma h).2.2 hne
    | param hd ho =>
      obtain ⟨rfl, rfl, rfl⟩ := hd.of_noComma h
      simpa [widthAll] using ho
  · intro ho
    simpa [widthAll] using Offends.param (delimited_self h) ho

/-- The offences before the first comma: those of the parameter there, or that there is none. -/
def FirstOffends (chars : Charset) (front : List TokenTree) (n : Nat) (o : Offence) : Prop :=
  (front = [] ∧ n = 0 ∧ o = .missing) ∨ ParamOffends chars front n o

/-- The offences on the two sides of the first comma. -/
theorem offends_comma (hfront : NoComma front) (hcomma : comma.kind = .comma) :
    Offends chars (front ++ .leaf comma :: more) n o ↔
      FirstOffends chars front n o ∨ ∃ m, n = widthAll front + 1 + m ∧ Offends chars more m o := by
  have hwidth : ∀ before,
      widthAll (front ++ .leaf comma :: before) = widthAll front + 1 + widthAll before := by
    intro before
    simp [TokenTree.widthAll_append, widthAll, TokenTree.width, Nat.add_assoc]
  constructor
  · intro ho
    cases ho with
    | missing hd hne =>
      rcases hd.of_comma hfront hcomma with ⟨rfl, hnil, -⟩ | ⟨before', rfl, hd'⟩
      · exact .inl (.inl ⟨hnil.symm, rfl, rfl⟩)
      · exact .inr ⟨_, hwidth before', .missing hd' hne⟩
    | param hd ho =>
      rcases hd.of_comma hfront hcomma with ⟨rfl, rfl, -⟩ | ⟨before', rfl, hd'⟩
      · exact .inl (.inr (by simpa [widthAll] using ho))
      · exact .inr ⟨_, by rw [hwidth, Nat.add_assoc], .param hd' ho⟩
  · rintro ((⟨rfl, rfl, rfl⟩ | ho) | ⟨m, rfl, ho⟩)
    · exact .missing (delimited_first hfront hcomma) (List.cons_ne_nil _ _)
    · simpa [widthAll] using Offends.param (delimited_first hfront hcomma) ho
    · cases ho with
      | missing hd hne =>
        rw [← hwidth]
        exact .missing (hd.later hcomma) hne
      | param hd ho =>
        rw [← Nat.add_assoc, ← hwidth]
        exact .param (hd.later hcomma) ho

end Commas

/-! ## Forms and what they are made of -/

section Forms

open DeriveKit.Metadata (items items_append items_path pathItems takePath? takePath?_pathItems entry)

variable {chars : Charset} {part inner : List TokenTree} {f f' : Form} {t : Token} {k : Nat}

theorem isForm_literal_iff : IsForm part (.literal t) ↔ part = [.leaf t] ∧ IsLiteralToken t := by
  constructor
  · intro h
    cases h with
    | literal h => exact ⟨rfl, h⟩
  · rintro ⟨rfl, h⟩
    exact .literal h

theorem isForm_list_iff : IsForm part (.list k inner) ↔
    ∃ ts p, IsPath ts p ∧ k = ts.length ∧ part = ts.map .leaf ++ [.group inner] := by
  constructor
  · intro h
    cases h with
    | list hp => exact ⟨_, _, hp, rfl, rfl⟩
  · rintro ⟨ts, p, hp, rfl, rfl⟩
    exact .list hp

theorem isForm_keyValue_iff : IsForm part (.keyValue k t) ↔
    ∃ ts p eq, IsPath ts p ∧ eq.kind = .equals ∧ IsLiteralToken t ∧ k = ts.length ∧
      part = ts.map .leaf ++ [.leaf eq, .leaf t] := by
  constructor
  · intro h
    cases h with
    | keyValue hp heq h => exact ⟨_, _, _, hp, heq, h, rfl, rfl⟩
  · rintro ⟨ts, p, eq, hp, heq, h, rfl, rfl⟩
    exact .keyValue hp heq h

/-- How many trees are left behind the path; a literal does not begin with one. -/
def Form.left : Form → Option Nat
  | literal _ => none
  | path => some 0
  | list _ _ => some 1
  | keyValue _ _ => some 2

theorem left_of_isForm (chars : Charset) (h : IsForm part f) :
    (takePath? (items chars part)).map (·.2.length) = f.left := by
  cases h with
  | literal h =>
    obtain ⟨value, hvalue⟩ : ∃ value, Metadata.literal? chars _ = some value := isLiteralToken_iff.1 h
    simp [items, Metadata.item, Metadata.leafItem, hvalue, takePath?, Form.left]
  | path hp =>
    rw [items_path hp, ← List.append_nil (pathItems _), takePath?_pathItems _ [] (by simp)]
    rfl
  | list hp =>
    rw [items_append, items_path hp, takePath?_pathItems _ _ (by simp [items, Metadata.item])]
    rfl
  | keyValue hp heq h =>
    rw [items_append, items_path hp,
      takePath?_pathItems _ _ (by simp [items, Metadata.item, Metadata.leafItem_equals heq])]
    rfl

/-- A parameter has one form. -/
theorem IsForm.unique (h : IsForm part f) (h' : IsForm part f') : f = f' := by
  -- The forms are told apart by what they are made of, whatever the literals stand for.
  let chars : Charset := .plain fun _ => none
  have hleft := (left_of_isForm chars h).symm.trans (left_of_isForm chars h')
  cases f with
  | literal t =>
    cases f' with
    | path | list | keyValue => simp [Form.left] at hleft
    | literal t' =>
      obtain ⟨rfl, -⟩ := isForm_literal_iff.1 h
      obtain ⟨heq, -⟩ := isForm_literal_iff.1 h'
      cases heq
      rfl
  | path =>
    cases f' with
    | literal | list | keyValue => simp [Form.left] at hleft
    | path => rfl
  | list k inner =>
    cases f' with
    | literal | path | keyValue => simp [Form.left] at hleft
    | list k' inner' =>
      obtain ⟨ts, p, -, rfl, rfl⟩ := isForm_list_iff.1 h
      obtain ⟨ts', p', -, rfl, heq⟩ := isForm_list_iff.1 h'
      obtain ⟨hts, hinner⟩ := List.append_inj' heq rfl
      cases hinner
      have hlength : ts.length = ts'.length := by simpa using congrArg List.length hts
      rw [hlength]
  | keyValue k t =>
    cases f' with
    | literal | path | list => simp [Form.left] at hleft
    | keyValue k' t' =>
      obtain ⟨ts, p, eq, -, -, -, rfl, rfl⟩ := isForm_keyValue_iff.1 h
      obtain ⟨ts', p', eq', -, -, -, rfl, heq⟩ := isForm_keyValue_iff.1 h'
      obtain ⟨hts, hvalue⟩ := List.append_inj' heq rfl
      cases hvalue
      have hlength : ts.length = ts'.length := by simpa using congrArg List.length hts
      rw [hlength]

/-- The offences of a parameter of a known form. -/
def Form.Offends (chars : Charset) : Form → Nat → Offence → Prop
  | literal t, n, o => n = 0 ∧ ∃ e, Undecodable chars t e ∧ o = .undecodable e
  | path, _, _ => False
  | list k inner, n, o => ∃ m, n = k + 1 + m ∧ Grammar.Offends chars inner m o
  | keyValue k t, n, o => n = k + 1 ∧ ∃ e, Undecodable chars t e ∧ o = .undecodable e

theorem paramOffends_iff (hf : IsForm part f) {n : Nat} {o : Offence} :
    ParamOffends chars part n o ↔ f.Offends chars n o := by
  constructor
  · intro ho
    cases ho with
    | malformed _ hnone => exact absurd hf (hnone f)
    | literal hf' h | keyValue hf' h =>
      cases hf.unique hf'
      exact ⟨rfl, _, h, rfl⟩
    | list hf' h =>
      cases hf.unique hf'
      exact ⟨_, rfl, h⟩
  · intro ho
    cases f with
    | path => exact ho.elim
    | literal t =>
      obtain ⟨rfl, e, h, rfl⟩ := ho
      exact .literal hf h
    | list k inner =>
      obtain ⟨m, rfl, h⟩ := ho
      exact .list hf h
    | keyValue k t =>
      obtain ⟨rfl, e, h, rfl⟩ := ho
      exact .keyValue hf h

theorem paramOffends_of_no_form (hne : part ≠ []) (hnone : ∀ f, ¬ IsForm part f) {n : Nat} {o : Offence} :
    ParamOffends chars part n o ↔ n = 0 ∧ o = .malformed := by
  constructor
  · intro ho
    cases ho with
    | malformed => exact ⟨rfl, rfl⟩
    | literal hf | list hf | keyValue hf => exact absurd hf (hnone _)
  · rintro ⟨rfl, rfl⟩
    exact .malformed hne hnone

end Forms

/-! ## Offences stand inside -/

theorem width_inner_lt {part inner : List TokenTree} {k : Nat} (h : IsForm part (.list k inner)) :
    k + 1 + widthAll inner < widthAll part := by
  obtain ⟨ts, p, -, rfl, rfl⟩ := isForm_list_iff.1 h
  simp only [TokenTree.widthAll_append, TokenTree.widthAll_leaves, widthAll, TokenTree.width]
  omega

mutual

theorem lt_width_of_paramOffends {chars : Charset} {part : List TokenTree} {n : Nat} {o : Offence} :
    ParamOffends chars part n o → n < widthAll part
  | .malformed hne _ => TokenTree.widthAll_pos hne
  | .literal hf _ => by
    obtain ⟨rfl, -⟩ := isForm_literal_iff.1 hf
    exact Nat.zero_lt_one
  | .list hf h => by
    have hinner := lt_width_of_offends h
    have hpart := width_inner_lt hf
    omega
  | .keyValue hf _ => by
    obtain ⟨ts, p, eq, -, -, -, rfl, rfl⟩ := isForm_keyValue_iff.1 hf
    simp [TokenTree.widthAll_append, TokenTree.widthAll_leaves, widthAll, TokenTree.width]

theorem lt_width_of_offends {chars : Charset} {trees : List TokenTree} {n : Nat} {o : Offence} :
    Offends chars trees n o → n < widthAll trees
  | .missing h hne => by
    have hafter := TokenTree.widthAll_pos hne
    rw [h.split, TokenTree.widthAll_append, TokenTree.widthAll_append]
    omega
  | .param h ho => by
    have hpart := lt_width_of_paramOffends ho
    rw [h.split, TokenTree.widthAll_append, TokenTree.widthAll_append]
    omega

end

end Grammar

end DeriveKit
