import DeriveKit.Proofs.TypeReading

/-!
# Reading token trees and attributes

The reader of token trees keeps the groups that are still open. Each state accounts for the tokens so
far (`Accounted`), and the tokens of trees add those trees to the innermost open group
(`feedAll_trees`). An attribute is then read as its path and its arguments, at the place of its first
token.
-/
namespace DeriveKit

open DeriveKit.Token (Kind)
open DeriveKit.Grammar

namespace Grammar

variable {α β : Type} {L : Phrase α}

theorem Star.single {ts : List Token} {a : α} (h : L ts a) : Star L ts [a] := by
  simpa using Star.cons h .nil

theorem Star.append {ts us : List Token} {as bs : List α} (h : Star L ts as) (h' : Star L us bs) :
    Star L (ts ++ us) (as ++ bs) := by
  induction h with
  | nil => exact h'
  | cons h _ ih => simpa using Star.cons h ih

/-- A repetition of what is passed through `f` is a repetition whose values are passed through it. -/
theorem star_map_iff {f : α → β} {ts : List Token} {bs : List β} :
    Star (Phrase.map f L) ts bs ↔ Phrase.map (List.map f) (Star L) ts bs := by
  constructor
  · intro h
    induction h with
    | nil => exact ⟨[], .nil, rfl⟩
    | cons h _ ih =>
      obtain ⟨a, ha, rfl⟩ := h
      obtain ⟨as, has, rfl⟩ := ih
      exact ⟨a :: as, .cons ha has, rfl⟩
  · rintro ⟨as, has, rfl⟩
    induction has with
    | nil => exact .nil
    | cons h _ ih => exact .cons ⟨_, h, rfl⟩ ih

theorem commaList_map_iff {f : α → β} {ts : List Token} {bs : List β} :
    CommaList (Phrase.map f L) ts bs ↔ Phrase.map (List.map f) (CommaList L) ts bs := by
  constructor
  · intro h
    induction h with
    | nil => exact ⟨[], .nil, rfl⟩
    | last h =>
      obtain ⟨a, ha, rfl⟩ := h
      exact ⟨[a], .last ha, rfl⟩
    | cons h hcomma _ ih =>
      obtain ⟨a, ha, rfl⟩ := h
      obtain ⟨as, has, rfl⟩ := ih
      exact ⟨a :: as, .cons ha hcomma has, rfl⟩
  · rintro ⟨as, has, rfl⟩
    induction has with
    | nil => exact .nil
    | last h => exact .last ⟨_, h, rfl⟩
    | cons h hcomma _ ih => exact .cons ⟨_, h, rfl⟩ hcomma ih

end Grammar

/-! ## Values that may be missing -/

section Except

variable {ε α β : Type} {x : Except ε α}

theorem ok_of_bind {f : α → Except ε β} {b : β} (h : x >>= f = .ok b) :
    ∃ a, x = .ok a ∧ f a = .ok b := by
  cases x with
  | error e => cases h
  | ok a => exact ⟨a, rfl, h⟩

theorem ok_of_map {f : α → β} {b : β} (h : x.map f = .ok b) : ∃ a, x = .ok a ∧ f a = b := by
  cases x with
  | error e => cases h
  | ok a => exact ⟨a, rfl, Except.ok.inj h⟩

theorem ok_of_mapError {ε' : Type} {f : ε → ε'} {a : α} (h : x.mapError f = .ok a) : x = .ok a := by
  cases x with
  | error e => cases h
  | ok b => exact congrArg _ (Except.ok.inj h)

/-- A test that a value passes shows that there is one. -/
theorem ok_of_any {test : α → Bool} (h : x.toOption.any test = true) : ∃ a, x = .ok a ∧ test a = true := by
  cases x with
  | error e => cases h
  | ok a => exact ⟨a, rfl, h⟩

end Except

/-! ## Token trees -/

namespace TokenTree

open DeriveKit.Reader

theorem isLeafKind_iff (k : Kind) : isLeafKind k = true ↔ k ∈ leafKinds := by
  cases k <;> decide

section Push

variable {inner : List TokenTree} {outer : List (List TokenTree)} {t : Token}

theorem push_leaf (h : t.kind ∈ leafKinds) :
    Open.push ⟨inner, outer⟩ t = some ⟨inner ++ [.leaf t], outer⟩ := by
  have hleft : t.kind ≠ .leftParen := fun ht => by simp [ht, leafKinds] at h
  have hright : t.kind ≠ .rightParen := fun ht => by simp [ht, leafKinds] at h
  simp [Open.push, hleft, hright, (isLeafKind_iff _).2 h]

theorem push_left (h : t.kind = .leftParen) :
    Open.push ⟨inner, outer⟩ t = some ⟨[], inner :: outer⟩ := by
  simp [Open.push, h]

theorem push_right {around : List TokenTree} (h : t.kind = .rightParen) :
    Open.push ⟨inner, around :: outer⟩ t = some ⟨around ++ [.group inner], outer⟩ := by
  simp [Open.push, h]

/-- What a token can do: be a leaf, open a group or close one. -/
theorem push_cases {s : Open} (h : Open.push ⟨inner, outer⟩ t = some s) :
    (t.kind ∈ leafKinds ∧ s = ⟨inner ++ [.leaf t], outer⟩) ∨
    (t.kind = .leftParen ∧ s = ⟨[], inner :: outer⟩) ∨
    ∃ around outer', outer = around :: outer' ∧ t.kind = .rightParen ∧
      s = ⟨around ++ [.group inner], outer'⟩ := by
  by_cases hleft : t.kind = .leftParen
  · rw [push_left hleft] at h
    exact .inr (.inl ⟨hleft, (Option.some.inj h).symm⟩)
  by_cases hright : t.kind = .rightParen
  · cases outer with
    | nil => simp [Open.push, hright] at h
    | cons around outer =>
      rw [push_right hright] at h
      exact .inr (.inr ⟨around, outer, rfl, hright, (Option.some.inj h).symm⟩)
  by_cases hleaf : t.kind ∈ leafKinds
  · rw [push_leaf hleaf] at h
    exact .inl ⟨hleaf, (Option.some.inj h).symm⟩
  · have : isLeafKind t.kind = false := by
      rw [Bool.eq_false_iff, Ne, isLeafKind_iff]
      exact hleaf
    simp [Open.push, hleft, hright, this] at h

end Push

mutual

theorem feedAll_tree {ts : List Token} {tree : TokenTree} :
    IsTree ts tree → ∀ (inner : List TokenTree) (outer : List (List TokenTree)),
      many.feedAll ⟨inner, outer⟩ ts = some ⟨inner ++ [tree], outer⟩
  | .leaf h, inner, outer => by
    simp [feedAll, push_leaf h]
  | .group hleft h hright, inner, outer => by
    have htrees := feedAll_trees h [] (inner :: outer)
    simp only [feedAll, push_left hleft, Option.bind_some, feedAll_append, htrees, List.nil_append,
      push_right hright]

/-- The tokens of trees add them to the innermost open group. -/
theorem feedAll_trees {ts : List Token} {trees : List TokenTree} :
    Star IsTree ts trees → ∀ (inner : List TokenTree) (outer : List (List TokenTree)),
      many.feedAll ⟨inner, outer⟩ ts = some ⟨inner ++ trees, outer⟩
  | .nil, inner, outer => by simp [feedAll]
  | .cons h hs, inner, outer => by
    rw [feedAll_append, feedAll_tree h inner outer, Option.bind_some, feedAll_trees hs]
    simp

end

/-- The tokens with which groups that are still open have begun. -/
inductive Groups : Phrase (List (List TokenTree))
  | nil : Groups [] []
  | cons {ts us : List Token} {left : Token} {around : List TokenTree} {outer : List (List TokenTree)}
      (h : Groups ts outer) (haround : Star IsTree us around) (hleft : left.kind = .leftParen) :
      Groups (ts ++ (us ++ [left])) (around :: outer)

/-- The tokens so far are what the state holds of them. -/
def Accounted (ts : List Token) (s : Open) : Prop :=
  ∃ us vs, ts = us ++ vs ∧ Groups us s.outer ∧ Star IsTree vs s.inner

theorem accounted_push {ts : List Token} {t : Token} {s s' : Open} (h : Accounted ts s)
    (ht : s.push t = some s') : Accounted (ts ++ [t]) s' := by
  obtain ⟨inner, outer⟩ := s
  obtain ⟨us, vs, rfl, houter, hinner⟩ := h
  rcases push_cases ht with ⟨hleaf, rfl⟩ | ⟨hleft, rfl⟩ | ⟨around, outer', rfl, hright, rfl⟩
  · exact ⟨us, vs ++ [t], by simp, houter, hinner.append (.single (.leaf hleaf))⟩
  · exact ⟨us ++ (vs ++ [t]), [], by simp, .cons houter hinner hleft, .nil⟩
  · cases houter with
    | cons houter haround hleft =>
      exact ⟨_, _, by simp, houter, haround.append (.single (.group hleft hinner hright))⟩

theorem accounted_of_feedAll {ts : List Token} {s : Open} (h : many.feedAll many.start ts = some s) :
    Accounted ts s :=
  feedAll_invariant (r := many) (P := Accounted) ⟨[], [], rfl, .nil, .nil⟩
    (fun _ _ _ _ hs ht => accounted_push hs ht) h

/-- Whatever groups are open can be closed. -/
theorem exists_feedAll_closed (inner : List TokenTree) (outer : List (List TokenTree)) :
    ∃ ts trees, many.feedAll ⟨inner, outer⟩ ts = some ⟨trees, []⟩ := by
  induction outer generalizing inner with
  | nil => exact ⟨[], inner, rfl⟩
  | cons around outer ih =>
    obtain ⟨ts, trees, h⟩ := ih (around ++ [.group inner])
    exact ⟨⟨.rightParen, ")", .start⟩ :: ts, trees, h⟩

/-- The kinds of tokens with which a tree begins. -/
def firstKinds : List Kind := .leftParen :: leafKinds

theorem kind_mem_firstKinds {inner : List TokenTree} {t : Token} {s : Open}
    (h : Open.push ⟨inner, []⟩ t = some s) : t.kind ∈ firstKinds := by
  rcases push_cases h with ⟨hleaf, -⟩ | ⟨hleft, -⟩ | ⟨_, _, houter, -⟩
  · exact List.mem_cons_of_mem _ hleaf
  · simp [hleft, firstKinds]
  · cases houter

theorem exact_many : many.Exact (Star IsTree) ⟨true, firstKinds, firstKinds⟩ where
  reads ts trees := by
    constructor
    · intro h
      obtain ⟨⟨inner, outer⟩, hs, hfinish⟩ := Option.bind_eq_some_iff.1 h
      cases outer with
      | cons => cases hfinish
      | nil =>
        cases hfinish
        obtain ⟨us, vs, rfl, houter, hinner⟩ := accounted_of_feedAll hs
        cases houter
        exact hinner
    · intro h
      rw [read?, feedAll_trees h [] []]
      rfl
  empty _ _ := rfl
  first t s h := kind_mem_firstKinds h
  next s trees t s' hs ht := by
    obtain ⟨inner, outer⟩ := s
    cases outer with
    | cons => cases hs
    | nil => exact kind_mem_firstKinds ht
  live s := by
    obtain ⟨ts, trees, h⟩ := exists_feedAll_closed s.inner s.outer
    exact ⟨ts, trees, by rw [readFrom, h]; rfl⟩

theorem exact_oneOrMore :
    oneOrMore.Exact (fun ts trees => Star IsTree ts trees ∧ trees ≠ []) ⟨false, firstKinds, firstKinds⟩ := by
  have hnil : ∀ tree, ¬ IsTree [] tree := by
    intro tree h
    cases h
  have h := exact_many.filterMap (fun trees => if trees.isEmpty then none else some trees) false ?_ ?_
  · refine h.congr (.refl _) fun ts trees => ?_
    constructor
    · rintro ⟨trees', h, hne⟩
      cases trees' with
      | nil => cases hne
      | cons tree trees' =>
        cases hne
        exact ⟨h, by simp⟩
    · rintro ⟨h, hne⟩
      exact ⟨trees, h, by simp [hne]⟩
  · intro trees trees' h hne
    rw [(star_nil_iff hnil).1 h] at hne
    cases hne
  · -- One more leaf makes sure that there is a tree.
    intro s
    obtain ⟨ts, trees, h⟩ := exists_feedAll_closed s.inner s.outer
    refine ⟨ts ++ [⟨.comma, ",", .start⟩], trees ++ [.leaf ⟨.comma, ",", .start⟩], _, ?_, by simp; rfl⟩
    rw [readFrom_append, h]
    rfl

end TokenTree

/-! ## Attributes -/

namespace Reader

theorem exact_arguments : arguments.Exact IsArguments
    ⟨true, [.leftParen, .equals], .leftParen :: .equals :: TokenTree.firstKinds⟩ := by
  have hparens := TokenTree.exact_many.enclosed .leftParen .rightParen (by decide)
  have hequals := (exact_kind .equals).skipThen TokenTree.exact_oneOrMore (by decide)
  have h := (((hparens.map Arguments.parens).orElse (hequals.map Arguments.equals) rfl rfl
    (by decide)).optional rfl).map (·.getD Arguments.none)
  refine h.congr (by decide) fun ts arguments => ?_
  constructor
  · rintro ⟨o, ⟨rfl, rfl⟩ | ⟨a, ha, rfl⟩, rfl⟩
    · exact .none
    rcases ha with ⟨trees, ⟨left, us, right, rfl, hleft, htrees, hright⟩, rfl⟩ |
      ⟨trees, ⟨_, us, rfl, ⟨_, eq, rfl, heq⟩, htrees, hne⟩, rfl⟩
    · exact .parens hleft htrees hright
    · exact .equals heq htrees hne
  · intro h
    cases h with
    | none => exact ⟨none, .inl ⟨rfl, rfl⟩, rfl⟩
    | @parens us left right trees hleft htrees hright =>
      exact ⟨_, .inr ⟨_, .inl ⟨trees, ⟨left, us, right, rfl, hleft, htrees, hright⟩, rfl⟩, rfl⟩, rfl⟩
    | @equals us eq trees heq htrees hne =>
      exact ⟨_, .inr ⟨_, .inr ⟨trees, ⟨[eq], us, rfl, ⟨(), eq, rfl, heq⟩, htrees, hne⟩, rfl⟩, rfl⟩, rfl⟩

/-- What the reader of attributes gives, as a tree. -/
def attributeTree (read : (Path × Arguments) × Option Position) : AttributeTree :=
  ⟨read.1.1, read.1.2, read.2⟩

theorem exact_attrTrees :
    attrTrees.Exact (fun ts read => IsAttribute ts (attributeTree read)) ⟨false, [.hash], []⟩ := by
  have hinner := (exact_path.andThen exact_arguments (by decide)).thenSkip (exact_kind .rightBracket)
    (by decide)
  have h := ((exact_kind .hash).skipThen ((exact_kind .leftBracket).skipThen hinner (by decide))
    (by decide)).located
  refine h.congr (by decide) fun ts read => ?_
  obtain ⟨⟨p, arguments⟩, loc⟩ := read
  constructor
  · rintro ⟨⟨_, _, rfl, ⟨_, hash, rfl, hhash⟩, _, _, rfl, ⟨_, left, rfl, hleft⟩,
      _, _, rfl, ⟨ps, as, rfl, hp, hargs⟩, _, right, rfl, hright⟩, rfl⟩
    exact .mk hhash hleft hp hargs hright
  · rintro ⟨hhash, hleft, hp, hargs, hright⟩
    exact ⟨⟨[_], _, rfl, ⟨(), _, rfl, hhash⟩, [_], _, rfl, ⟨(), _, rfl, hleft⟩,
      _, [_], rfl, ⟨_, _, rfl, hp, hargs⟩, (), _, rfl, hright⟩, rfl⟩

theorem exact_attr (chars : Charset) :
    (attr chars).Exact (Phrase.map (AttributeTree.value chars) IsAttribute) ⟨false, [.hash], []⟩ := by
  refine (exact_attrTrees.map _).congr (.refl _) fun ts value => ?_
  constructor
  · rintro ⟨read, h, rfl⟩
    exact ⟨_, h, rfl⟩
  · rintro ⟨⟨p, arguments, loc⟩, h, rfl⟩
    exact ⟨((p, arguments), loc), h, rfl⟩

theorem exact_attrs (chars : Charset) :
    (attrs chars).Exact
      (Phrase.map (fun trees => collect (trees.map (AttributeTree.value chars))) (Star IsAttribute))
      ⟨true, [.hash], [.hash]⟩ := by
  refine (((exact_attr chars).many rfl (by decide)).map collect).congr (by decide) fun ts value => ?_
  constructor
  · rintro ⟨values, h, rfl⟩
    obtain ⟨trees, htrees, rfl⟩ := star_map_iff.1 h
    exact ⟨trees, htrees, rfl⟩
  · rintro ⟨trees, htrees, rfl⟩
    exact ⟨_, star_map_iff.2 ⟨trees, htrees, rfl⟩, rfl⟩

end Reader

end DeriveKit
