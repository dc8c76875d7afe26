import DeriveKit.Proofs.RealText
import DeriveKit.Proofs.VerbatimRoundTrip
import Mathlib.Data.List.Forall2

/-!
# Metadata that was read

The literals of metadata that was read are the values of the literal tokens of its text, one by one and in
order. The tokens are words of the text, so the literals are such as words can write, and the paths are plain
(`ReadFrom`).
-/
namespace DeriveKit

open DeriveKit.Grammar
open DeriveKit.Lexed (Lexeme)
open DeriveKit.Token (Kind)

variable {chars : Charset}

/-! ## Literals and paths -/

namespace Entry

mutual

/-- The literals of an entry at any depth, in order. -/
def literals : Entry → List Literal
  | path _ => []
  | list _ entries => literalsAll entries
  | literal value => [value]
  | keyValue _ value => [value]

def literalsAll : List Entry → List Literal
  | [] => []
  | e :: es => e.literals ++ literalsAll es

end

mutual

/-- The paths of an entry at any depth, in order. -/
def paths : Entry → List Path
  | path p => [p]
  | list p entries => p :: pathsAll entries
  | literal _ => []
  | keyValue p _ => [p]

def pathsAll : List Entry → List Path
  | [] => []
  | e :: es => e.paths ++ pathsAll es

end

mutual

theorem isWritable_of_literals :
    ∀ {e : Entry}, (∀ v ∈ e.literals, v.isWritable = true) → e.isWritable = true
  | path _, _ => rfl
  | list _ _, h => areWritable_of_literals h
  | literal value, h => h value List.mem_cons_self
  | keyValue _ value, h => h value List.mem_cons_self

/-- Entries can be written if their literals can. -/
theorem areWritable_of_literals :
    ∀ {es : List Entry}, (∀ v ∈ literalsAll es, v.isWritable = true) → areWritable es = true
  | [], _ => rfl
  | e :: es, h => by
    obtain ⟨he, hes⟩ := List.forall_mem_append.1 h
    rw [areWritable, isWritable_of_literals he, areWritable_of_literals hes]
    rfl

end

end Entry

namespace Meta

def literals : Meta → List Literal
  | marker => []
  | list es => Entry.literalsAll es
  | keyValue v => [v]

def paths : Meta → List Path
  | list es => Entry.pathsAll es
  | _ => []

theorem isWritable_of_literals {m : Meta} (h : ∀ v ∈ m.literals, v.isWritable = true) :
    m.isWritable = true := by
  cases m with
  | marker => rfl
  | list es => exact Entry.areWritable_of_literals h
  | keyValue v => exact h v List.mem_cons_self

end Meta

/-! ## The tokens of literals -/

/-- The tokens of literals. -/
def literalTokens (ts : List Token) : List Token := ts.filter (·.kind ∈ literalKinds)

@[simp]
theorem literalTokens_append (ts us : List Token) :
    literalTokens (ts ++ us) = literalTokens ts ++ literalTokens us := List.filter_append ..

theorem literalTokens_cons_of_mem {t : Token} (h : t.kind ∈ literalKinds) (ts : List Token) :
    literalTokens (t :: ts) = t :: literalTokens ts := List.filter_cons_of_pos (by simpa using h)

theorem literalTokens_cons_of_not_mem {t : Token} (h : t.kind ∉ literalKinds) (ts : List Token) :
    literalTokens (t :: ts) = literalTokens ts := List.filter_cons_of_neg (by simpa using h)

theorem literalTokens_enclosed {left right : Token} (hleft : left.kind ∉ literalKinds)
    (hright : right.kind ∉ literalKinds) (ts : List Token) :
    literalTokens (left :: (ts ++ [right])) = literalTokens ts := by
  rw [literalTokens_cons_of_not_mem hleft, literalTokens_append, literalTokens_cons_of_not_mem hright]
  exact List.append_nil _

theorem literalTokens_path {ts : List Token} {p : Path} (h : IsPath ts p) : literalTokens ts = [] := by
  refine List.filter_eq_nil_iff.2 fun t ht => ?_
  rcases Metadata.kind_of_path h t ht with hkind | hkind <;> simp [hkind, literalKinds]

namespace TokenTree

@[simp]
theorem leavesAll_append (trees more : List TokenTree) :
    leavesAll (trees ++ more) = leavesAll trees ++ leavesAll more := by
  induction trees with
  | nil => rfl
  | cons tree trees ih => rw [List.cons_append, leavesAll, leavesAll, ih, List.append_assoc]

@[simp]
theorem leavesAll_map_leaf (ts : List Token) : leavesAll (ts.map .leaf) = ts := by
  induction ts with
  | nil => rfl
  | cons t ts ih => rw [List.map_cons, leavesAll, leaves, ih]; rfl

theorem leavesAll_path_group (ts : List Token) (trees : List TokenTree) :
    leavesAll (ts.map .leaf ++ [.group trees]) = ts ++ leavesAll trees := by
  simp [leavesAll, leaves]

theorem leavesAll_path_value (ts : List Token) (eq t : Token) :
    leavesAll (ts.map .leaf ++ [.leaf eq, .leaf t]) = ts ++ [eq, t] := by
  simp [leavesAll, leaves]

mutual

theorem literalTokens_of_isTree {ts : List Token} {tree : TokenTree} :
    IsTree ts tree → literalTokens ts = literalTokens tree.leaves
  | .leaf _ => rfl
  | .group hleft h hright => by
    rw [literalTokens_enclosed (by simp [hleft, literalKinds]) (by simp [hright, literalKinds]),
      literalTokens_of_star h, leaves]

/-- The literals among the tokens of trees are those among their leaves. -/
theorem literalTokens_of_star {ts : List Token} {trees : List TokenTree} :
    Star IsTree ts trees → literalTokens ts = literalTokens (leavesAll trees)
  | .nil => rfl
  | .cons h hs => by
    rw [literalTokens_append, literalTokens_of_isTree h, literalTokens_of_star hs, leavesAll,
      literalTokens_append]

end

end TokenTree

mutual

theorem literals_of_isParam {trees : List TokenTree} {e : Entry} :
    IsParam chars trees e → List.Forall₂ (IsLiteral chars) (literalTokens (TokenTree.leavesAll trees)) e.literals
  | .literal h => by
    simp only [TokenTree.leavesAll, TokenTree.leaves, List.append_nil, literalTokens_cons_of_mem h.kind_mem]
    exact .cons h .nil
  | .path hp => by
    rw [TokenTree.leavesAll_map_leaf, literalTokens_path hp]
    exact .nil
  | .list hp h => by
    rw [TokenTree.leavesAll_path_group, literalTokens_append, literalTokens_path hp, List.nil_append]
    exact literals_of_isParams h
  | .keyValue hp heq h => by
    rw [TokenTree.leavesAll_path_value, literalTokens_append, literalTokens_path hp, List.nil_append,
      literalTokens_cons_of_not_mem (by simp [heq, literalKinds]), literalTokens_cons_of_mem h.kind_mem]
    exact .cons h .nil

/-- The literals of parameters are those among their leaves, in order. -/
theorem literals_of_isParams {trees : List TokenTree} {es : List Entry} :
    IsParams chars trees es →
      List.Forall₂ (IsLiteral chars) (literalTokens (TokenTree.leavesAll trees)) (Entry.literalsAll es)
  | .nil => .nil
  | .last h => by
    rw [Entry.literalsAll, Entry.literalsAll, List.append_nil]
    exact literals_of_isParam h
  | .cons h hcomma hs => by
    rw [TokenTree.leavesAll_append, TokenTree.leavesAll, TokenTree.leaves, List.singleton_append,
      literalTokens_append, literalTokens_cons_of_not_mem (by simp [hcomma, literalKinds]), Entry.literalsAll]
    exact List.rel_append (literals_of_isParam h) (literals_of_isParams hs)

end

mutual

theorem plain_of_isParam {trees : List TokenTree} {e : Entry} :
    IsParam chars trees e → (∀ t ∈ TokenTree.leavesAll trees, Lexeme (some t.kind) t.text.toList) →
      ∀ p ∈ e.paths, p.isPlain = true
  | .literal _, _ => fun p hmem => absurd hmem List.not_mem_nil
  | .path hp, hwords => by
    rw [TokenTree.leavesAll_map_leaf] at hwords
    exact List.forall_mem_singleton.2 (Path.isPlain_of_isPath hp hwords)
  | .list hp h, hwords => by
    rw [TokenTree.leavesAll_path_group, List.forall_mem_append] at hwords
    exact List.forall_mem_cons.2 ⟨Path.isPlain_of_isPath hp hwords.1, plain_of_isParams h hwords.2⟩
  | .keyValue hp _ _, hwords => by
    rw [TokenTree.leavesAll_path_value, List.forall_mem_append] at hwords
    exact List.forall_mem_singleton.2 (Path.isPlain_of_isPath hp hwords.1)

/-- The paths of parameters that were read are plain. -/
theorem plain_of_isParams {trees : List TokenTree} {es : List Entry} :
    IsParams chars trees es → (∀ t ∈ TokenTree.leavesAll trees, Lexeme (some t.kind) t.text.toList) →
      ∀ p ∈ Entry.pathsAll es, p.isPlain = true
  | .nil, _ => fun p hmem => absurd hmem List.not_mem_nil
  | .last h, hwords => by
    rw [Entry.pathsAll, Entry.pathsAll, List.append_nil]
    exact plain_of_isParam h hwords
  | .cons h _ hs, hwords => by
    rw [TokenTree.leavesAll_append, TokenTree.leavesAll, List.forall_mem_append,
      List.forall_mem_append] at hwords
    exact List.forall_mem_append.2 ⟨plain_of_isParam h hwords.1, plain_of_isParams hs hwords.2.2⟩

end

/-- Arguments that are metadata. -/
inductive Grammar.IsMeta (chars : Charset) : Arguments → Meta → Prop
  | marker : IsMeta chars .none .marker
  | list {trees : List TokenTree} {es : List Entry} (h : IsParams chars trees es) :
      IsMeta chars (.parens trees) (.list es)
  | keyValue {t : Token} {v : Literal} (h : IsLiteral chars t v) : IsMeta chars (.equals [.leaf t]) (.keyValue v)

namespace Arguments

/-- The tokens of the trees at any depth, parentheses apart. -/
def leaves : Arguments → List Token
  | none => []
  | parens trees | equals trees => TokenTree.leavesAll trees

theorem isMeta_of_payload {arguments : Arguments} {m : Meta}
    (h : arguments.payload chars = .ok (.metadata m)) : IsMeta chars arguments m := by
  cases arguments with
  | none =>
    cases h
    exact .marker
  | parens trees =>
    cases m with
    | list es => exact .list (payload_parens_eq_list_iff.1 h)
    | _ =>
      rw [payload] at h
      split at h <;> cases h
  | equals trees =>
    rw [payload] at h
    split at h
    next value hitems =>
      obtain ⟨v, rfl, hv⟩ := ok_of_map h
      cases hv
      obtain ⟨tree, rfl, hgives⟩ := Metadata.items_eq_singleton hitems
      cases hgives with
      | literal h => exact .keyValue h
    next => cases h

variable {ts : List Token} {arguments : Arguments} {m : Meta}

theorem literalTokens_of_isArguments (h : IsArguments ts arguments) :
    literalTokens ts = literalTokens arguments.leaves := by
  cases h with
  | none => rfl
  | parens hleft h hright =>
    rw [literalTokens_enclosed (by simp [hleft, literalKinds]) (by simp [hright, literalKinds]),
      TokenTree.literalTokens_of_star h, leaves]
  | equals heq h _ =>
    rw [literalTokens_cons_of_not_mem (by simp [heq, literalKinds]), TokenTree.literalTokens_of_star h,
      leaves]

theorem mem_of_mem_leaves (h : IsArguments ts arguments) : ∀ t ∈ arguments.leaves, t ∈ ts := by
  intro t ht
  cases h with
  | none => cases ht
  | parens _ h _ => exact List.mem_cons_of_mem _ (List.mem_append_left _ (TokenTree.leaf_of_star h t ht).1)
  | equals _ h _ => exact List.mem_cons_of_mem _ (TokenTree.leaf_of_star h t ht).1

theorem literals_of_isMeta (h : IsMeta chars arguments m) :
    List.Forall₂ (IsLiteral chars) (literalTokens arguments.leaves) m.literals := by
  cases h with
  | marker => exact .nil
  | list h => exact literals_of_isParams h
  | keyValue h =>
    rw [leaves, TokenTree.leavesAll, TokenTree.leaves, List.singleton_append,
      literalTokens_cons_of_mem h.kind_mem]
    exact .cons h .nil

theorem plain_of_isMeta (h : IsMeta chars arguments m)
    (hwords : ∀ t ∈ arguments.leaves, Lexeme (some t.kind) t.text.toList) :
    ∀ p ∈ m.paths, p.isPlain = true := by
  cases h with
  | list h => exact plain_of_isParams h hwords
  | marker | keyValue => exact fun p hmem => absurd hmem List.not_mem_nil

end Arguments

/-- Literals that reading can give. -/
def Literal.Readable : Literal → Prop
  | real x => x.IsRead
  | v => v.isPlain = true

theorem Literal.Readable.isWritable {v : Literal} (h : v.Readable) : v.isWritable = true := by
  cases v with
  | real x => rfl
  | text s => rfl
  | flag b => rfl
  | int n => exact isWritable_of_isPlain h

theorem Literal.isPlain_of_decodeInt {s : String} {n : Int} (hs : Lexeme (some .int) s.toList)
    (h : decodeInt s = .ok n) : (int n).isPlain = true := by
  obtain ⟨c, cs, -, hs, hc, hcs⟩ | ⟨_, _, _, _, hkind, -⟩ := hs.of_number (.inl rfl)
  · have hdigits : ∀ d ∈ s.toList, Text.isDigit d = true := by
      rw [hs]
      exact List.forall_mem_cons.2 ⟨hc, hcs⟩
    have hnat : decodeInt s = (decodeNat s.toList).map Int.ofNat := by
      rw [decodeInt]
      split
      next ds hds =>
        have hminus : Text.isDigit '-' = true := hdigits '-' (by rw [hds]; exact List.mem_cons_self)
        exact absurd hminus (by decide)
      next => rfl
    rw [hnat] at h
    obtain ⟨k, hk, rfl⟩ := ok_of_map h
    rw [decodeNat] at hk
    split at hk
    · cases hk
    next hlength =>
      cases hk
      have hbound : (Nat.toDigits 10 (Text.decimalValue s.toList)).length ≤ Text.maxDigits := by
        rw [Nat.length_toDigits_le_iff (by decide) (by decide)]
        exact (Text.decimalValue_lt hdigits).trans_le (Nat.pow_le_pow_right (by decide) (not_lt.1 hlength))
      simpa [isPlain, Text.decimal, Text.maxDigits] using hbound
  · cases hkind

theorem Grammar.IsLiteral.readable {t : Token} {v : Literal} (h : IsLiteral chars t v)
    (ht : Lexeme (some t.kind) t.text.toList) : v.Readable := by
  cases h with
  | text hkind h => rfl
  | int hkind h =>
    rw [hkind] at ht
    exact Literal.isPlain_of_decodeInt ht h
  | real hkind h =>
    rw [hkind] at ht
    exact Binary64.isRead_of_lexeme ht h
  | yes | no => rfl

theorem Grammar.IsLiteral.float_iff {t : Token} {v : Literal} (h : IsLiteral chars t v) :
    (t.kind == .float) = (v.kind == .real) := by
  cases h <;> simp_all [Literal.kind]

/-- The words of a text that was read as an attribute with metadata. -/
structure ReadFrom (chars : Charset) (text : String) (a : Attribute) (m : Meta) (ts : List Token) : Prop where
  cut : Lexed.Cut .start text.toList [] ts
  literals : List.Forall₂ (IsLiteral chars) (literalTokens ts) m.literals
  plain : a.path.isPlain = true ∧ ∀ p ∈ m.paths, p.isPlain = true

theorem Source.exists_readFrom {text : String} {a : Attribute} {m : Meta}
    (h : readAttribute chars text = .ok a) (hm : a.payload = .metadata m) : ∃ ts, ReadFrom chars text a m ts := by
  obtain ⟨ts, tree, hcut, htree, hvalue⟩ := readAttribute_eq_ok_iff.1 h
  have hwords := hcut.lexemes
  cases htree with
  | mk hhash hleft hp hargs hright =>
    obtain ⟨payload, hpayload, rfl⟩ := ok_of_map hvalue
    obtain rfl : payload = .metadata m := hm
    have hmeta := Arguments.isMeta_of_payload hpayload
    simp only [List.forall_mem_cons, List.forall_mem_append] at hwords
    obtain ⟨-, -, ⟨hps, has⟩, -⟩ := hwords
    refine ⟨_, hcut, ?_, Path.isPlain_of_isPath hp hps, ?_⟩
    · rw [literalTokens_cons_of_not_mem (by simp [hhash, literalKinds]),
        literalTokens_enclosed (by simp [hleft, literalKinds]) (by simp [hright, literalKinds]),
        literalTokens_append, literalTokens_path hp, Arguments.literalTokens_of_isArguments hargs]
      exact Arguments.literals_of_isMeta hmeta
    · exact Arguments.plain_of_isMeta hmeta fun t ht => has t (Arguments.mem_of_mem_leaves hargs t ht)

namespace ReadFrom

variable {text : String} {a : Attribute} {m : Meta} {ts : List Token}

theorem readable (h : ReadFrom chars text a m ts) : ∀ v ∈ m.literals, v.Readable := by
  have hwords : ∀ t ∈ literalTokens ts, Lexeme (some t.kind) t.text.toList :=
    fun t ht => h.cut.lexemes t (List.mem_of_mem_filter ht)
  have hliterals := h.literals
  generalize m.literals = vs, literalTokens ts = us at hliterals hwords
  induction hliterals with
  | nil => exact fun v hv => absurd hv List.not_mem_nil
  | cons h _ ih =>
    obtain ⟨hword, hwords⟩ := List.forall_mem_cons.1 hwords
    exact List.forall_mem_cons.2 ⟨h.readable hword, ih hwords⟩

/-- There are as many words for numbers as there are numbers. -/
theorem countP_float (h : ReadFrom chars text a m ts) :
    ts.countP (·.kind == .float) = m.literals.countP (·.kind == .real) := by
  have hfilter : ts.countP (·.kind == .float) = (literalTokens ts).countP (·.kind == .float) := by
    rw [literalTokens, List.countP_filter]
    refine List.countP_congr fun t _ => ?_
    by_cases hkind : t.kind = .float <;> simp [hkind, literalKinds]
  rw [hfilter, List.countP_eq_length_filter, List.countP_eq_length_filter]
  exact (List.rel_filter (fun _ _ h => Bool.eq_iff_iff.1 h.float_iff) h.literals).length_eq

end ReadFrom

end DeriveKit
