import DeriveKit.Proofs.Offences

/-!
# The leftmost offence

Parameters are made sense of from left to right, at any depth, and two things can put an end to that: a
parameter that is none, after which the arguments are kept as text, and a literal without a value, which is an
error. `Decides` says that the leftmost of all offences is what counts. It holds of the parts of a
parameter and passes on to parameters side by side (`Decides.andThen`), so it holds of all arguments
(`leftmost_offence_decides`).
-/
namespace DeriveKit

namespace Grammar

open DeriveKit.Metadata (Refusal)

/-- How parameters are refused for an offence. -/
def Offence.refusal : Offence → Refusal
  | missing | malformed => .malformed
  | undecodable e => .literal e

/-- The offence `o` stands at `n`, and none stands before it. -/
def Leftmost (offends : Nat → Offence → Prop) (n : Nat) (o : Offence) : Prop :=
  offends n o ∧ ∀ m o', offends m o' → n ≤ m

/-- Without offences there is a value, and otherwise the leftmost offence is the reason why there is none. -/
structure Decides {α : Type} (offends : Nat → Offence → Prop) (r : Except Refusal α) : Prop where
  value : (∀ n o, ¬ offends n o) → ∃ a, r = .ok a
  refused : ∀ n o, Leftmost offends n o → r = .error o.refusal

theorem exists_leftmost {offends : Nat → Offence → Prop} {n : Nat} {o : Offence} (h : offends n o) :
    ∃ m o', Leftmost offends m o' := by
  induction n using Nat.strongRecOn generalizing o with
  | ind n ih =>
    by_cases hbefore : ∃ m o', m < n ∧ offends m o'
    · obtain ⟨m, o', hlt, hm⟩ := hbefore
      exact ih m hlt hm
    · refine ⟨n, o, h, fun m o' hm => ?_⟩
      exact Nat.le_of_not_lt fun hlt => hbefore ⟨m, o', hlt, hm⟩

namespace Decides

variable {α β γ : Type} {P Q : Nat → Offence → Prop} {r : Except Refusal α}

theorem none_of_ok {a : α} (h : Decides P (.ok a)) (n : Nat) (o : Offence) : ¬ P n o := by
  intro hP
  obtain ⟨m, o', hleft⟩ := exists_leftmost hP
  cases h.refused m o' hleft

theorem congr (h : Decides P r) (hPQ : ∀ n o, Q n o ↔ P n o) : Decides Q r := by
  have hQP : Q = P := funext fun n => funext fun o => propext (hPQ n o)
  rw [hQP]
  exact h

theorem map (h : Decides P r) (f : α → β) : Decides P (r.map f) where
  value hno := by
    obtain ⟨a, rfl⟩ := h.value hno
    exact ⟨f a, rfl⟩
  refused n o hleft := by
    rw [h.refused n o hleft]
    rfl

theorem of_none (h : ∀ n o, ¬ P n o) (a : α) : Decides P (.ok a) where
  value _ := ⟨a, rfl⟩
  refused n o hleft := absurd hleft.1 (h n o)

/-- A single offence is the leftmost. -/
theorem of_single {k : Nat} {o : Offence} (h : ∀ n o', P n o' ↔ n = k ∧ o' = o) :
    Decides P (.error o.refusal : Except Refusal α) where
  value hno := absurd ((h k o).2 ⟨rfl, rfl⟩) (hno k o)
  refused n o' hleft := by rw [((h n o').1 hleft.1).2]

/-- Further to the right the leftmost offence is the same. -/
theorem shift (h : Decides P r) (k : Nat) : Decides (fun n o => ∃ m, n = k + m ∧ P m o) r where
  value hno := h.value fun m o hm => hno (k + m) o ⟨m, rfl, hm⟩
  refused := by
    rintro _ o ⟨⟨m, rfl, hm⟩, hleft⟩
    refine h.refused m o ⟨hm, fun m' o' hm' => ?_⟩
    exact Nat.le_of_add_le_add_left (hleft (k + m') o' ⟨m', rfl, hm'⟩)

/-- Of two things side by side, the second counts only if the first has a value. -/
theorem andThen {k : Nat} {r' : Except Refusal β} (h : Decides P r) (hP : ∀ n o, P n o → n < k)
    (h' : Decides Q r') (f : α → β → γ) :
    Decides (fun n o => P n o ∨ ∃ m, n = k + m ∧ Q m o) (r.bind fun a => r'.map (f a)) where
  value hno := by
    obtain ⟨a, rfl⟩ := h.value fun n o hn => hno n o (.inl hn)
    obtain ⟨b, rfl⟩ := h'.value fun m o hm => hno (k + m) o (.inr ⟨m, rfl, hm⟩)
    exact ⟨f a b, rfl⟩
  refused := by
    rintro n o ⟨hn | ⟨m, rfl, hm⟩, hleft⟩
    · rw [h.refused n o ⟨hn, fun m o' hm => hleft m o' (.inl hm)⟩]
      rfl
    · -- An offence of the first would stand before `k`.
      obtain ⟨a, rfl⟩ := h.value fun n' o' hn' => by
        have hle := hleft n' o' (.inl hn')
        have hlt := hP n' o' hn'
        omega
      rw [(h'.shift k).refused (k + m) o ⟨⟨m, rfl, hm⟩, fun n' o' hn' => hleft n' o' (.inr hn')⟩]
      rfl

end Decides

end Grammar

namespace Metadata

open DeriveKit.Grammar
open DeriveKit.TokenTree (widthAll)

/-! ## One parameter -/

section Parameter

variable {chars : Charset} {part inner : List TokenTree} {t : Token} {k : Nat}

theorem literal?_of_item {tree : TokenTree} {value : Except Literal.Error Literal}
    (h : item chars tree = .literal value) : ∃ t, tree = .leaf t ∧ literal? chars t = some value := by
  cases tree with
  | group trees =>
    rw [item] at h
    cases h
  | leaf t =>
    refine ⟨t, rfl, ?_⟩
    rw [item] at h
    unfold leafItem at h
    split at h
    next value' hvalue =>
      cases h
      exact hvalue
    next =>
      split at h
      next => split at h <;> cases h
      all_goals cases h

theorem equals_of_item {tree : TokenTree} (h : item chars tree = .equals) :
    ∃ t, tree = .leaf t ∧ t.kind = .equals := by
  have hgives := gives_item chars tree
  rw [h] at hgives
  cases hgives with
  | equals hkind => exact ⟨_, rfl, hkind⟩

theorem path_append_of_takePath? {trees : List TokenTree} {xs more : List Item} {p : Path}
    (hitems : items chars trees = xs) (h : takePath? xs = some (p, more)) :
    ∃ ts rest, trees = ts.map .leaf ++ rest ∧ IsPath ts p ∧ items chars rest = more :=
  path_append_of_items (hitems.trans (eq_pathItems_of_takePath? h))

/-- A part is of a known form, or it is no entry. -/
theorem isForm_or_malformed (chars : Charset) (part : List TokenTree) :
    (∃ f, IsForm part f) ∨ entry (items chars part) = .error .malformed := by
  generalize hitems : items chars part = xs
  unfold entry
  split
  next value =>
    rw [items_eq_map] at hitems
    obtain ⟨tree, rfl, htree⟩ := List.map_eq_singleton_iff.1 hitems
    obtain ⟨t, rfl, hvalue⟩ := literal?_of_item htree
    exact .inl ⟨_, .literal (isLiteralToken_iff.2 ⟨value, hvalue⟩)⟩
  next =>
    split
    next p htake =>
      obtain ⟨ts, rest, rfl, hp, hrest⟩ := path_append_of_takePath? hitems htake
      rw [items_eq_map, List.map_eq_nil_iff] at hrest
      rw [hrest, List.append_nil]
      exact .inl ⟨_, .path hp⟩
    next p entries htake =>
      obtain ⟨ts, rest, rfl, hp, hrest⟩ := path_append_of_takePath? hitems htake
      obtain ⟨tree, rfl, hgives⟩ := items_eq_singleton hrest
      cases hgives with
      | group => exact .inl ⟨_, .list hp⟩
    next p value htake =>
      obtain ⟨ts, rest, rfl, hp, hrest⟩ := path_append_of_takePath? hitems htake
      match rest, hrest with
      | eqTree :: rest, hrest =>
        obtain ⟨heqItem, hvalueItem⟩ := List.cons.inj hrest
        obtain ⟨eq, rfl, heq⟩ := equals_of_item heqItem
        rw [items_eq_map] at hvalueItem
        obtain ⟨tree, rfl, htree⟩ := List.map_eq_singleton_iff.1 hvalueItem
        obtain ⟨t, rfl, hvalue⟩ := literal?_of_item htree
        exact .inl ⟨_, .keyValue hp heq (isLiteralToken_iff.2 ⟨value, hvalue⟩)⟩
    next => exact .inr rfl

/-- A literal has a value, or it is the only offence of its parameter. -/
theorem decides_literal {value : Except Literal.Error Literal} (h : literal? chars t = some value) (k : Nat) :
    Decides (fun n o => n = k ∧ ∃ e, Undecodable chars t e ∧ o = .undecodable e)
      (value.mapError Refusal.literal) := by
  cases value with
  | ok v =>
    refine .of_none ?_ v
    rintro n o ⟨-, e, he, -⟩
    rw [undecodable_iff, h] at he
    cases he
  | error e =>
    refine Decides.of_single (k := k) (o := .undecodable e) fun n o => and_congr_right fun _ => ?_
    constructor
    · rintro ⟨e', he', rfl⟩
      rw [undecodable_iff, h] at he'
      cases he'
      rfl
    · rintro rfl
      exact ⟨e, undecodable_iff.2 h, rfl⟩

theorem decides_form {f : Form} (hf : IsForm part f)
    (ih : ∀ k inner, f = .list k inner → Decides (Offends chars inner) (entries chars inner)) :
    Decides (f.Offends chars) (entry (items chars part)) := by
  cases hf with
  | literal h =>
    obtain ⟨value, hvalue⟩ : ∃ value, literal? chars _ = some value := isLiteralToken_iff.1 h
    have hentry : ∀ value, entry [.literal value] = (value.mapError .literal).map .literal := fun _ => rfl
    rw [items, items, item, leafItem, hvalue, hentry]
    exact (decides_literal hvalue 0).map _
  | path hp =>
    rw [items_path hp, ← List.append_nil (pathItems _), entry_path]
    exact .of_none (fun _ _ h => h) _
  | list hp =>
    rw [items_append, items_path hp, items, items, item, entry_list]
    exact ((ih _ _ rfl).map _).shift _
  | keyValue hp heq h =>
    obtain ⟨value, hvalue⟩ : ∃ value, literal? chars _ = some value := isLiteralToken_iff.1 h
    rw [items_append, items_path hp, items, items, items, item, item, leafItem_equals heq, leafItem, hvalue,
      entry_keyValue]
    exact (decides_literal hvalue _).map _

/-- One parameter, given what is inside its parentheses. -/
theorem decides_param (hne : part ≠ [])
    (ih : ∀ k inner, IsForm part (.list k inner) → Decides (Offends chars inner) (entries chars inner)) :
    Decides (ParamOffends chars part) (entry (items chars part)) := by
  by_cases hform : ∃ f, IsForm part f
  · obtain ⟨f, hf⟩ := hform
    refine (decides_form hf ?_).congr fun n o => paramOffends_iff hf
    rintro k inner rfl
    exact ih k inner hf
  · rw [(isForm_or_malformed chars part).resolve_left hform]
    have hnone : ∀ f, ¬ IsForm part f := fun f hf => hform ⟨f, hf⟩
    exact Decides.of_single (o := .malformed) fun n o => paramOffends_of_no_form hne hnone

end Parameter

/-! ## All parameters -/

variable {chars : Charset}

theorem comma_not_mem_items_iff {trees : List TokenTree} : Item.comma ∉ items chars trees ↔ NoComma trees := by
  rw [items_eq_map, List.mem_map]
  constructor
  · intro h t ht hkind
    exact h ⟨.leaf t, ht, by rw [item, leafItem_comma hkind]⟩
  · rintro h ⟨tree, htree, hcomma⟩
    have hgives := gives_item chars tree
    rw [hcomma] at hgives
    cases hgives with
    | comma hkind => exact h _ htree hkind

/-- What stands before the first comma. -/
theorem decides_first {front : List TokenTree}
    (ih : ∀ k inner, IsForm front (.list k inner) → Decides (Offends chars inner) (entries chars inner)) :
    Decides (FirstOffends chars front) (entry (items chars front)) := by
  by_cases hne : front = []
  · subst hne
    refine Decides.of_single (k := 0) (o := .missing) fun n o => ?_
    constructor
    · rintro (⟨-, rfl, rfl⟩ | ho)
      · exact ⟨rfl, rfl⟩
      · exact absurd (lt_width_of_paramOffends ho) (Nat.not_lt_zero n)
    · rintro ⟨rfl, rfl⟩
      exact .inl ⟨rfl, rfl, rfl⟩
  · refine (decides_param hne ih).congr fun n o => ?_
    simp [FirstOffends, hne]

theorem firstOffends_lt {front : List TokenTree} {n : Nat} {o : Offence} (h : FirstOffends chars front n o) :
    n < widthAll front + 1 := by
  rcases h with ⟨-, rfl, -⟩ | h
  · exact Nat.succ_pos _
  · exact Nat.lt_succ_of_lt (lt_width_of_paramOffends h)

/-- By induction on the number of tokens: a comma leaves fewer on both of its sides, and parentheses fewer
inside. -/
theorem decides_entries (chars : Charset) (trees : List TokenTree) :
    Decides (Offends chars trees) (entries chars trees) := by
  induction hwidth : widthAll trees using Nat.strongRecOn generalizing trees with
  | ind width ih =>
    subst hwidth
    have hinner : ∀ part, widthAll part ≤ widthAll trees → ∀ k inner, IsForm part (.list k inner) →
        Decides (Offends chars inner) (entries chars inner) := by
      intro part hpart k inner hf
      refine ih _ ?_ inner rfl
      have := width_inner_lt hf
      omega
    rcases split_at_comma chars trees with hcomma | ⟨front, comma, more, rfl, hkind, hfront⟩
    · have hno := comma_not_mem_items_iff.1 hcomma
      by_cases hne : trees = []
      · subst hne
        refine .of_none (fun n o ho => ?_) _
        exact absurd (lt_width_of_offends ho) (Nat.not_lt_zero n)
      · rw [entries_of_comma_not_mem (by simpa [items_eq_map] using hne) hcomma]
        exact ((decides_param hne (hinner trees (Nat.le_refl _))).map _).congr fun n o => offends_of_noComma hno
    · have hmore : widthAll more < widthAll (front ++ .leaf comma :: more) := by
        simp only [TokenTree.widthAll_append, widthAll, TokenTree.width]
        omega
      have hfrontWidth : widthAll front ≤ widthAll (front ++ .leaf comma :: more) := by
        rw [TokenTree.widthAll_append]
        omega
      rw [entries_append_comma hfront hkind]
      have hfirst := decides_first (hinner front hfrontWidth)
      refine (hfirst.andThen (fun n o => firstOffends_lt) (ih _ hmore more rfl) _).congr fun n o => ?_
      exact offends_comma (comma_not_mem_items_iff.1 hfront) hkind

end Metadata

namespace Arguments

open DeriveKit.Grammar

/-- What comes of trees in parentheses whose leftmost offence is `o`. -/
def answerTo (trees : List TokenTree) : Offence → Except Literal.Error Payload
  | .missing | .malformed => .ok (.verbatim ("(" ++ TokenTree.renderAll trees ++ ")"))
  | .undecodable e => .error e

theorem payload_of_refusal {chars : Charset} {trees : List TokenTree} {o : Offence}
    (h : Metadata.entries chars trees = .error o.refusal) :
    (parens trees).payload chars = answerTo trees o := by
  rw [payload, h]
  cases o <;> rfl

/-- Trees in parentheses without an offence are a list. Otherwise one offence is the leftmost: if a parameter is
missing or malformed there, the trees are kept as text, whatever literals follow; and if a literal has no value
there, that is the error. -/
theorem leftmost_offence_decides (chars : Charset) (trees : List TokenTree) :
    ((∀ n o, ¬ Offends chars trees n o) ∨ ∃ n o, Leftmost (Offends chars trees) n o) ∧
    ((∀ n o, ¬ Offends chars trees n o) ↔ ∃ es, (parens trees).payload chars = .ok (.metadata (.list es))) ∧
    ∀ n o, Leftmost (Offends chars trees) n o →
      (parens trees).payload chars = answerTo trees o := by
  have hdecides := Metadata.decides_entries chars trees
  refine ⟨?_, ?_, ?_⟩
  · by_cases h : ∃ n o, Offends chars trees n o
    · obtain ⟨n, o, ho⟩ := h
      exact .inr (exists_leftmost ho)
    · exact .inl fun n o ho => h ⟨n, o, ho⟩
  · constructor
    · intro hnone
      obtain ⟨es, hes⟩ := hdecides.value hnone
      exact ⟨es, payload_parens_eq_list_iff.2 (Metadata.entries_eq_ok_iff.1 hes)⟩
    · rintro ⟨es, hes⟩
      rw [payload_parens_eq_list_iff, ← Metadata.entries_eq_ok_iff] at hes
      rw [hes] at hdecides
      exact hdecides.none_of_ok
  · intro n o hleft
    exact payload_of_refusal (hdecides.refused n o hleft)

/-- In `tag("\N{BULLET}"),,` the literal inside the first parameter is the leftmost offence: its name is known,
but the character is no byte. In `,"\N{BULLET}"` a parameter is missing first, so the literal does not
matter. -/
theorem leftmost_offence_decides_nested :
    let chars : Charset := .plain fun name => if name = "BULLET".toList then some '•' else .none
    let token (kind : Token.Kind) (text : String) : TokenTree := .leaf ⟨kind, text, .start⟩
    let bad := token .string "\"\\N\x7bBULLET\x7d\""
    let trees := [token .name "tag", .group [bad], token .comma ",", token .comma ","]
    let missing := [token .comma ",", bad]
    (Leftmost (Offends chars trees) 2 (.undecodable (.wide 0)) ∧
      (parens trees).payload chars = .error (.wide 0)) ∧
      Leftmost (Offends chars missing) 0 .missing ∧
      (parens missing).payload chars = .ok (.verbatim "(, \"\\N\x7bBULLET\x7d\")") := by
  intro chars token bad trees missing
  have hbad : IsForm [bad] (.literal ⟨.string, "\"\\N\x7bBULLET\x7d\"", .start⟩) := .literal (.text rfl)
  have hwide : Undecodable chars ⟨.string, "\"\\N\x7bBULLET\x7d\"", .start⟩ (.wide 0) := .text rfl rfl
  have hpath : IsPath [⟨.name, "tag", .start⟩] ⟨⟨"tag", by decide⟩, []⟩ := .mk (.name rfl rfl) .nil
  have htag : IsForm [token .name "tag", .group [bad]] (.list 1 [bad]) := .list hpath
  have hfront : NoComma [token .name "tag", .group [bad]] := by simp [NoComma, token]
  have hsplit : ∀ n o, Offends chars trees n o ↔
      FirstOffends chars [token .name "tag", .group [bad]] n o ∨
      ∃ m, n = 4 + 1 + m ∧ Offends chars [token .comma ","] m o := fun n o => offends_comma hfront rfl
  have hinner : Offends chars [bad] 0 (.undecodable (.wide 0)) :=
    .param (delimited_self (by simp [NoComma, bad, token])) (.literal hbad hwide)
  have hleft : Leftmost (Offends chars trees) 2 (.undecodable (.wide 0)) := by
    refine ⟨(hsplit _ _).2 (.inl (.inr (.list htag hinner))), fun m o ho => ?_⟩
    rcases (hsplit m o).1 ho with (⟨hnil, -⟩ | ho) | ⟨m', rfl, -⟩
    · cases hnil
    · obtain ⟨m', rfl, -⟩ := (paramOffends_iff htag).1 ho
      omega
    · omega
  have hnil : NoComma [] := by simp [NoComma]
  have hmissing : Leftmost (Offends chars missing) 0 .missing :=
    ⟨.missing (delimited_first hnil rfl) (List.cons_ne_nil _ _), fun m _ _ => Nat.zero_le m⟩
  have hwords : "(" ++ TokenTree.renderAll missing ++ ")" = "(, \"\\N\x7bBULLET\x7d\")" := by
    decide +kernel
  refine ⟨⟨hleft, (leftmost_offence_decides chars trees).2.2 _ _ hleft⟩, hmissing, ?_⟩
  rw [← hwords]
  exact (leftmost_offence_decides chars missing).2.2 _ _ hmissing

end Arguments

end DeriveKit
