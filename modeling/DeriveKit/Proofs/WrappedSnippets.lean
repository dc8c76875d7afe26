import DeriveKit.Proofs.ClosedTexts
import DeriveKit.Proofs.Places
import DeriveKit.Proofs.VerbatimRoundTrip

/-!
# Snippets in a frame

Parameters and fields are read by putting the text into a frame, `#[_(` and `)]` or `struct _ ` and perhaps `;`,
and reading that. A text could try to close the frame early, or to join it at either end.
`frames_are_faithful` says that no text gets away with it: what is read is what the tokens of the text stand for
by themselves.

Lexing the frame is lexing the text, between tokens of the frame's own (`Lexed.ofText_attribute`,
`Lexed.ofText_struct`, `Lexed.ofText_append`). What such tokens can stand for is inverted once for attributes
and once for declarations (`isAttribute_start_iff`, `isDeclaration_struct_iff`).
-/
namespace DeriveKit

open DeriveKit.Token (Kind)
open DeriveKit.Grammar

/-! ## Trees of tokens further to the right -/

namespace TokenTree

mutual

/-- The tree of a text that stands behind `n` characters of the first line. -/
def moved (n : Nat) : TokenTree → TokenTree
  | leaf t => leaf (t.moved n)
  | group trees => group (movedAll n trees)

def movedAll (n : Nat) : List TokenTree → List TokenTree
  | [] => []
  | tree :: trees => tree.moved n :: movedAll n trees

end

variable {chars : Charset} {n : Nat}

mutual

theorem item_moved : ∀ tree : TokenTree, Metadata.item chars (tree.moved n) = Metadata.item chars tree
  | leaf _ => rfl
  | group trees => by rw [moved, Metadata.item, Metadata.item, items_movedAll trees]

theorem items_movedAll : ∀ trees : List TokenTree,
    Metadata.items chars (movedAll n trees) = Metadata.items chars trees
  | [] => rfl
  | tree :: trees => by rw [movedAll, Metadata.items, Metadata.items, item_moved tree, items_movedAll trees]

end

/-- What trees stand for as parameters does not depend on where they stand. -/
theorem isParams_movedAll_iff {trees : List TokenTree} {es : List Entry} :
    IsParams chars (movedAll n trees) es ↔ IsParams chars trees es := by
  rw [← Metadata.entries_eq_ok_iff, ← Metadata.entries_eq_ok_iff, Metadata.entries, Metadata.entries, items_movedAll]

mutual

theorem isTree_moved {ts : List Token} {tree : TokenTree} :
    IsTree ts tree → IsTree (ts.map (·.moved n)) (tree.moved n)
  | .leaf h => .leaf h
  | .group hleft h hright => by
    rw [List.map_cons, List.map_append]
    exact .group hleft (star_movedAll h) hright

theorem star_movedAll {ts : List Token} {trees : List TokenTree} :
    Star IsTree ts trees → Star IsTree (ts.map (·.moved n)) (movedAll n trees)
  | .nil => .nil
  | .cons h hs => by
    rw [List.map_append]
    exact .cons (isTree_moved h) (star_movedAll hs)

end

mutual

theorem isTree_of_moved {us : List Token} {tree' : TokenTree} : IsTree us tree' →
    ∀ ts : List Token, us = ts.map (·.moved n) → ∃ tree, IsTree ts tree ∧ tree' = tree.moved n
  | .leaf h, ts, hts => by
    obtain ⟨t, rfl, rfl⟩ := List.map_eq_singleton_iff.1 hts.symm
    exact ⟨.leaf t, .leaf h, rfl⟩
  | .group hleft h hright, ts, hts => by
    obtain ⟨left, rest, rfl, rfl, hrest⟩ := List.map_eq_cons_iff.1 hts.symm
    obtain ⟨inner, last, rfl, hinner, hlast⟩ := List.map_eq_append_iff.1 hrest
    obtain ⟨right, rfl, rfl⟩ := List.map_eq_singleton_iff.1 hlast
    obtain ⟨trees, htrees, rfl⟩ := star_of_moved h inner hinner.symm
    exact ⟨.group trees, .group hleft htrees hright, rfl⟩

theorem star_of_moved {us : List Token} {trees' : List TokenTree} : Star IsTree us trees' →
    ∀ ts : List Token, us = ts.map (·.moved n) → ∃ trees, Star IsTree ts trees ∧ trees' = movedAll n trees
  | .nil, ts, hts => by
    rw [List.map_eq_nil_iff.1 hts.symm]
    exact ⟨[], .nil, rfl⟩
  | .cons h hs, ts, hts => by
    obtain ⟨front, back, rfl, hfront, hback⟩ := List.map_eq_append_iff.1 hts.symm
    obtain ⟨tree, htree, rfl⟩ := isTree_of_moved h front hfront.symm
    obtain ⟨trees, htrees, rfl⟩ := star_of_moved hs back hback.symm
    exact ⟨tree :: trees, .cons htree htrees, rfl⟩

end

end TokenTree

/-! ## What a frame can hold -/

namespace Grammar

open DeriveKit.Lexed (attributeStart structStart)

variable {chars : Charset} {us : List Token}

/-- An attribute that starts with `#[_(` holds trees up to the parenthesis and the bracket at its end. -/
theorem isAttribute_start_iff {arguments : Arguments} :
    (∃ tree, IsAttribute (attributeStart ++ us) tree ∧ tree.arguments = arguments) ↔
      ∃ vs right last trees, us = vs ++ [right, last] ∧ Star IsTree vs trees ∧ right.kind = .rightParen ∧
        last.kind = .rightBracket ∧ arguments = .parens trees := by
  constructor
  · rintro ⟨tree, h, rfl⟩
    generalize hts : attributeStart ++ us = ts at h
    cases h with
    | @mk ps as hash left last p _ hhash hleft hp hargs hlast =>
      simp only [attributeStart, List.cons_append, List.nil_append, List.cons.injEq] at hts
      obtain ⟨rfl, rfl, hts⟩ := hts
      obtain ⟨hname, hsteps⟩ := hp
      obtain ⟨-, -⟩ := hname
      -- The path is `_` alone, since no `::` follows, and then a parenthesis opens the arguments.
      cases hsteps with
      | cons hstep =>
        cases hstep with
        | sep hsep =>
          obtain ⟨-, rfl, -⟩ := by simpa using hts
          cases hsep
      | nil =>
        obtain ⟨-, hts⟩ := by simpa using hts
        cases hargs with
        | none =>
          obtain ⟨rfl, -⟩ := by simpa using hts
          cases hlast
        | equals heq =>
          obtain ⟨rfl, -⟩ := by simpa using hts
          cases heq
        | parens hparen htrees hright =>
          obtain ⟨-, rfl⟩ := by simpa using hts
          exact ⟨_, _, last, _, by simp, htrees, hright, hlast, rfl⟩
  · rintro ⟨vs, right, last, trees, rfl, htrees, hright, hlast, rfl⟩
    have hpath : IsPath [⟨.name, "_", ⟨1, 3⟩⟩] ⟨⟨"_", by decide⟩, []⟩ := .mk (.name rfl rfl) .nil
    have hargs : IsArguments (⟨.leftParen, "(", ⟨1, 4⟩⟩ :: (vs ++ [right])) (.parens trees) :=
      .parens rfl htrees hright
    have htokens : attributeStart ++ (vs ++ [right, last]) = ⟨.hash, "#", ⟨1, 1⟩⟩ :: ⟨.leftBracket, "[", ⟨1, 2⟩⟩ ::
        ([⟨.name, "_", ⟨1, 3⟩⟩] ++ ⟨.leftParen, "(", ⟨1, 4⟩⟩ :: (vs ++ [right]) ++ [last]) := by
      simp [attributeStart]
    rw [htokens]
    exact ⟨_, .mk rfl rfl hpath hargs hlast, rfl⟩

theorem isDeclaration_struct_iff {tree : DeclarationTree} :
    IsDeclaration (structStart ++ us) tree ↔
      ∃ fields, IsStructBody us fields ∧ tree = ⟨[], "_", .struct fields, some ⟨1, 1⟩⟩ := by
  constructor
  · intro h
    generalize hts : structStart ++ us = ts at h
    cases h with
    | mk hattrs hvis hitem htokens =>
      rw [htokens] at hts
      -- Neither an attribute nor `pub` nor `enum` starts like a struct.
      cases hattrs with
      | cons hattr =>
        cases hattr with
        | mk hhash =>
          obtain ⟨rfl, -⟩ := by simpa [structStart] using hts
          cases hhash
      | nil =>
        cases hvis with
        | pub hpub =>
          obtain ⟨rfl, -⟩ := by simpa [structStart] using hts
          cases hpub
        | none =>
          cases hitem with
          | enum hword =>
            obtain ⟨rfl, -⟩ := by simpa [structStart] using hts
            cases hword
          | struct hword hname hbody =>
            obtain ⟨rfl, rfl, rfl⟩ := by simpa [structStart] using hts
            exact ⟨_, hbody, by rw [htokens]; rfl⟩
  · rintro ⟨fields, hbody, rfl⟩
    exact .mk .nil .none (.struct rfl rfl hbody) rfl

/-- The fields of a struct are in braces if that is what they come to. -/
theorem IsStructBody.named_of_value {fields : FieldsTree} {fs : List Field} (h : IsStructBody us fields)
    (hvalue : fields.value chars = .ok (.named fs)) : IsNamedFields us fields := by
  cases h with
  | unit => cases hvalue
  | named h => exact h
  | tuple h =>
    cases h with
    | mk =>
      obtain ⟨_, -, hlist⟩ := ok_of_map hvalue
      cases hlist

/-- They are in parentheses if that is what they come to, and a semicolon ends the struct. -/
theorem IsStructBody.tuple_of_value {semi : Token} {fields : FieldsTree} {fs : List Field}
    (h : IsStructBody (us ++ [semi]) fields) (hvalue : fields.value chars = .ok (.tuple fs)) :
    IsTupleFields us fields := by
  generalize hts : us ++ [semi] = ts at h
  cases h with
  | unit => cases hvalue
  | named h =>
    cases h with
    | mk =>
      obtain ⟨_, -, hlist⟩ := ok_of_map hvalue
      cases hlist
  | tuple h =>
    rw [List.append_inj_left' hts rfl]
    exact h

end Grammar

/-! ## Literals with values -/

/-- Every literal among the tokens has a value. -/
def Token.AllDecode (chars : Charset) (ts : List Token) : Prop :=
  ∀ t ∈ ts, t.kind ∈ literalKinds → ∃ v, IsLiteral chars t v

instance (chars : Charset) (ts : List Token) : Decidable (Token.AllDecode chars ts) :=
  inferInstanceAs (Decidable (∀ t ∈ ts, _))

namespace Token.AllDecode

variable {chars : Charset} {ts us : List Token}

theorem sublist (h : AllDecode chars ts) (hus : us.Sublist ts) : AllDecode chars us :=
  fun t ht => h t (hus.subset ht)

theorem moved (h : AllDecode chars ts) (n : Nat) : AllDecode chars (ts.map (·.moved n)) := by
  intro t ht hkind
  obtain ⟨t, hmem, rfl⟩ := List.mem_map.1 ht
  obtain ⟨v, hv⟩ := h t hmem hkind
  have hsame : Metadata.literal? chars (t.moved n) = Metadata.literal? chars t := rfl
  exact ⟨v, isLiteral_iff.2 (hsame.trans (isLiteral_iff.1 hv))⟩

end Token.AllDecode

namespace Grammar

variable {chars : Charset} {α β ε : Type} {L : Phrase α} {ts : List Token} {as : List α}

theorem exists_collect {value : α → Except ε β} (h : ∀ a ∈ as, ∃ b, value a = .ok b) :
    ∃ bs, Reader.collect (as.map value) = .ok bs := by
  induction as with
  | nil => exact ⟨[], rfl⟩
  | cons a as ih =>
    obtain ⟨⟨b, hb⟩, has⟩ := List.forall_mem_cons.1 h
    obtain ⟨bs, hbs⟩ := ih has
    refine ⟨b :: bs, ?_⟩
    rw [List.map_cons, Reader.collect, hb, hbs]
    rfl

/-- Phrases that have values if their literals do are collected if all literals do. -/
theorem InOrder.exists_collect {value : α → Except ε β} (h : InOrder L ts as) (hts : Token.AllDecode chars ts)
    (hL : ∀ us a, L us a → Token.AllDecode chars us → ∃ b, value a = .ok b) :
    ∃ bs, Reader.collect (as.map value) = .ok bs := by
  apply Grammar.exists_collect
  intro a ha
  obtain ⟨us, hus, hL'⟩ := h.of_mem a ha
  exact hL us a hL' (hts.sublist hus)

theorem decoded_of_star {trees : List TokenTree} (h : Star IsTree ts trees) (hts : Token.AllDecode chars ts) :
    TokenTree.Decoded chars trees :=
  fun t ht => hts t (TokenTree.leaf_of_star h t ht).1

theorem IsArguments.exists_payload {arguments : Arguments} (h : IsArguments ts arguments)
    (hts : Token.AllDecode chars ts) : ∃ payload, arguments.payload chars = .ok payload := by
  cases h with
  | none => exact ⟨_, rfl⟩
  | @parens us left right trees hleft h hright =>
    have hdecoded := decoded_of_star h (hts.sublist (.cons _ (List.sublist_append_left us [right])))
    by_cases hes : ∃ es, IsParams chars trees es
    · obtain ⟨es, hes⟩ := hes
      exact ⟨_, Arguments.payload_parens_eq_list_iff.2 hes⟩
    · exact ⟨_, Arguments.payload_parens_of_not_isParams hdecoded (not_exists.1 hes)⟩
  | @equals us eq trees heq h hne =>
    have hdecoded := decoded_of_star h (hts.sublist (.cons eq (List.Sublist.refl us)))
    rcases Arguments.payload_equals_cases trees with ⟨t, rfl, hkind⟩ | hverbatim
    · obtain ⟨v, hv⟩ := hdecoded t (by simp [TokenTree.leavesAll, TokenTree.leaves]) hkind
      exact ⟨_, Arguments.payload_equals_of_isLiteral hv⟩
    · exact ⟨_, hverbatim⟩

theorem IsAttribute.exists_value (ts : List Token) (a : AttributeTree) (h : IsAttribute ts a)
    (hts : Token.AllDecode chars ts) : ∃ b, a.value chars = .ok b := by
  cases h with
  | @mk ps as hash left right p arguments hhash hleft hp hargs hright =>
    have has : as.Sublist (hash :: left :: (ps ++ as ++ [right])) :=
      .cons _ (.cons _ ((List.sublist_append_right ps as).trans (List.sublist_append_left _ [right])))
    obtain ⟨payload, hpayload⟩ := hargs.exists_payload (hts.sublist has)
    exact ⟨⟨p, payload, some hash.pos⟩, by rw [AttributeTree.value, hpayload]; rfl⟩

/-- A field has a value if its attributes do. -/
theorem FieldTree.exists_value {f : FieldTree} (h : Star IsAttribute ts f.attrs)
    (hts : Token.AllDecode chars ts) : ∃ field, f.value chars = .ok field := by
  obtain ⟨attrs, hattrs⟩ := h.inOrder.exists_collect hts IsAttribute.exists_value
  exact ⟨_, by rw [FieldTree.value, hattrs]; rfl⟩

theorem IsNamedField.exists_value (ts : List Token) (f : FieldTree) (h : IsNamedField ts f)
    (hts : Token.AllDecode chars ts) : ∃ field, f.value chars = .ok field := by
  cases h with
  | mk hattrs _ _ _ _ htokens =>
    subst htokens
    exact FieldTree.exists_value hattrs (hts.sublist (List.sublist_append_left ..))

theorem IsTupleField.exists_value (ts : List Token) (f : FieldTree) (h : IsTupleField ts f)
    (hts : Token.AllDecode chars ts) : ∃ field, f.value chars = .ok field := by
  cases h with
  | mk hattrs _ _ htokens =>
    subst htokens
    exact FieldTree.exists_value hattrs (hts.sublist (List.sublist_append_left ..))

theorem IsNamedFields.exists_value {fields : FieldsTree} (h : IsNamedFields ts fields)
    (hts : Token.AllDecode chars ts) : ∃ fs, fields.value chars = .ok (.named fs) := by
  cases h with
  | mk hleft h hright =>
    have hinner := hts.sublist (.cons _ (List.sublist_append_left ..))
    obtain ⟨fs, hfs⟩ := h.inOrder.exists_collect hinner IsNamedField.exists_value
    exact ⟨fs, by rw [FieldsTree.value, hfs]; rfl⟩

theorem IsTupleFields.exists_value {fields : FieldsTree} (h : IsTupleFields ts fields)
    (hts : Token.AllDecode chars ts) : ∃ fs, fields.value chars = .ok (.tuple fs) := by
  cases h with
  | mk hleft h hright =>
    have hinner := hts.sublist (.cons _ (List.sublist_append_left ..))
    obtain ⟨fs, hfs⟩ := h.inOrder.exists_collect hinner IsTupleField.exists_value
    exact ⟨fs, by rw [FieldsTree.value, hfs]; rfl⟩

end Grammar

namespace Source

variable {chars : Charset} {α β : Type}

/-- Reading a value reads a sentence and asks for its value. -/
theorem readValue_eq_ok_iff {r : Reader (Except Literal.Error α)} {f : β → Except Literal.Error α} {L : Phrase β}
    {π : Reader.Profile} (hexact : r.Exact (Phrase.map f L) π) {text : String} {a : α} :
    readValue r text = .ok a ↔
      (Lexed.ofText text).stop = none ∧ ∃ tree, L (Lexed.ofText text).tokens tree ∧ f tree = .ok a := by
  have hread : ∀ value, read r text = .ok value ↔
      (Lexed.ofText text).stop = none ∧ Phrase.map f L (Lexed.ofText text).tokens value := by
    intro value
    rw [← hexact.reads]
    exact run_eq_ok_iff
  constructor
  · intro h
    obtain ⟨value, hvalue, hok⟩ := ok_of_bind h
    obtain ⟨hstop, tree, htree, rfl⟩ := (hread value).1 hvalue
    exact ⟨hstop, tree, htree, ok_of_mapError hok⟩
  · rintro ⟨hstop, tree, htree, hvalue⟩
    rw [readValue, (hread _).2 ⟨hstop, tree, htree, hvalue⟩]
    rfl

/-! ## Frames -/

open DeriveKit.Lexed (ofText)

/-- What is read of a text behind `#[_(`. -/
theorem readAttribute_start_iff {text : String} {payload : Payload} :
    (∃ a, readAttribute chars ("#[_(" ++ text) = .ok a ∧ a.payload = payload) ↔
      (ofText text).stop = none ∧ ∃ vs right last trees,
        (ofText text).tokens.map (·.moved 4) = vs ++ [right, last] ∧ Star IsTree vs trees ∧
        right.kind = .rightParen ∧ last.kind = .rightBracket ∧
        (Arguments.parens trees).payload chars = .ok payload := by
  have hread : ∀ a, readAttribute chars ("#[_(" ++ text) = .ok a ↔ (ofText text).stop = none ∧ ∃ tree,
      IsAttribute (Lexed.attributeStart ++ (ofText text).tokens.map (·.moved 4)) tree ∧
      tree.value chars = .ok a := by
    intro a
    rw [readAttribute, readValue_eq_ok_iff (Reader.exact_attr chars), Lexed.ofText_attribute]
    simp only [Lexed.prepend, Lexed.moved, Option.map_eq_none_iff]
  constructor
  · rintro ⟨a, ha, rfl⟩
    obtain ⟨hstop, tree, htree, hvalue⟩ := (hread a).1 ha
    obtain ⟨payload, hpayload, rfl⟩ := ok_of_map hvalue
    obtain ⟨vs, right, last, trees, hts, htrees, hright, hlast, harguments⟩ :=
      isAttribute_start_iff.1 ⟨tree, htree, rfl⟩
    rw [harguments] at hpayload
    exact ⟨hstop, vs, right, last, trees, hts, htrees, hright, hlast, hpayload⟩
  · rintro ⟨hstop, vs, right, last, trees, hts, htrees, hright, hlast, hpayload⟩
    obtain ⟨tree, htree, harguments⟩ :=
      isAttribute_start_iff.2 ⟨vs, right, last, trees, hts, htrees, hright, hlast, rfl⟩
    have hvalue : tree.value chars = .ok ⟨tree.path, payload, tree.loc⟩ := by
      rw [AttributeTree.value, harguments, hpayload]
      rfl
    exact ⟨_, (hread _).2 ⟨hstop, tree, htree, hvalue⟩, rfl⟩

/-- What is read of a text behind `struct _`. -/
theorem readDeclaration_struct_iff {text : String} {d : Declaration} :
    readDeclaration chars ("struct _ " ++ text) = .ok d ↔ (ofText text).stop = none ∧ ∃ fields list,
      IsStructBody ((ofText text).tokens.map (·.moved 9)) fields ∧ fields.value chars = .ok list ∧
      d = ⟨"_", .struct (some list) fields.semi, [], some .start⟩ := by
  rw [readDeclaration, readValue_eq_ok_iff (Reader.exact_declaration chars), Lexed.ofText_struct]
  simp only [Lexed.prepend, Lexed.moved, Option.map_eq_none_iff, isDeclaration_struct_iff]
  refine and_congr_right fun _ => ?_
  constructor
  · rintro ⟨_, ⟨fields, hbody, rfl⟩, hvalue⟩
    obtain ⟨attrs, hattrs, hvalue⟩ := ok_of_bind hvalue
    obtain ⟨data, hdata, hvalue⟩ := ok_of_bind hvalue
    obtain ⟨list, hlist, rfl⟩ := ok_of_map hdata
    cases hattrs
    cases hvalue
    exact ⟨fields, list, hbody, hlist, rfl⟩
  · rintro ⟨fields, list, hbody, hlist, rfl⟩
    refine ⟨_, ⟨fields, hbody, rfl⟩, ?_⟩
    simp only [DeclarationTree.value, DataTree.value, hlist]
    rfl

/-! ## What the readers give -/

theorem readParameters_eq_ok_iff_payload {text : String} {es : List Entry} :
    readParameters chars text = .ok es ↔
      ∃ a, readAttribute chars ("#[_(" ++ (text ++ ")]")) = .ok a ∧ a.payload = .metadata (.list es) := by
  rw [← String.append_assoc]
  constructor
  · intro h
    obtain ⟨a, ha, h⟩ := ok_of_bind h
    refine ⟨a, ha, ?_⟩
    split at h
    next entries hpayload =>
      cases h
      exact hpayload
    next => cases h
  · rintro ⟨⟨path, payload, loc⟩, ha, hpayload⟩
    cases hpayload
    rw [readParameters, ha]
    rfl

section Closed

variable {text : String} (hend : ¬ Lexed.EndsInComment text.toList)

include hend

theorem readParameters_eq_ok_iff {es : List Entry} :
    readParameters chars text = .ok es ↔
      (ofText text).stop = none ∧ ∃ trees, Star IsTree (ofText text).tokens trees ∧ IsParams chars trees es := by
  have hstop : (ofText (text ++ ")]")).stop = (ofText text).stop :=
    Lexed.stop_append Lexed.closing_parenBracket rfl hend rfl
  rw [readParameters_eq_ok_iff_payload, readAttribute_start_iff, hstop]
  refine and_congr_right fun hnone => ?_
  have htokens : (ofText (text ++ ")]")).tokens = (ofText text).tokens ++
      (Lexed.scanAfter 0 (Position.start.advance text.toList) [')', ']']).tokens :=
    Lexed.tokens_append Lexed.closing_parenBracket rfl hend hnone
  rw [htokens, List.map_append]
  constructor
  · rintro ⟨vs, right, last, trees', hts, htrees, -, -, hpayload⟩
    have hvs := List.append_inj_left' hts rfl
    obtain ⟨trees, hown, rfl⟩ := TokenTree.star_of_moved htrees _ hvs.symm
    have hparams := Arguments.payload_parens_eq_list_iff.1 hpayload
    exact ⟨trees, hown, TokenTree.isParams_movedAll_iff.1 hparams⟩
  · rintro ⟨trees, htrees, hparams⟩
    exact ⟨_, _, _, _, rfl, TokenTree.star_movedAll htrees, rfl, rfl,
      Arguments.payload_parens_eq_list_iff.2 (TokenTree.isParams_movedAll_iff.2 hparams)⟩

theorem readTupleFields_eq_ok_iff {fs : List Field} :
    readTupleFields chars text = .ok fs ↔ (ofText text).stop = none ∧ ∃ fields,
      IsTupleFields ((ofText text).tokens.map (·.moved 9)) fields ∧ fields.value chars = .ok (.tuple fs) := by
  have hstop : (ofText (text ++ ";")).stop = (ofText text).stop :=
    Lexed.stop_append Lexed.closing_semicolon rfl hend rfl
  have htokens : (ofText text).stop = none → (ofText (text ++ ";")).tokens = (ofText text).tokens ++
      (Lexed.scanAfter 0 (Position.start.advance text.toList) [';']).tokens :=
    Lexed.tokens_append Lexed.closing_semicolon rfl hend
  constructor
  · intro h
    obtain ⟨d, hd, h⟩ := ok_of_bind h
    rw [String.append_assoc, readDeclaration_struct_iff, hstop] at hd
    obtain ⟨hnone, fields, list, hbody, hlist, rfl⟩ := hd
    rw [htokens hnone, List.map_append] at hbody
    cases list with
    | unit | named => cases h
    | tuple fs' =>
      cases h
      exact ⟨hnone, fields, hbody.tuple_of_value hlist, hlist⟩
  · rintro ⟨hnone, fields, hfields, hvalue⟩
    have hbody : IsStructBody ((ofText (text ++ ";")).tokens.map (·.moved 9)) fields := by
      rw [htokens hnone, List.map_append]
      exact .tuple hfields rfl
    have hd := readDeclaration_struct_iff.2 ⟨hstop.trans hnone, fields, _, hbody, hvalue, rfl⟩
    rw [readTupleFields, String.append_assoc, hd]
    rfl

end Closed

theorem readNamedFields_eq_ok_iff {text : String} {fs : List Field} :
    readNamedFields chars text = .ok fs ↔ (ofText text).stop = none ∧ ∃ fields,
      IsNamedFields ((ofText text).tokens.map (·.moved 9)) fields ∧ fields.value chars = .ok (.named fs) := by
  constructor
  · intro h
    obtain ⟨d, hd, h⟩ := ok_of_bind h
    obtain ⟨hnone, fields, list, hbody, hlist, rfl⟩ := readDeclaration_struct_iff.1 hd
    cases list with
    | unit | tuple => cases h
    | named fs' =>
      cases h
      exact ⟨hnone, fields, hbody.named_of_value hlist, hlist⟩
  · rintro ⟨hnone, fields, hfields, hvalue⟩
    have hd := readDeclaration_struct_iff.2 ⟨hnone, fields, _, .named hfields, hvalue, rfl⟩
    rw [readNamedFields, hd]
    rfl

/-- Whatever the text, what stands behind `#[_(` is a list of parameters or kept as text. -/
theorem payload_of_readAttribute_start {text : String} {a : Attribute}
    (h : readAttribute chars ("#[_(" ++ text) = .ok a) :
    (∃ es, a.payload = .metadata (.list es)) ∨ ∃ words, a.payload = .verbatim words := by
  obtain ⟨-, vs, right, last, trees, -, -, -, -, hpayload⟩ := readAttribute_start_iff.1 ⟨a, h, rfl⟩
  rw [Arguments.payload] at hpayload
  split at hpayload
  next es hes =>
    exact .inl ⟨es, (Except.ok.inj hpayload).symm⟩
  next => exact .inr ⟨_, (Except.ok.inj hpayload).symm⟩
  next => cases hpayload

/-- A reader gives what the text denotes and nothing else, and fails if the text denotes nothing. -/
structure Faithful (read : String → Except Error α) (text : String) (denotes : α → Prop) : Prop where
  reads : ∀ a, read text = .ok a ↔ denotes a
  refuses : (∀ a, ¬ denotes a) → ∃ e, read text = .error e

theorem Faithful.of_reads {read : String → Except Error α} {text : String} {denotes : α → Prop}
    (h : ∀ a, read text = .ok a ↔ denotes a) : Faithful read text denotes where
  reads := h
  refuses hnone := by
    cases hread : read text with
    | ok a => exact absurd ((h a).1 hread) (hnone a)
    | error e => exact ⟨e, rfl⟩

/-- The frames around a text do not change what it is read as. If it does not end in a comment, its own tokens
decide: parameters are read if they are balanced trees that are parameters, fields in braces or parentheses if
they are that, at their places in the frame, and nothing else is. If all literals have values, so have all
fields. And whatever the text, comments included, the frame comes to a list or a text, or to a struct. -/
theorem frames_are_faithful (chars : Charset) (text : String) :
    (¬ Lexed.EndsInComment text.toList → Token.AllDecode chars (ofText text).tokens →
      let placed := (ofText text).tokens.map (·.moved 9)
      Faithful (readParameters chars) text (fun es => (ofText text).stop = none ∧
        ∃ trees, Star IsTree (ofText text).tokens trees ∧ IsParams chars trees es) ∧
      Faithful (readNamedFields chars) text (fun fs => (ofText text).stop = none ∧
        ∃ fields, IsNamedFields placed fields ∧ fields.value chars = .ok (.named fs)) ∧
      Faithful (readTupleFields chars) text (fun fs => (ofText text).stop = none ∧
        ∃ fields, IsTupleFields placed fields ∧ fields.value chars = .ok (.tuple fs)) ∧
      (∀ fields, IsNamedFields placed fields → ∃ fs, fields.value chars = .ok (.named fs)) ∧
      ∀ fields, IsTupleFields placed fields → ∃ fs, fields.value chars = .ok (.tuple fs)) ∧
    (∀ a, readAttribute chars ("#[_(" ++ text ++ ")]") = .ok a →
      (∃ es, a.payload = .metadata (.list es)) ∨ ∃ words, a.payload = .verbatim words) ∧
    ∀ d, readDeclaration chars ("struct _ " ++ text) = .ok d ∨
        readDeclaration chars ("struct _ " ++ text ++ ";") = .ok d →
      ∃ fields semi, d.data = .struct fields semi := by
  refine ⟨fun hend hdecode => ?_, fun a h => ?_, ?_⟩
  · have hplaced := hdecode.moved 9
    exact ⟨.of_reads fun _ => readParameters_eq_ok_iff hend, .of_reads fun _ => readNamedFields_eq_ok_iff,
      .of_reads fun _ => readTupleFields_eq_ok_iff hend, fun _ h => h.exists_value hplaced,
      fun _ h => h.exists_value hplaced⟩
  · rw [String.append_assoc] at h
    exact payload_of_readAttribute_start h
  · rintro d (h | h)
    · obtain ⟨-, fields, list, -, -, rfl⟩ := readDeclaration_struct_iff.1 h
      exact ⟨_, _, rfl⟩
    · rw [String.append_assoc] at h
      obtain ⟨-, fields, list, -, -, rfl⟩ := readDeclaration_struct_iff.1 h
      exact ⟨_, _, rfl⟩

/-- A comment that would close the frame is passed over, a character can be given by its name, and a text that
closes the frame early is no parameters. -/
theorem frames_are_faithful_comment :
    let chars : Charset := .plain fun name => if name = "DIGIT NINE".toList then some '9' else none
    let parameters := "tag(a, // )]\n), k = \"\\N\x7bDIGIT NINE\x7d\""
    let early := "a)] #[b(c"
    let fields := "\x7b #[a(\"\x7d\")] // \x7d\n pub x: u8 \x7d"
    ¬ Lexed.EndsInComment parameters.toList ∧ Token.AllDecode chars (ofText parameters).tokens ∧
    (∃ es trees, readParameters chars parameters = .ok es ∧ Star IsTree (ofText parameters).tokens trees ∧
      IsParams chars trees es ∧ Entry.renderAll es = "tag(a), k = \"9\"") ∧
    (∀ es trees, Star IsTree (ofText early).tokens trees → ¬ IsParams chars trees es) ∧
    (∃ fs tree, readNamedFields chars fields = .ok fs ∧
      IsNamedFields ((ofText fields).tokens.map (·.moved 9)) tree ∧ tree.value chars = .ok (.named fs) ∧
      fs.map Field.loc = [some ⟨1, 12⟩]) ∧
    ∃ e, readTupleFields chars fields = .error e := by
  intro chars parameters early fields
  have hparameters : ¬ Lexed.EndsInComment parameters.toList ∧
      Token.AllDecode chars (ofText parameters).tokens := by
    decide +kernel
  have hearly : ¬ Lexed.EndsInComment early.toList ∧ Token.AllDecode chars (ofText early).tokens := by
    decide +kernel
  have hfields : ¬ Lexed.EndsInComment fields.toList ∧ Token.AllDecode chars (ofText fields).tokens := by
    decide +kernel
  have hread : (readParameters chars parameters).toOption.any
      (Entry.renderAll · == "tag(a), k = \"9\"") = true := by
    decide +kernel
  have hrefused : (ofText early).stop = none ∧ (readParameters chars early).toOption.isNone = true := by
    decide +kernel
  have hplaced : (readNamedFields chars fields).toOption.any (·.map Field.loc == [some ⟨1, 12⟩]) = true := by
    decide +kernel
  have htuple : (readTupleFields chars fields).toOption.isNone = true := by decide +kernel
  obtain ⟨hfaithful, -⟩ := (frames_are_faithful chars parameters).1 hparameters.1 hparameters.2
  obtain ⟨hfaithfulEarly, -⟩ := (frames_are_faithful chars early).1 hearly.1 hearly.2
  obtain ⟨-, hnamed, htupled, -⟩ := (frames_are_faithful chars fields).1 hfields.1 hfields.2
  refine ⟨hparameters.1, hparameters.2, ?_, ?_, ?_, ?_⟩
  · obtain ⟨es, hes, hrender⟩ := ok_of_any hread
    obtain ⟨-, trees, htrees, hparams⟩ := (hfaithful.reads es).1 hes
    exact ⟨es, trees, hes, htrees, hparams, eq_of_beq hrender⟩
  · intro es trees htrees hparams
    have hes := (hfaithfulEarly.reads es).2 ⟨hrefused.1, trees, htrees, hparams⟩
    rw [hes] at hrefused
    cases hrefused.2
  · obtain ⟨fs, hfs, hloc⟩ := ok_of_any hplaced
    obtain ⟨-, tree, htree, hvalue⟩ := (hnamed.reads fs).1 hfs
    exact ⟨fs, tree, hfs, htree, hvalue, eq_of_beq hloc⟩
  · apply htupled.refuses
    intro fs hfs
    rw [(htupled.reads fs).2 hfs] at htuple
    cases htuple

/-- A comment at the end swallows the semicolon of the frame, and one in the text takes its place. -/
example : Lexed.EndsInComment "(u8); //".toList ∧
    (readTupleFields (.plain fun _ => none) "(u8); //").toOption.isSome = true := by
  decide +kernel

end Source

end DeriveKit
