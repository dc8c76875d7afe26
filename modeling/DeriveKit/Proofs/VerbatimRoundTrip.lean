import DeriveKit.Proofs.AttributeRoundTrip
import DeriveKit.Proofs.Parameters

/-!
# Malformed arguments read back

Arguments that are no metadata are kept as the words of their trees with single spaces between them. These
words are lexed as the same tokens, so an attribute with such arguments is read again as the same trees, at
other places, and they are no metadata again (`verbatim_round_trip`).
-/
namespace DeriveKit

open DeriveKit.Grammar
open DeriveKit.Lexed (Lexes Boundary Lexeme)
open DeriveKit.Token (Kind)

variable {chars : Charset}

/-! ## Words without their places -/

namespace TokenTree

mutual

/-- The tree with all its tokens moved to the start of a text. -/
def unplaced : TokenTree → TokenTree
  | leaf t => leaf { t with pos := .start }
  | group trees => group (unplacedAll trees)

def unplacedAll : List TokenTree → List TokenTree
  | [] => []
  | tree :: trees => tree.unplaced :: unplacedAll trees

end

mutual

theorem item_unplaced : ∀ tree : TokenTree, Metadata.item chars tree.unplaced = Metadata.item chars tree
  | leaf _ => rfl
  | group trees => by rw [unplaced, Metadata.item, Metadata.item, items_unplacedAll trees]

/-- What trees contribute does not depend on their places. -/
theorem items_unplacedAll : ∀ trees : List TokenTree,
    Metadata.items chars (unplacedAll trees) = Metadata.items chars trees
  | [] => rfl
  | tree :: trees => by
    rw [unplacedAll, Metadata.items, Metadata.items, item_unplaced tree, items_unplacedAll trees]

end

mutual

theorem render_unplaced : ∀ tree : TokenTree, tree.unplaced.render = tree.render
  | leaf _ => rfl
  | group trees => by rw [unplaced, render, render, renderEach_unplacedAll trees]

theorem renderEach_unplacedAll : ∀ trees : List TokenTree, renderEach (unplacedAll trees) = renderEach trees
  | [] => rfl
  | tree :: trees => by
    rw [unplacedAll, renderEach, renderEach, render_unplaced tree, renderEach_unplacedAll trees]

end

end TokenTree

namespace Arguments

def unplaced : Arguments → Arguments
  | none => none
  | parens trees => parens (TokenTree.unplacedAll trees)
  | equals trees => equals (TokenTree.unplacedAll trees)

/-- What an attribute carries does not depend on the places of its words. -/
theorem payload_unplaced (arguments : Arguments) :
    arguments.unplaced.payload chars = arguments.payload chars := by
  cases arguments with
  | none => rfl
  | parens trees =>
    simp only [unplaced, payload, Metadata.entries, TokenTree.renderAll, TokenTree.items_unplacedAll,
      TokenTree.renderEach_unplacedAll]
  | equals trees =>
    simp only [unplaced, payload, TokenTree.renderAll, TokenTree.items_unplacedAll,
      TokenTree.renderEach_unplacedAll]

end Arguments

/-! ## The words of trees -/

namespace TokenTree

/-- Trees whose leaves are words that may stand in arguments. -/
def Written (trees : List TokenTree) : Prop :=
  ∀ t ∈ leavesAll trees, t.kind ∈ leafKinds ∧ Lexeme (some t.kind) t.text.toList

theorem written_cons {tree : TokenTree} {trees : List TokenTree} :
    Written (tree :: trees) ↔ Written [tree] ∧ Written trees := by
  simp only [Written, leavesAll, List.append_nil, List.forall_mem_append]

theorem written_group {trees : List TokenTree} : Written [group trees] ↔ Written trees := by
  simp only [Written, leavesAll, leaves, List.append_nil]

mutual

theorem leaf_of_isTree {ts : List Token} {tree : TokenTree} :
    IsTree ts tree → ∀ t ∈ tree.leaves, t ∈ ts ∧ t.kind ∈ leafKinds
  | .leaf h => by
    intro t ht
    rw [leaves, List.mem_singleton] at ht
    rw [ht]
    exact ⟨List.mem_cons_self, h⟩
  | .group _ h _ => by
    intro t ht
    rw [leaves] at ht
    obtain ⟨hmem, hkind⟩ := leaf_of_star h t ht
    exact ⟨List.mem_cons_of_mem _ (List.mem_append_left _ hmem), hkind⟩

/-- The leaves of trees are among their tokens. -/
theorem leaf_of_star {ts : List Token} {trees : List TokenTree} :
    Star IsTree ts trees → ∀ t ∈ leavesAll trees, t ∈ ts ∧ t.kind ∈ leafKinds
  | .nil => fun t ht => absurd ht List.not_mem_nil
  | .cons h hs => by
    intro t ht
    rw [leavesAll, List.mem_append] at ht
    rcases ht with ht | ht
    · obtain ⟨hmem, hkind⟩ := leaf_of_isTree h t ht
      exact ⟨List.mem_append_left _ hmem, hkind⟩
    · obtain ⟨hmem, hkind⟩ := leaf_of_star hs t ht
      exact ⟨List.mem_append_right _ hmem, hkind⟩

end

theorem written_of_star {ts : List Token} {trees : List TokenTree} (h : Star IsTree ts trees)
    (hts : ∀ t ∈ ts, Lexeme (some t.kind) t.text.toList) : Written trees := by
  intro t ht
  obtain ⟨hmem, hkind⟩ := leaf_of_star h t ht
  exact ⟨hkind, hts t hmem⟩

theorem renderAll_singleton (tree : TokenTree) : renderAll [tree] = tree.render :=
  String.intercalate_singleton

theorem renderAll_cons_cons (tree tree' : TokenTree) (trees : List TokenTree) :
    renderAll (tree :: tree' :: trees) = tree.render ++ " " ++ renderAll (tree' :: trees) :=
  String.intercalate_cons_cons

theorem unspaced_tree {tree : TokenTree} (h : Written [tree]) (rest : List Char) :
    Unspaced (tree.render.toList ++ rest) := by
  cases tree with
  | leaf t =>
    obtain ⟨-, hlexeme⟩ := h t (by simp [leavesAll, leaves])
    rw [render]
    exact hlexeme.isSpace_head rest
  | group trees =>
    rw [render, String.toList_append, String.toList_append]
    rintro _ ⟨⟩
    rfl

theorem unspaced_trees {tree : TokenTree} {trees : List TokenTree} (h : Written (tree :: trees))
    (rest : List Char) : Unspaced ((renderAll (tree :: trees)).toList ++ rest) := by
  have htree := (written_cons.1 h).1
  cases trees with
  | nil =>
    rw [renderAll_singleton]
    exact unspaced_tree htree rest
  | cons tree' trees =>
    simp only [renderAll_cons_cons, String.toList_append, List.append_assoc]
    exact unspaced_tree htree _

mutual

/-- A written tree is lexed as the tokens of that tree. -/
theorem lexes_tree : ∀ (tree : TokenTree) (rest : List Char), Written [tree] → Boundary rest →
    Lexes tree.render.toList rest fun ts => ∃ tree', IsTree ts tree' ∧ tree'.unplaced = tree.unplaced
  | leaf t, rest, h, hrest => by
    obtain ⟨hkind, hlexeme⟩ := h t (by simp [leavesAll, leaves])
    have hcolon : t.kind ≠ .colon := by
      intro hcolon
      simp [hcolon, leafKinds] at hkind
    rw [render]
    refine (hlexeme.lexes hcolon hrest).mono ?_
    rintro _ ⟨t', rfl, hkind', htext⟩
    rw [String.ofList_toList] at htext
    refine ⟨leaf t', .leaf (by rwa [hkind']), ?_⟩
    simp only [unplaced, hkind', htext]
  | group trees, rest, h, _ => by
    have hinner := lexes_parens
      (lexes_trees trees (')' :: rest) (written_group.1 h) (Lexed.boundary_cons (by decide)))
    rw [render, String.toList_append, String.toList_append, List.append_assoc]
    refine hinner.mono ?_
    rintro _ ⟨left, us, right, rfl, hleft, ⟨trees', htrees, hsame⟩, hright⟩
    exact ⟨group trees', .group hleft htrees hright, by rw [unplaced, unplaced, hsame]⟩

/-- Written trees are lexed as the tokens of those trees. -/
theorem lexes_trees : ∀ (trees : List TokenTree) (rest : List Char), Written trees → Boundary rest →
    Lexes (renderAll trees).toList rest fun ts =>
      ∃ trees', Star IsTree ts trees' ∧ unplacedAll trees' = unplacedAll trees
  | [], _, _, _ => by
    refine Lexed.Lexes.nil.mono ?_
    rintro _ rfl
    exact ⟨[], .nil, rfl⟩
  | [tree], rest, h, hrest => by
    rw [renderAll_singleton]
    refine (lexes_tree tree rest h hrest).mono ?_
    rintro ts ⟨tree', htree, hsame⟩
    exact ⟨[tree'], .single htree, by rw [unplacedAll, unplacedAll, hsame]; rfl⟩
  | tree :: tree' :: trees, rest, h, hrest => by
    obtain ⟨htree, hmore⟩ := written_cons.1 h
    have hblank := Lexed.lexes_blank (unspaced_trees hmore rest)
    have hrestLexes := hblank.append (lexes_trees (tree' :: trees) rest hmore hrest)
    have hfirst := lexes_tree tree (' ' :: ((renderAll (tree' :: trees)).toList ++ rest)) htree
      (Lexed.boundary_cons (by decide))
    rw [renderAll_cons_cons, String.toList_append, String.toList_append, List.append_assoc]
    refine (hfirst.append hrestLexes).mono ?_
    rintro _ ⟨us, _, rfl, ⟨first, hfirst, hsame⟩, _, vs, rfl, rfl, more, hmore, hsames⟩
    exact ⟨first :: more, .cons hfirst hmore, by rw [unplacedAll, hsame, hsames]; rfl⟩

end

end TokenTree

/-! ## Attributes -/

/-- A segment that was read is an identifier and no keyword. -/
theorem Segment.isPlain_of_isSegment {ts : List Token} {s : Segment} (h : IsSegment ts s)
    (hts : ∀ t ∈ ts, Lexeme (some t.kind) t.text.toList) : s.isPlain = true := by
  cases h with
  | @name t _ hkind htext =>
    have hlexeme := hts t List.mem_cons_self
    rw [hkind, htext] at hlexeme
    obtain ⟨c, cs, hchars, hc, hcs, hname⟩ := hlexeme.of_name
    rw [← hchars] at hname
    simp only [isPlain, hchars, hc, Bool.true_and, Bool.and_eq_true, List.all_eq_true, Bool.not_eq_true',
      List.contains_eq_mem, decide_eq_false_iff_not]
    refine ⟨hcs, fun hkeyword => ?_⟩
    simp only [keywords, List.mem_cons, List.not_mem_nil, or_false] at hkeyword
    rcases hkeyword with h | h | h | h | h | h <;> rw [h] at hname <;> cases hname

theorem Path.isPlain_of_steps {ts : List Token} {tail : List Segment} (h : Star IsStep ts tail)
    (hts : ∀ t ∈ ts, Lexeme (some t.kind) t.text.toList) : tail.all Segment.isPlain = true := by
  induction h with
  | nil => rfl
  | cons h _ ih =>
    obtain ⟨hstep, hrest⟩ := List.forall_mem_append.1 hts
    cases h with
    | sep _ hs =>
      have hsegment := Segment.isPlain_of_isSegment hs (List.forall_mem_cons.1 hstep).2
      rw [List.all_cons, hsegment, Bool.true_and, ih hrest]

theorem Path.isPlain_of_isPath {ts : List Token} {p : Path} (h : IsPath ts p)
    (hts : ∀ t ∈ ts, Lexeme (some t.kind) t.text.toList) : p.isPlain = true := by
  cases h with
  | mk hhead htail =>
    obtain ⟨hts, hus⟩ := List.forall_mem_append.1 hts
    rw [isPlain, List.all_cons, Segment.isPlain_of_isSegment hhead hts, Bool.true_and,
      isPlain_of_steps htail hus]

namespace Arguments

theorem eq_of_parens_verbatim {trees : List TokenTree} {words : String}
    (h : (parens trees).payload chars = .ok (.verbatim words)) :
    words = "(" ++ TokenTree.renderAll trees ++ ")" := by
  rw [payload] at h
  split at h <;> cases h
  rfl

theorem eq_of_equals_verbatim {trees : List TokenTree} {words : String}
    (h : (equals trees).payload chars = .ok (.verbatim words)) :
    words = "= " ++ TokenTree.renderAll trees := by
  rw [payload] at h
  split at h
  next value _ =>
    cases value <;> cases h
  next =>
    cases h
    rfl

/-- Arguments that are kept as text are lexed from that text as the same arguments. -/
theorem lexes_verbatim {ts : List Token} {arguments : Arguments} {words : String} {rest : List Char}
    (h : IsArguments ts arguments) (hts : ∀ t ∈ ts, Lexeme (some t.kind) t.text.toList)
    (hwords : arguments.payload chars = .ok (.verbatim words)) (hrest : Boundary rest) :
    Lexes (" ".toList ++ words.toList) rest fun us =>
      ∃ arguments', IsArguments us arguments' ∧ arguments'.unplaced = arguments.unplaced := by
  cases h with
  | none => cases hwords
  | @parens us left right trees hleft h hright =>
    have htrees : TokenTree.Written trees := TokenTree.written_of_star h fun t ht =>
      hts t (List.mem_cons_of_mem _ (List.mem_append_left _ ht))
    have hinner := lexes_parens
      (TokenTree.lexes_trees trees (')' :: rest) htrees (Lexed.boundary_cons (by decide)))
    have hblank : Lexes [' '] ('(' :: ((TokenTree.renderAll trees).toList ++ ")".toList) ++ rest) (· = []) :=
      Lexed.lexes_blank (by rintro _ ⟨⟩; rfl)
    rw [eq_of_parens_verbatim hwords, String.toList_append, String.toList_append, List.append_assoc]
    refine (hblank.append hinner).mono ?_
    rintro _ ⟨_, _, rfl, rfl, left, us, right, rfl, hleft, ⟨trees', htrees', hsame⟩, hright⟩
    exact ⟨.parens trees', .parens hleft htrees' hright, by rw [unplaced, unplaced, hsame]⟩
  | @equals us eq trees heq h hne =>
    have htrees : TokenTree.Written trees := TokenTree.written_of_star h fun t ht =>
      hts t (List.mem_cons_of_mem _ ht)
    cases trees with
    | nil => exact absurd rfl hne
    | cons tree trees =>
      have hinner := lexes_equals (TokenTree.lexes_trees (tree :: trees) rest htrees hrest)
        (TokenTree.unspaced_trees htrees rest)
      have htext : " ".toList ++ words.toList =
          " = ".toList ++ (TokenTree.renderAll (tree :: trees)).toList := by
        rw [eq_of_equals_verbatim hwords, String.toList_append]
        rfl
      rw [htext]
      refine hinner.mono ?_
      rintro _ ⟨eq, us, rfl, heq, trees', htrees', hsame⟩
      refine ⟨.equals trees', .equals heq htrees' ?_, by rw [unplaced, unplaced, hsame]⟩
      rintro rfl
      cases hsame

end Arguments

theorem Payload.eq_verbatim_of_same {payload : Payload} {words : String}
    (h : payload.same (.verbatim words) = true) : payload = .verbatim words := by
  cases payload with
  | metadata m => cases h
  | verbatim text => rw [eq_of_beq h]

theorem Source.read_attrTrees {text : String} {ts : List Token} {p : Path} {arguments : Arguments}
    {loc : Option Position} (hcut : Lexed.Cut .start text.toList [] ts)
    (h : IsAttribute ts ⟨p, arguments, loc⟩) : read Reader.attrTrees text = .ok ((p, arguments), loc) :=
  (read_eq_ok_iff_of_exact Reader.exact_attrTrees).2 ⟨ts, hcut, h⟩

/-- An attribute whose arguments are kept as text can be written, and so that it reads back as itself, at
the start of its own text. The trees of its arguments are read back too, each word with its kind and its
text. What names of characters stand for does not matter, as long as it is the same both times. -/
theorem verbatim_round_trip (chars : Charset) (text : String) (a : Attribute) (words : String)
    (h : Source.readAttribute chars text = .ok a) (hwords : a.payload = .verbatim words) :
    a.render? = some a.render ∧
    Source.readAttribute chars a.render = .ok { a with loc := some .start } ∧
    ∃ arguments arguments',
      Source.read Reader.attrTrees text = .ok ((a.path, arguments), a.loc) ∧
      Source.read Reader.attrTrees a.render = .ok ((a.path, arguments'), some .start) ∧
      arguments'.unplaced = arguments.unplaced := by
  obtain ⟨ts, ⟨p, arguments, loc⟩, hcut, htree, hvalue⟩ := Source.readAttribute_eq_ok_iff.1 h
  obtain ⟨payload, hpayload, rfl⟩ := ok_of_map hvalue
  subst hwords
  have hread := Source.read_attrTrees hcut htree
  -- The words of the attribute are those of its path and of its arguments.
  have hwords := hcut.lexemes
  cases htree with
  | @mk ps as hash left right _ _ _ _ hp hargs _ =>
    have hps : ∀ t ∈ ps, Lexeme (some t.kind) t.text.toList := fun t ht => hwords t (by simp [ht])
    have has : ∀ t ∈ as, Lexeme (some t.kind) t.text.toList := fun t ht => hwords t (by simp [ht])
    obtain ⟨us, arguments', hcut', htree', hsame⟩ := lexes_attribute (Path.isPlain_of_isPath hp hps)
      (Lexed.boundary_cons (by decide))
      (Arguments.lexes_verbatim hargs has hpayload (Lexed.boundary_cons (by decide)))
    have hcut' : Lexed.Cut .start (Attribute.render ⟨p, .verbatim words, some hash.pos⟩).toList [] us := by
      rw [Attribute.toList_render, Payload.render, String.toList_append]
      exact hcut'
    have hpayload' : arguments'.payload chars = .ok (.verbatim words) := by
      rw [← Arguments.payload_unplaced, hsame, Arguments.payload_unplaced, hpayload]
    refine ⟨rfl, Source.readAttribute_eq_ok_iff.2 ⟨us, _, hcut', htree', ?_⟩, arguments, arguments', hread,
      Source.read_attrTrees hcut' htree', hsame⟩
    rw [AttributeTree.value, hpayload']
    rfl

/-- Comments and blanks go, and a text literal that looks like a comment stays, with its escapes. -/
theorem verbatim_round_trip_spaced :
    let chars : Charset := .plain fun name =>
      if name = "LATIN SMALL LETTER X".toList then some 'x' else none
    let text := "#[ns // note\n( a b,(\"// \\N\x7bLATIN SMALL LETTER X\x7d\"   1.50) ::)]"
    let words := "(a b , (\"// \\N\x7bLATIN SMALL LETTER X\x7d\" 1.50) ::)"
    ∃ a, Source.readAttribute chars text = .ok a ∧ a.payload = .verbatim words ∧
      a.render = "#[ns " ++ words ++ "]" ∧ a.render? = some a.render ∧
      Source.readAttribute chars a.render = .ok { a with loc := some .start } := by
  intro chars text words
  have hread : (Source.readAttribute chars text).toOption.any
      (fun a => a.payload.same (.verbatim words) && a.render == "#[ns " ++ words ++ "]") = true := by
    decide +kernel
  obtain ⟨a, ha, htest⟩ := ok_of_any hread
  rw [Bool.and_eq_true, beq_iff_eq] at htest
  have hwords := Payload.eq_verbatim_of_same htest.1
  obtain ⟨hrender, hagain, -⟩ := verbatim_round_trip chars text a words ha hwords
  exact ⟨a, ha, hwords, htest.2, hrender, hagain⟩

end DeriveKit
