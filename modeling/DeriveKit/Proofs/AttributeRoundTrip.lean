import DeriveKit.Proofs.EntryTrees
import DeriveKit.Proofs.FirstError
import DeriveKit.Proofs.LiteralText
import DeriveKit.Proofs.Words

/-!
# Attributes read back

An attribute with metadata is written so that it reads back as itself, as long as its paths are names
that a text can hold and its literals are texts, flags or natural numbers of no more digits than are
read (`attribute_round_trip`). The written text is lexed word by word, the tokens are trees, and the
trees stand for the entries that were written.
-/
namespace DeriveKit

open DeriveKit.Grammar
open DeriveKit.Lexed (Lexes Boundary Single isNameStart isNameChar nameKind)
open DeriveKit.Token (Kind)

/-! ## What can be read back -/

/-- An ASCII identifier that is no keyword. -/
def Segment.isPlain (s : Segment) : Bool :=
  match s.val.toList with
  | [] => false
  | c :: cs => isNameStart c && cs.all isNameChar && !keywords.contains s.val

def Path.isPlain (p : Path) : Bool := (p.head :: p.tail).all Segment.isPlain

/-- Texts, flags, and natural numbers of at most 4300 digits. -/
def Literal.isPlain : Literal → Bool
  | text _ | flag _ => true
  | int n => 0 ≤ n && (Text.decimal n.toNat).length ≤ 4300
  | real _ => false

mutual
/-- An entry whose paths and literals are plain, at any depth. -/
def Entry.isPlain : Entry → Bool
  | .path p => p.isPlain
  | .list p es => p.isPlain && allPlain es
  | .literal v => v.isPlain
  | .keyValue p v => p.isPlain && v.isPlain

def Entry.allPlain : List Entry → Bool
  | [] => true
  | e :: es => e.isPlain && allPlain es
end

def Meta.isPlain : Meta → Bool
  | marker => true
  | list es => Entry.allPlain es
  | keyValue v => v.isPlain

/-- An attribute whose arguments are metadata, with plain paths and literals. -/
def Attribute.isPlain (a : Attribute) : Bool :=
  a.path.isPlain && match a.payload with
    | .metadata m => m.isPlain
    | .verbatim _ => false

/-! ## Paths -/

/-- A plain segment starts with the first character of a name. -/
theorem Segment.exists_cons {s : Segment} (hs : s.isPlain = true) :
    ∃ c cs, s.val.toList = c :: cs ∧ isNameStart c = true ∧ (∀ d ∈ cs, isNameChar d = true) ∧
      nameKind (c :: cs) = .name := by
  unfold Segment.isPlain at hs
  split at hs
  next => cases hs
  next c cs h =>
    simp only [Bool.and_eq_true, List.all_eq_true, Bool.not_eq_true', List.contains_eq_mem,
      decide_eq_false_iff_not] at hs
    obtain ⟨⟨hc, hcs⟩, hkeyword⟩ := hs
    exact ⟨c, cs, h, hc, hcs, by rw [← h]; exact Lexed.nameKind_of_not_keyword hkeyword⟩

theorem lexes_segment {s : Segment} {rest : List Char} (hs : s.isPlain = true) (hrest : Boundary rest) :
    Lexes s.val.toList rest (IsSegment · s) := by
  obtain ⟨c, cs, h, hc, hcs, hkind⟩ := Segment.exists_cons hs
  rw [h]
  refine (Lexed.lexes_name hc hcs hrest).mono ?_
  rintro _ ⟨t, rfl, ht, htext⟩
  rw [hkind] at ht
  rw [← h, String.ofList_toList] at htext
  exact .name ht htext

namespace Path

/-- The steps of a path as they are written. -/
def writtenSteps (tail : List Segment) : List Char := tail.flatMap fun s => ':' :: ':' :: s.val.toList

theorem toList_render (head : Segment) (tail : List Segment) :
    (render ⟨head, tail⟩).toList = head.val.toList ++ writtenSteps tail := by
  induction tail generalizing head with
  | nil => simp [render, renderWith, segments, writtenSteps]
  | cons s tail ih =>
    have h : render ⟨head, s :: tail⟩ = head.val ++ "::" ++ render ⟨s, tail⟩ :=
      String.intercalate_cons_cons
    rw [h, String.toList_append, String.toList_append, ih]
    simp [writtenSteps]

end Path

theorem boundary_writtenSteps (tail : List Segment) {rest : List Char} (hrest : Boundary rest) :
    Boundary (Path.writtenSteps tail ++ rest) := by
  cases tail with
  | nil => exact hrest
  | cons s tail => exact Lexed.boundary_cons (by decide)

theorem lexes_steps {tail : List Segment} {rest : List Char} (htail : ∀ s ∈ tail, s.isPlain = true)
    (hrest : Boundary rest) : Lexes (Path.writtenSteps tail) rest (Star IsStep · tail) := by
  induction tail with
  | nil => exact Lexed.Lexes.nil.mono fun ts hts => hts ▸ .nil
  | cons s tail ih =>
    have hs := lexes_segment (htail s List.mem_cons_self) (boundary_writtenSteps tail hrest)
    have hsteps := ih fun s hs => htail s (List.mem_cons_of_mem _ hs)
    have hall := (Lexed.lexes_colons _).append (hs.append hsteps)
    refine hall.mono ?_
    rintro _ ⟨_, _, rfl, ⟨sep, rfl, hsep, -⟩, us, vs, rfl, hus, hvs⟩
    show Star IsStep ((sep :: us) ++ vs) _
    exact .cons (.sep hsep hus) hvs

theorem lexes_path {p : Path} {rest : List Char} (hp : p.isPlain = true) (hrest : Boundary rest) :
    Lexes p.render.toList rest (IsPath · p) := by
  obtain ⟨head, tail⟩ := p
  simp only [Path.isPlain, List.all_cons, Bool.and_eq_true, List.all_eq_true] at hp
  rw [Path.toList_render]
  refine ((lexes_segment hp.1 (boundary_writtenSteps tail hrest)).append
    (lexes_steps hp.2 hrest)).mono ?_
  rintro _ ⟨us, vs, rfl, hus, hvs⟩
  exact .mk hus hvs

/-! ## Literals -/

theorem stringBody_written (cs : List Char) : Lexed.StringBody (cs.flatMap Literal.writtenChar) := by
  induction cs with
  | nil => exact .nil
  | cons c cs ih =>
    rw [List.flatMap_cons, Literal.writtenChar]
    split
    next => exact .escape (by decide) ih
    next hslash =>
      split
      next => exact .escape (by decide) ih
      next hquote => exact .plain hquote hslash ih

variable {chars : Charset} {named : List Char → Option Char}

/-- The token of a literal. -/
def Writes (chars : Charset) (v : Literal) (ts : List Token) : Prop :=
  ∃ t : Token, ts = [t] ∧ t.kind ∈ leafKinds ∧ Metadata.leafItem chars t = .literal (.ok v)

theorem lexes_text (s : String) (rest : List Char) :
    Lexes (Literal.render (.text s)).toList rest (Writes (.plain named) (.text s)) := by
  rw [Literal.render, String.toList_ofList]
  refine (Lexed.lexes_string (stringBody_written s.toList) rest).mono ?_
  rintro _ ⟨t, rfl, hkind, htext⟩
  refine ⟨t, rfl, by simp [hkind, leafKinds], ?_⟩
  have htext : t.text = Literal.render (.text s) := htext
  simp only [Metadata.leafItem, Metadata.literal?, hkind, htext, Literal.decodeText_render]
  rfl

theorem toList_render_int (n : Nat) : (Literal.render (.int n)).toList = Nat.toDigits 10 n := by
  have hsign : ¬ (n : Int) < 0 := by omega
  rw [Literal.render, Text.signedDecimal, if_neg hsign, Text.decimal, String.toList_ofList]
  rfl

theorem exists_digits (n : Nat) :
    ∃ c cs, Nat.toDigits 10 n = c :: cs ∧ Text.isDigit c = true ∧ ∀ d ∈ cs, Text.isDigit d = true := by
  cases h : Nat.toDigits 10 n with
  | nil => exact absurd h Nat.toDigits_ne_nil
  | cons c cs =>
    have hdigits : ∀ d ∈ c :: cs, Text.isDigit d = true :=
      fun d hd => Literal.isDigit_of_mem_toDigits (h ▸ hd)
    exact ⟨c, cs, rfl, List.forall_mem_cons.1 hdigits⟩

theorem lexes_int {n : Nat} {rest : List Char} (hn : (Nat.toDigits 10 n).length ≤ 4300)
    (hrest : Boundary rest) : Lexes (Literal.render (.int n)).toList rest (Writes chars (.int n)) := by
  obtain ⟨c, cs, h, hc, hcs⟩ := exists_digits n
  rw [toList_render_int, h]
  refine (Lexed.lexes_int hc hcs hrest.endsNumber).mono ?_
  rintro _ ⟨t, rfl, hkind, htext⟩
  refine ⟨t, rfl, by simp [hkind, leafKinds], ?_⟩
  rw [← h] at htext
  have htext : t.text = Text.decimal n := htext
  simp only [Metadata.leafItem, Metadata.literal?, hkind, htext, Literal.decodeInt_decimal hn]
  rfl

theorem lexes_flag (b : Bool) {rest : List Char} (hrest : Boundary rest) :
    Lexes (Literal.render (.flag b)).toList rest (Writes chars (.flag b)) := by
  cases b with
  | true =>
    have hword : Lexes "true".toList rest (Single .trueWord "true".toList) :=
      Lexed.lexes_name rfl (List.all_eq_true.1 rfl) hrest
    refine hword.mono ?_
    rintro _ ⟨t, rfl, hkind, -⟩
    exact ⟨t, rfl, by simp [hkind, leafKinds], by simp [Metadata.leafItem, Metadata.literal?, hkind]⟩
  | false =>
    have hword : Lexes "false".toList rest (Single .falseWord "false".toList) :=
      Lexed.lexes_name rfl (List.all_eq_true.1 rfl) hrest
    refine hword.mono ?_
    rintro _ ⟨t, rfl, hkind, -⟩
    exact ⟨t, rfl, by simp [hkind, leafKinds], by simp [Metadata.leafItem, Metadata.literal?, hkind]⟩

theorem lexes_literal {v : Literal} {rest : List Char} (hv : v.isPlain = true) (hrest : Boundary rest) :
    Lexes v.render.toList rest (Writes (.plain named) v) := by
  cases v with
  | text s => exact lexes_text s rest
  | real x => cases hv
  | flag b => exact lexes_flag b hrest
  | int n =>
    simp only [Literal.isPlain, Bool.and_eq_true, decide_eq_true_eq] at hv
    obtain ⟨hsign, hlen⟩ := hv
    obtain ⟨n, rfl⟩ := Int.eq_ofNat_of_zero_le hsign
    refine lexes_int ?_ hrest
    simpa [Text.decimal] using hlen

/-! ## Entries -/

/-- No blank stands in front of these characters. -/
def Unspaced (cs : List Char) : Prop := ∀ c ∈ cs.head?, Lexed.isSpace c = false

theorem unspaced_cons {c : Char} {cs : List Char} (hc : isNameStart c = true ∨ Text.isDigit c = true) :
    Unspaced (c :: cs) := by
  rintro _ ⟨⟩
  cases hs : Lexed.isSpace c with
  | false => rfl
  | true => simp [Lexed.isNameStart_of_isSpace hs, Lexed.isDigit_of_isSpace hs] at hc

theorem unspaced_path {p : Path} (hp : p.isPlain = true) (rest : List Char) :
    Unspaced (p.render.toList ++ rest) := by
  obtain ⟨head, tail⟩ := p
  simp only [Path.isPlain, List.all_cons, Bool.and_eq_true] at hp
  obtain ⟨c, cs, h, hc, -⟩ := Segment.exists_cons hp.1
  rw [Path.toList_render, h]
  exact unspaced_cons (.inl hc)

theorem unspaced_literal {v : Literal} (hv : v.isPlain = true) (rest : List Char) :
    Unspaced (v.render.toList ++ rest) := by
  cases v with
  | text s =>
    rw [Literal.render, String.toList_ofList]
    rintro _ ⟨⟩
    rfl
  | real x => cases hv
  | flag b => cases b <;> exact unspaced_cons (.inl rfl)
  | int n =>
    simp only [Literal.isPlain, Bool.and_eq_true, decide_eq_true_eq] at hv
    obtain ⟨n, rfl⟩ := Int.eq_ofNat_of_zero_le hv.1
    obtain ⟨c, cs, h, hc, -⟩ := exists_digits n
    rw [toList_render_int, h]
    exact unspaced_cons (.inr hc)

/-- No blank stands in front of an entry, as none stands in front of its path or its literal. -/
theorem unspaced_entry {e : Entry} (hp : ∀ p ∈ e.path?, p.isPlain = true)
    (hv : ∀ v rest, e = .literal v → Unspaced (v.render.toList ++ rest)) (rest : List Char) :
    Unspaced (e.render.toList ++ rest) := by
  cases e with
  | path p => exact unspaced_path (hp p rfl) rest
  | list p es =>
    simp only [Entry.render, String.toList_append, List.append_assoc]
    exact unspaced_path (hp p rfl) _
  | literal v => exact hv v rest rfl
  | keyValue p v =>
    simp only [Entry.render, String.toList_append, List.append_assoc]
    exact unspaced_path (hp p rfl) _

theorem Entry.renderAll_singleton (e : Entry) : renderAll [e] = e.render := String.intercalate_singleton

theorem Entry.renderAll_cons_cons (e e' : Entry) (es : List Entry) :
    renderAll (e :: e' :: es) = e.render ++ ", " ++ renderAll (e' :: es) := String.intercalate_cons_cons

theorem unspaced_entries {e : Entry} (he : ∀ rest, Unspaced (e.render.toList ++ rest)) (es : List Entry)
    (rest : List Char) : Unspaced ((Entry.renderAll (e :: es)).toList ++ rest) := by
  cases es with
  | nil =>
    rw [Entry.renderAll_singleton]
    exact he rest
  | cons e' es =>
    simp only [Entry.renderAll_cons_cons, String.toList_append, List.append_assoc]
    exact he _

section Marks

variable {text rest : List Char} {P : List Token → Prop}

theorem lexes_commaMark (hrest : Unspaced rest) : Lexes ", ".toList rest (Single .comma [',']) := by
  refine ((Lexed.lexes_mark ',' rfl (by decide) _).append (Lexed.lexes_blank hrest)).mono ?_
  rintro _ ⟨us, _, rfl, hus, rfl⟩
  rwa [List.append_nil]

theorem lexes_equalsMark (hrest : Unspaced rest) : Lexes " = ".toList rest (Single .equals ['=']) := by
  have hblank : Lexes [' '] ('=' :: ' ' :: rest) (· = []) := Lexed.lexes_blank (by rintro _ ⟨⟩; rfl)
  have hmark := Lexed.lexes_mark '=' rfl (by decide) (' ' :: rest)
  refine (hblank.append (hmark.append (Lexed.lexes_blank hrest))).mono ?_
  rintro _ ⟨_, _, rfl, rfl, us, _, rfl, hus, rfl⟩
  rwa [List.nil_append, List.append_nil]

theorem lexes_comma (h : Lexes text rest P) (htext : Unspaced (text ++ rest)) :
    Lexes (", ".toList ++ text) rest fun ts =>
      ∃ comma us, ts = comma :: us ∧ comma.kind = .comma ∧ P us := by
  refine ((lexes_commaMark htext).append h).mono ?_
  rintro _ ⟨_, us, rfl, ⟨comma, rfl, hcomma, -⟩, hus⟩
  exact ⟨comma, us, rfl, hcomma, hus⟩

theorem lexes_equals (h : Lexes text rest P) (htext : Unspaced (text ++ rest)) :
    Lexes (" = ".toList ++ text) rest fun ts => ∃ eq us, ts = eq :: us ∧ eq.kind = .equals ∧ P us := by
  refine ((lexes_equalsMark htext).append h).mono ?_
  rintro _ ⟨_, us, rfl, ⟨eq, rfl, heq, -⟩, hus⟩
  exact ⟨eq, us, rfl, heq, hus⟩

/-- A text between two marks. -/
theorem lexes_enclosed (l r : Char) {left right : Kind} (hl : Lexed.markKind? l = some left)
    (hr : Lexed.markKind? r = some right) (hlcolon : l ≠ ':') (hrcolon : r ≠ ':')
    (h : Lexes text (r :: rest) P) :
    Lexes (l :: (text ++ [r])) rest fun ts =>
      ∃ a us b, ts = a :: (us ++ [b]) ∧ a.kind = left ∧ P us ∧ b.kind = right := by
  have hleft := Lexed.lexes_mark l hl hlcolon (text ++ [r] ++ rest)
  have hright := Lexed.lexes_mark r hr hrcolon rest
  refine (hleft.append (h.append hright)).mono ?_
  rintro _ ⟨_, _, rfl, ⟨a, rfl, ha, -⟩, us, _, rfl, hus, b, rfl, hb, -⟩
  exact ⟨a, us, b, rfl, ha, hus, hb⟩

theorem lexes_parens (h : Lexes text (')' :: rest) P) :
    Lexes ("(".toList ++ (text ++ ")".toList)) rest fun ts => ∃ left us right,
      ts = left :: (us ++ [right]) ∧ left.kind = .leftParen ∧ P us ∧ right.kind = .rightParen :=
  lexes_enclosed '(' ')' rfl rfl (by decide) (by decide) h

end Marks

/-- The literal `v` is written as the token of `w`. -/
structure Literal.ReadsAs (chars : Charset) (v w : Literal) : Prop where
  unspaced : ∀ rest, Unspaced (v.render.toList ++ rest)
  lexes : ∀ rest, Boundary rest → Lexes v.render.toList rest (Writes chars w)

mutual

/-- Entries of the same form with the same plain paths, at every depth, whose literals read as those of the
other. -/
inductive Entry.ReadsAs (chars : Charset) : Entry → Entry → Prop
  | path {p : Path} (hp : p.isPlain = true) : Entry.ReadsAs chars (.path p) (.path p)
  | list {p : Path} {es fs : List Entry} (hp : p.isPlain = true) (h : Entry.ReadAllAs chars es fs) :
      Entry.ReadsAs chars (.list p es) (.list p fs)
  | literal {v w : Literal} (h : v.ReadsAs chars w) : Entry.ReadsAs chars (.literal v) (.literal w)
  | keyValue {p : Path} {v w : Literal} (hp : p.isPlain = true) (h : v.ReadsAs chars w) :
      Entry.ReadsAs chars (.keyValue p v) (.keyValue p w)

inductive Entry.ReadAllAs (chars : Charset) : List Entry → List Entry → Prop
  | nil : Entry.ReadAllAs chars [] []
  | cons {e f : Entry} {es fs : List Entry} (h : Entry.ReadsAs chars e f)
      (hs : Entry.ReadAllAs chars es fs) : Entry.ReadAllAs chars (e :: es) (f :: fs)

end

theorem Entry.ReadsAs.unspaced {e f : Entry} (h : e.ReadsAs chars f) (rest : List Char) :
    Unspaced (e.render.toList ++ rest) := by
  refine unspaced_entry ?_ ?_ rest
  · cases h with
    | path hp | list hp | keyValue hp =>
      rintro _ ⟨⟩
      exact hp
    | literal =>
      intro p hp
      cases hp
  · rintro v rest rfl
    cases h with
    | literal h => exact h.unspaced rest

mutual

/-- A written entry is lexed as the tokens of trees that stand for what it reads as. -/
theorem lexes_entry : ∀ {e f : Entry}, e.ReadsAs chars f → ∀ rest, Boundary rest →
    Lexes e.render.toList rest fun ts => ∃ trees, Star IsTree ts trees ∧ Metadata.Stands chars trees f
  | _, _, .path hp, rest, hrest => by
    refine (lexes_path hp hrest).mono fun ts hts => ?_
    obtain ⟨trees, htrees, hitems⟩ := Metadata.trees_of_path hts
    exact ⟨trees, htrees, .path hitems⟩
  | _, _, .literal h, rest, hrest => by
    refine (h.lexes rest hrest).mono ?_
    rintro _ ⟨t, rfl, hkind, hitem⟩
    exact ⟨[.leaf t], .single (.leaf hkind), .literal hitem⟩
  | _, _, .keyValue hp h, rest, hrest => by
    have hvalue := lexes_equals (h.lexes rest hrest) (h.unspaced rest)
    rw [Entry.render, String.toList_append, String.toList_append, List.append_assoc]
    refine ((lexes_path hp (Lexed.boundary_cons (by decide))).append hvalue).mono ?_
    rintro _ ⟨ps, _, rfl, hp, eq, _, rfl, heq, t, rfl, hkind, hitem⟩
    obtain ⟨trees, htrees, hitems⟩ := Metadata.trees_of_path hp
    have heqTree : IsTree [eq] (.leaf eq) := .leaf (by simp [heq, leafKinds])
    have htTree : IsTree [t] (.leaf t) := .leaf hkind
    exact ⟨_, htrees.append ((Star.single heqTree).append (.single htTree)), .keyValue hitems heq hitem⟩
  | _, _, .list hp h, rest, _ => by
    have hinner := lexes_parens (lexes_entries h (')' :: rest) (Lexed.boundary_cons (by decide)))
    rw [Entry.render, String.toList_append, String.toList_append, String.toList_append, List.append_assoc,
      List.append_assoc]
    refine ((lexes_path hp (Lexed.boundary_cons (by decide))).append hinner).mono ?_
    rintro _ ⟨ps, _, rfl, hp, left, us, right, rfl, hleft, ⟨inner, hinner, hes⟩, hright⟩
    obtain ⟨trees, htrees, hitems⟩ := Metadata.trees_of_path hp
    exact ⟨_, htrees.append (.single (.group hleft hinner hright)), .list hitems hes⟩

/-- Written entries are lexed as the tokens of trees that stand for what they read as. -/
theorem lexes_entries : ∀ {es fs : List Entry}, Entry.ReadAllAs chars es fs → ∀ rest, Boundary rest →
    Lexes (Entry.renderAll es).toList rest fun ts =>
      ∃ trees, Star IsTree ts trees ∧ Metadata.entries chars trees = .ok fs
  | _, _, .nil, rest, _ => by
    refine Lexed.Lexes.nil.mono ?_
    rintro _ rfl
    exact ⟨[], .nil, rfl⟩
  | _, _, .cons h .nil, rest, hrest => by
    rw [Entry.renderAll_singleton]
    refine (lexes_entry h rest hrest).mono ?_
    rintro ts ⟨trees, htrees, hstands⟩
    exact ⟨trees, htrees, hstands.entries⟩
  | _, _, .cons h (.cons h' hs), rest, hrest => by
    have hmore := lexes_comma (lexes_entries (.cons h' hs) rest hrest) (unspaced_entries h'.unspaced _ rest)
    -- The comma ends the first entry, and the next one ends the blank behind the comma.
    rw [Entry.renderAll_cons_cons, String.toList_append, String.toList_append, List.append_assoc]
    refine ((lexes_entry h _ (Lexed.boundary_cons (by decide))).append hmore).mono ?_
    rintro _ ⟨us, _, rfl, ⟨trees, htrees, hstands⟩, comma, vs, rfl, hcomma, more, hmore, hes⟩
    have hleaf : IsTree [comma] (.leaf comma) := .leaf (by simp [hcomma, leafKinds])
    exact ⟨_, htrees.append (.cons hleaf hmore), hstands.entries_cons hcomma hes⟩

end

/-! ## Attributes -/

inductive Meta.ReadsAs (chars : Charset) : Meta → Meta → Prop
  | marker : Meta.ReadsAs chars .marker .marker
  | list {es fs : List Entry} (h : Entry.ReadAllAs chars es fs) : Meta.ReadsAs chars (.list es) (.list fs)
  | keyValue {v w : Literal} (h : v.ReadsAs chars w) : Meta.ReadsAs chars (.keyValue v) (.keyValue w)

theorem lexes_meta {m n : Meta} {rest : List Char} (h : m.ReadsAs chars n) (hrest : Boundary rest) :
    Lexes m.render.toList rest fun ts =>
      ∃ arguments, IsArguments ts arguments ∧ arguments.payload chars = .ok (.metadata n) := by
  cases h with
  | marker =>
    refine Lexed.Lexes.nil.mono ?_
    rintro _ rfl
    exact ⟨.none, .none, rfl⟩
  | list h =>
    have hinner := lexes_parens (lexes_entries h (')' :: rest) (Lexed.boundary_cons (by decide)))
    rw [Meta.render, String.toList_append, String.toList_append, List.append_assoc]
    refine hinner.mono ?_
    rintro _ ⟨left, us, right, rfl, hleft, ⟨trees, htrees, hes⟩, hright⟩
    exact ⟨.parens trees, .parens hleft htrees hright, by rw [Arguments.payload, hes]⟩
  | keyValue h =>
    have hvalue := lexes_equals (h.lexes rest hrest) (h.unspaced rest)
    rw [Meta.render, String.toList_append]
    refine hvalue.mono ?_
    rintro _ ⟨eq, _, rfl, heq, t, rfl, hkind, hitem⟩
    refine ⟨.equals [.leaf t], .equals heq (.single (.leaf hkind)) nofun, ?_⟩
    rw [Arguments.payload, Metadata.items, Metadata.items, Metadata.item, hitem]
    rfl

theorem boundary_meta (m : Meta) (rest : List Char) : Boundary (m.render.toList ++ ']' :: rest) := by
  cases m with
  | marker => exact Lexed.boundary_cons (by decide)
  | list es =>
    rw [Meta.render, String.toList_append, String.toList_append]
    exact Lexed.boundary_cons (by decide)
  | keyValue v =>
    rw [Meta.render, String.toList_append]
    exact Lexed.boundary_cons (by decide)

/-- A written path and written arguments in brackets are lexed as an attribute. -/
theorem lexes_attribute {p : Path} {written : List Char} {P : Arguments → Prop} (hp : p.isPlain = true)
    (hboundary : Boundary (written ++ [']']))
    (h : Lexes written [']'] fun ts => ∃ arguments, IsArguments ts arguments ∧ P arguments) :
    ∃ ts arguments, Lexed.Cut .start ('#' :: '[' :: (p.render.toList ++ (written ++ [']']))) [] ts ∧
      IsAttribute ts ⟨p, arguments, some .start⟩ ∧ P arguments := by
  have hleft := Lexed.lexes_mark '[' rfl (by decide) (p.render.toList ++ (written ++ [']']) ++ [])
  have hright := Lexed.lexes_mark ']' rfl (by decide) []
  have hpath := (lexes_path hp (by simpa using hboundary)).append (h.append hright)
  obtain ⟨_, hcut, _, _, rfl, ⟨left, rfl, hleft, -⟩, ps, _, rfl, hps, as, _, rfl,
    ⟨arguments, hargs, hP⟩, right, rfl, hright, -⟩ := hleft.append hpath (Position.start.advance ['#'])
  -- The place of the first mark is the place of the attribute.
  have hhash := Lexed.cut_mark '#' rfl (by decide) .start
    (['['] ++ (p.render.toList ++ (written ++ [']'])) ++ [])
  have hattribute : IsAttribute (⟨.hash, String.ofList ['#'], .start⟩ :: left :: (ps ++ as ++ [right]))
      ⟨p, arguments, some .start⟩ := .mk rfl hleft hps hargs hright
  exact ⟨_, arguments, hhash.append hcut, by simpa using hattribute, hP⟩

theorem Attribute.toList_render (a : Attribute) :
    a.render.toList = '#' :: '[' :: (a.path.render.toList ++ (a.payload.render.toList ++ [']'])) := by
  simp [Attribute.render]

/-- A text is read as an attribute exactly if it is cut into the tokens of one. -/
theorem Source.readAttribute_eq_ok_iff {text : String} {a : Attribute} :
    readAttribute chars text = .ok a ↔
      ∃ ts tree, Lexed.Cut .start text.toList [] ts ∧ IsAttribute ts tree ∧ tree.value chars = .ok a := by
  constructor
  · intro h
    obtain ⟨value, hread, hvalue⟩ := ok_of_bind h
    obtain ⟨ts, hcut, tree, htree, rfl⟩ := (Symbol.read_eq_ok_iff (s := .attr)).1 hread
    exact ⟨ts, tree, hcut, htree, ok_of_mapError hvalue⟩
  · rintro ⟨ts, tree, hcut, htree, hvalue⟩
    have hread : read (Reader.attr chars) text = .ok (.ok a) :=
      (Symbol.read_eq_ok_iff (s := .attr)).2 ⟨ts, hcut, tree, htree, hvalue⟩
    rw [readAttribute, readValue, hread]
    rfl

/-- A written attribute reads as one with the same path and what the metadata reads as. -/
theorem Source.readAttribute_render_of_readsAs {p : Path} {m n : Meta} (hp : p.isPlain = true)
    (h : m.ReadsAs chars n) (loc : Option Position) :
    readAttribute chars (Attribute.render ⟨p, .metadata m, loc⟩) = .ok ⟨p, .metadata n, some .start⟩ := by
  obtain ⟨ts, arguments, hcut, hattribute, hpayload⟩ := lexes_attribute hp (boundary_meta m [])
    (lexes_meta h (Lexed.boundary_cons (by decide)))
  rw [readAttribute_eq_ok_iff, Attribute.toList_render]
  refine ⟨ts, _, hcut, hattribute, ?_⟩
  rw [AttributeTree.value, hpayload]
  rfl

theorem Literal.readsAs_of_isPlain {v : Literal} (hv : v.isPlain = true) : v.ReadsAs (.plain named) v :=
  ⟨unspaced_literal hv, fun _ hrest => lexes_literal hv hrest⟩

mutual

/-- A plain entry reads as itself. -/
theorem Entry.readsAs_of_isPlain : ∀ {e : Entry}, e.isPlain = true → e.ReadsAs (.plain named) e
  | .path _, he => .path he
  | .list _ _, he => by
    rw [isPlain, Bool.and_eq_true] at he
    exact .list he.1 (readAllAs_of_allPlain he.2)
  | .literal _, he => .literal (Literal.readsAs_of_isPlain he)
  | .keyValue _ _, he => by
    rw [isPlain, Bool.and_eq_true] at he
    exact .keyValue he.1 (Literal.readsAs_of_isPlain he.2)

theorem Entry.readAllAs_of_allPlain :
    ∀ {es : List Entry}, allPlain es = true → ReadAllAs (.plain named) es es
  | [], _ => .nil
  | e :: es, hes => by
    rw [allPlain, Bool.and_eq_true] at hes
    exact .cons (readsAs_of_isPlain hes.1) (readAllAs_of_allPlain hes.2)

end

theorem Meta.readsAs_of_isPlain {m : Meta} (hm : m.isPlain = true) : m.ReadsAs (.plain named) m := by
  cases m with
  | marker => exact .marker
  | list es => exact .list (Entry.readAllAs_of_allPlain hm)
  | keyValue v => exact .keyValue (Literal.readsAs_of_isPlain hm)

theorem Source.readAttribute_render {p : Path} {m : Meta} (hp : p.isPlain = true) (hm : m.isPlain = true)
    (loc : Option Position) :
    readAttribute (.plain named) (Attribute.render ⟨p, .metadata m, loc⟩) = .ok ⟨p, .metadata m, some .start⟩ :=
  readAttribute_render_of_readsAs hp (Meta.readsAs_of_isPlain hm) loc

theorem Entry.renderEach_eq_map (es : List Entry) : renderEach es = es.map render := by
  induction es with
  | nil => rfl
  | cons e es ih => rw [renderEach, ih, List.map_cons]

/-! ## Plain data can be written -/

theorem Literal.isWritable_of_isPlain {v : Literal} (hv : v.isPlain = true) : v.isWritable = true := by
  cases v with
  | text s => rfl
  | real x => rfl
  | flag b => rfl
  | int n =>
    simp only [Literal.isPlain, Bool.and_eq_true, decide_eq_true_eq] at hv
    obtain ⟨hsign, hlen⟩ := hv
    obtain ⟨n, rfl⟩ := Int.eq_ofNat_of_zero_le hsign
    have hshort : ¬ Text.maxDigits < (Nat.toDigits 10 n).length := by
      rw [Nat.not_lt, Text.maxDigits]
      simpa [Text.decimal] using hlen
    simp [Literal.isWritable, Text.signedDecimal?, hshort]

mutual

theorem Entry.isWritable_of_isPlain : ∀ {e : Entry}, e.isPlain = true → e.isWritable = true
  | .path _, _ => rfl
  | .list _ _, he => by
    rw [isPlain, Bool.and_eq_true] at he
    exact areWritable_of_allPlain he.2
  | .literal _, he => Literal.isWritable_of_isPlain he
  | .keyValue _ _, he => by
    rw [isPlain, Bool.and_eq_true] at he
    exact Literal.isWritable_of_isPlain he.2

theorem Entry.areWritable_of_allPlain : ∀ {es : List Entry}, allPlain es = true → areWritable es = true
  | [], _ => rfl
  | e :: es, hes => by
    rw [allPlain, Bool.and_eq_true] at hes
    rw [areWritable, isWritable_of_isPlain hes.1, areWritable_of_allPlain hes.2]
    rfl

end

theorem Meta.isWritable_of_isPlain {m : Meta} (hm : m.isPlain = true) : m.isWritable = true := by
  cases m with
  | marker => rfl
  | list es => exact Entry.areWritable_of_allPlain hm
  | keyValue v => exact Literal.isWritable_of_isPlain hm

theorem Entry.isPlain_of_mem {es : List Entry} (h : allPlain es = true) : ∀ e ∈ es, e.isPlain = true := by
  induction es with
  | nil => exact fun e he => absurd he List.not_mem_nil
  | cons e es ih =>
    rw [allPlain, Bool.and_eq_true] at h
    exact List.forall_mem_cons.2 ⟨h.1, ih h.2⟩

/-- Plain attributes can be written and read back as they were written, with the place where they were
read. Plain entries that are written with commas between them read back as the parameters they are.
What names stand for does not matter, since none is written. -/
theorem attribute_round_trip (named : List Char → Option Char) :
    (∀ a : Attribute, a.isPlain = true → a.render? = some a.render ∧
      Source.readAttribute (.plain named) a.render = .ok { a with loc := some .start }) ∧
    ∀ es : List Entry, Entry.allPlain es = true → (∀ e ∈ es, e.render? = some e.render) ∧
      Source.readParameters (.plain named) (", ".intercalate (es.map Entry.render)) = .ok es := by
  constructor
  · rintro ⟨p, payload, loc⟩ ha
    rw [Attribute.isPlain, Bool.and_eq_true] at ha
    cases payload with
    | verbatim text => cases ha.2
    | metadata m =>
      exact ⟨if_pos (Meta.isWritable_of_isPlain ha.2), Source.readAttribute_render ha.1 ha.2 loc⟩
  · intro es hes
    refine ⟨fun e he => if_pos (Entry.isWritable_of_isPlain (Entry.isPlain_of_mem hes e he)), ?_⟩
    -- The parameters are read inside an attribute, whose path does not matter.
    have hread := @Source.readAttribute_render named (.single ⟨"_", by decide⟩) (.list es) rfl hes none
    have htext : "#[_(" ++ ", ".intercalate (es.map Entry.render) ++ ")]" =
        Attribute.render ⟨.single ⟨"_", by decide⟩, .metadata (.list es), none⟩ := by
      rw [← Entry.renderEach_eq_map, ← String.toList_inj]
      simp [Attribute.render, Payload.render, Meta.render, Entry.renderAll, Path.render, Path.renderWith,
        Path.segments, Path.single]
    rw [Source.readParameters, htext, hread]
    rfl

/-- Quotes, backslashes, line feeds and letters of all scripts read back, at any depth. -/
theorem attribute_round_trip_nested :
    let named : List Char → Option Char := fun _ => none
    let es : List Entry :=
      [.path ⟨⟨"a", by decide⟩, [⟨"b_1", by decide⟩]⟩,
        .list (.single ⟨"c", by decide⟩) [.literal (.text "\"q\" \\ \n ßя✓"), .literal (.int 42)],
        .keyValue (.single ⟨"d", by decide⟩) (.flag true)]
    let a : Attribute := ⟨.single ⟨"derive", by decide⟩, .metadata (.list es), none⟩
    (a.isPlain = true ∧ a.render? = some a.render ∧
      Source.readAttribute (.plain named) a.render = .ok { a with loc := some .start }) ∧
      Entry.allPlain es = true ∧ (∀ e ∈ es, e.render? = some e.render) ∧
      Source.readParameters (.plain named) (", ".intercalate (es.map Entry.render)) = .ok es := by
  intro named es a
  have ha : a.isPlain = true := by decide +kernel
  have hes : Entry.allPlain es = true := by decide +kernel
  exact ⟨⟨ha, (attribute_round_trip named).1 a ha⟩, hes, (attribute_round_trip named).2 es hes⟩

end DeriveKit
