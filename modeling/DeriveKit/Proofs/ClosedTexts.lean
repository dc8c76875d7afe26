import DeriveKit.Proofs.WrittenTokens

/-!
# Texts put between others

A text is put behind a few characters and before a closing mark, and lexed there. Behind the characters it gives
the tokens that it gives alone, further to the right on its first line (`scanAfter_moved`). Before a closing mark
it gives the same tokens too, and stops at the same place if it stops (`scanAfter_append_closing`). A string
that is open at the end stays open, and no lexeme reaches into the mark. Only a comment does: a text that
ends in one swallows what is put behind it (`EndsInComment.scanAfter_append`).
-/
namespace DeriveKit

open DeriveKit.Text
open DeriveKit.Token (Kind)

/-! ## Texts further to the right -/

/-- The place in a text that stands behind `n` characters of the first line. -/
def Position.moved (n : Nat) (p : Position) : Position := if p.line = 1 then ⟨1, p.column + n⟩ else p

/-- The token of a text that stands behind `n` characters of the first line. -/
def Token.moved (n : Nat) (t : Token) : Token := { t with pos := t.pos.moved n }

theorem Position.moved_next (n : Nat) {p : Position} (h : 1 ≤ p.line) (c : Char) :
    (p.next c).moved n = (p.moved n).next c := by
  unfold next moved
  by_cases hc : c = '\n' <;> by_cases hp : p.line = 1 <;> simp [hc, hp] <;> omega

theorem Position.le_line_next {p : Position} (h : 1 ≤ p.line) (c : Char) : 1 ≤ (p.next c).line := by
  unfold next
  split
  · exact Nat.le_add_left 1 p.line
  · exact h

namespace Lexed

def moved (n : Nat) (l : Lexed) : Lexed :=
  ⟨l.tokens.map (·.moved n), l.stop.map fun (c, pos) => (c, pos.moved n)⟩

/-- Lexing a text further to the right gives the same tokens further to the right. -/
theorem scanAfter_moved (n : Nat) (skip : Nat) {pos : Position} (h : 1 ≤ pos.line) (text : List Char) :
    scanAfter skip (pos.moved n) text = (scanAfter skip pos text).moved n := by
  induction text generalizing skip pos with
  | nil => simp [scanAfter, moved]
  | cons c rest ih =>
    have hnext := Position.le_line_next h c
    cases skip with
    | succ skip => rw [scanAfter, scanAfter, ← Position.moved_next n h, ih skip hnext]
    | zero =>
      rw [scanAfter, scanAfter]
      cases lexeme? c rest with
      | none => rfl
      | some found =>
        obtain ⟨kind, length⟩ := found
        simp only [← Position.moved_next n h, ih length hnext]
        cases kind <;> rfl

/-! ## Texts before a closing mark -/

/-- The text ends in a comment: cutting off the longest lexemes leads to one that is not ended by a line feed. -/
inductive EndsInComment : List Char → Prop where
  | here {line : List Char} (h : '\n' ∉ line) : EndsInComment ('/' :: '/' :: line)
  | later {kind : Option Kind} {word rest : List Char} (hword : Longest kind word (word ++ rest))
      (h : EndsInComment rest) : EndsInComment (word ++ rest)

theorem not_endsInComment_nil : ¬ EndsInComment [] := by
  intro h
  generalize htext : [] = text at h
  cases h with
  | here => cases htext
  | later hword => exact hword.lexeme.ne_nil (List.append_eq_nil_iff.1 htext.symm).1

theorem lexeme_comment {line : List Char} (h : '\n' ∉ line) : Lexeme none ('/' :: '/' :: line) :=
  .comment fun _ hd => ne_of_mem_of_not_mem hd h

theorem scanAfter_comment_end {line : List Char} (h : '\n' ∉ line) (pos : Position) :
    scanAfter 0 pos ('/' :: '/' :: line) = ⟨[], none⟩ := by
  have hlongest : Longest none ('/' :: '/' :: line) ('/' :: '/' :: line ++ []) :=
    ⟨lexeme_comment h, List.prefix_append _ [], fun _ _ _ hword => by simpa using hword.length_le⟩
  have hscan := scanAfter_longest pos hlongest
  rwa [List.append_nil] at hscan

/-- What closes a frame: a mark that joins no other character, and no quote behind it that could end a string. -/
structure Closing (x : Char) (more : List Char) : Prop where
  mark : ∃ kind, markKind? x = some kind
  colon : x ≠ ':'
  quote : '"' ∉ more

theorem closing_paren : Closing ')' [] := ⟨⟨_, rfl⟩, by decide, by decide⟩

theorem closing_parenBracket : Closing ')' [']'] := ⟨⟨_, rfl⟩, by decide, by decide⟩

theorem closing_semicolon : Closing ';' [] := ⟨⟨_, rfl⟩, by decide, by decide⟩

section Close

variable {kind : Option Kind} {word text rest more : List Char} {x : Char}

/-- Of all lexemes only comments go on into what closes a frame. -/
theorem Lexeme.comment_of_closing (h : Lexeme kind (text ++ x :: more)) (hx : Closing x more) (hne : text ≠ []) :
    ∃ line, text = '/' :: '/' :: line ∧ '\n' ∉ line := by
  obtain ⟨⟨mark, hmark⟩, hcolon, hmore⟩ := hx
  obtain ⟨hspace, hstart, hdigit, hquote, hslash⟩ := markKind?_classes hmark
  have hpoint : x ≠ '.' := by
    rintro rfl
    cases hmark
  generalize hword : text ++ x :: more = word at h
  have hmem : x ∈ word := hword ▸ List.mem_append_right text List.mem_cons_self
  cases h with
  | blank hc hcs =>
    have hall : ∀ d ∈ _ :: _, isSpace d = true := List.forall_mem_cons.2 ⟨hc, hcs⟩
    exact absurd (hall x hmem) (by simp [hspace])
  | comment hcs =>
    match text, hword with
    | [_], hword => exact absurd (List.cons.inj (List.cons.inj hword).2).1 hslash
    | _ :: _ :: line, hword =>
      simp only [List.cons_append, List.cons.injEq] at hword
      obtain ⟨rfl, rfl, rfl⟩ := hword
      exact ⟨line, rfl, fun hline => hcs '\n' (List.mem_append_left _ hline) rfl⟩
  | name hc hcs =>
    have hfirst : isNameChar _ = true := Bool.or_eq_true_iff.2 (.inl hc)
    have hall : ∀ d ∈ _ :: _, isNameChar d = true := List.forall_mem_cons.2 ⟨hfirst, hcs⟩
    exact absurd (hall x hmem) (by simp [isNameChar, hstart, hdigit])
  | int hc hcs =>
    have hall : ∀ d ∈ _ :: _, isDigit d = true := List.forall_mem_cons.2 ⟨hc, hcs⟩
    exact absurd (hall x hmem) (by simp [hdigit])
  | float hc hcs hd hds =>
    have hfloat : isDigit x = true ∨ x = '.' := by grind
    simp [hdigit, hpoint] at hfloat
  | string h =>
    -- The last character of a string is a quote, and there is none from the mark on.
    have hlast : ((x :: more).getLast?).or text.getLast? = some '"' := by
      rw [← List.getLast?_append, hword, ← List.cons_append]
      exact List.getLast?_concat
    rw [List.getLast?_eq_some_getLast (List.cons_ne_nil x more), Option.some_or] at hlast
    have hin := List.getLast_mem (List.cons_ne_nil x more)
    rw [Option.some.inj hlast] at hin
    simp [Ne.symm hquote, hmore] at hin
  | pathSep => simp [hcolon] at hmem
  | mark h =>
    have hlength := congrArg List.length hword
    have hpos := List.length_pos_iff.2 hne
    simp only [List.length_append, List.length_cons, List.length_nil] at hlength
    omega

variable (hx : Closing x more)
include hx

/-- A lexeme that starts a text in a frame starts the text alone, unless that is a comment. -/
theorem Lexeme.starts_of_closing (h : Lexeme kind word) (hword : word <+: text ++ x :: more) (hne : text ≠ []) :
    word <+: text ∨ ∃ line, text = '/' :: '/' :: line ∧ '\n' ∉ line := by
  obtain ⟨tail, htail⟩ := hword
  rcases List.append_eq_append_iff.1 htail with ⟨left, rfl, -⟩ | ⟨beyond, rfl, hbeyond⟩
  · exact .inl (List.prefix_append word left)
  · cases beyond with
    | nil => exact .inl (by simp)
    | cons y beyond =>
      obtain ⟨rfl, rfl⟩ := List.cons.inj hbeyond
      have hless : Closing x beyond := ⟨hx.mark, hx.colon, fun hin => hx.quote (List.mem_append_left tail hin)⟩
      exact .inr (h.comment_of_closing hless hne)

theorem Longest.before_closing (h : Longest kind word (word ++ rest)) (hend : rest = [] → ¬ EndsInComment word) :
    Longest kind word (word ++ (rest ++ x :: more)) := by
  refine ⟨h.lexeme, List.prefix_append word _, fun kind' word' hlexeme hword' => ?_⟩
  rw [← List.append_assoc] at hword'
  rcases hlexeme.starts_of_closing hx hword' (by simp [h.lexeme.ne_nil]) with hword' | ⟨line, htext, hline⟩
  · exact h.longest kind' word' hlexeme hword'
  · -- The whole text is a comment, so it is the longest lexeme itself.
    have hle := h.longest none _ (lexeme_comment hline) (htext ▸ List.prefix_refl _)
    have hrest : rest = [] := by
      rw [← htext, List.length_append] at hle
      exact List.eq_nil_of_length_eq_zero (by omega)
    subst hrest
    rw [List.append_nil] at htext
    exact absurd (htext ▸ .here hline) (hend rfl)

theorem Unlexable.before_closing (h : Unlexable text) (hne : text ≠ []) : Unlexable (text ++ x :: more) := by
  intro kind word hlexeme hword
  rcases hlexeme.starts_of_closing hx hword hne with hword | ⟨line, rfl, hline⟩
  · exact h kind word hlexeme hword
  · exact h none _ (lexeme_comment hline) (List.prefix_refl _)

/-- The first lexeme is cut off, and what is left does not end in a comment either. -/
theorem Longest.cut_before_closing (h : Longest kind word (word ++ (text ++ rest)))
    (hend : ¬ EndsInComment (word ++ text ++ rest)) :
    Longest kind word (word ++ (text ++ (rest ++ x :: more))) ∧ ¬ EndsInComment (text ++ rest) := by
  rw [List.append_assoc] at hend
  rw [← List.append_assoc text]
  constructor
  · apply h.before_closing hx
    intro hnil
    rwa [hnil, List.append_nil] at hend
  · intro hrest
    exact hend (.later h hrest)

theorem Cut.before_closing {pos : Position} {pre : List Char} {ts : List Token} (h : Cut pos pre rest ts)
    (hend : ¬ EndsInComment (pre ++ rest)) : Cut pos pre (rest ++ x :: more) ts := by
  induction h with
  | nil => exact .nil
  | skip hword h ih =>
    obtain ⟨hlongest, hrest⟩ := hword.cut_before_closing hx hend
    exact .skip hlongest (ih hrest)
  | token hword h ih =>
    obtain ⟨hlongest, hrest⟩ := hword.cut_before_closing hx hend
    exact .token hlongest (ih hrest)

/-- In a frame a text is lexed as it is lexed alone: it stops where it stops, or the frame is closed. -/
theorem scanAfter_append_closing (hend : ¬ EndsInComment text) (pos : Position) :
    scanAfter 0 pos (text ++ x :: more) = match (scanAfter 0 pos text).stop with
      | some _ => scanAfter 0 pos text
      | none => prepend (scanAfter 0 pos text).tokens (scanAfter 0 (pos.advance text) (x :: more)) := by
  obtain ⟨pre, rest, rfl, hcut, hhalts⟩ := scan_cut pos text
  have hscan := (hcut.before_closing hx hend).scan
  rw [List.append_assoc, hscan]
  generalize hl : scanAfter 0 pos (pre ++ rest) = l at hcut hhalts
  obtain ⟨ts, stop⟩ := l
  cases hhalts with
  | finished => rw [List.nil_append, List.append_nil]
  | stopped h =>
    have hunlexable := h.before_closing hx (List.cons_ne_nil _ _)
    rw [List.cons_append] at hunlexable
    rw [List.cons_append, scanAfter, lexeme?_eq_none_iff.2 hunlexable]
    simp [prepend]

/-- A comment at the end swallows what closes the frame, up to the end of the line. -/
theorem EndsInComment.scanAfter_append (h : EndsInComment text) (hline : '\n' ∉ x :: more) (pos : Position) :
    scanAfter 0 pos (text ++ x :: more) = scanAfter 0 pos text ∧ (scanAfter 0 pos text).stop = none := by
  induction h generalizing pos with
  | @here line hinner =>
    have hlonger : '\n' ∉ line ++ x :: more := by simp [List.mem_append, hinner, hline]
    rw [scanAfter_comment_end hinner, List.cons_append, List.cons_append, scanAfter_comment_end hlonger]
    exact ⟨rfl, rfl⟩
  | @later kind word rest hword h ih =>
    have hlongest := hword.before_closing hx fun hnil => absurd (hnil ▸ h) not_endsInComment_nil
    obtain ⟨hscan, hstop⟩ := ih (pos.advance word)
    rw [List.append_assoc, scanAfter_longest pos hlongest, scanAfter_longest pos hword, hscan]
    exact ⟨rfl, hstop⟩

end Close

/-- Whether a text ends in a comment shows in what becomes of a mark behind it. -/
theorem endsInComment_iff (text : List Char) :
    EndsInComment text ↔ (scanAfter 0 .start text).stop = none ∧
      scanAfter 0 .start (text ++ [')']) = scanAfter 0 .start text := by
  constructor
  · intro h
    obtain ⟨hscan, hstop⟩ := h.scanAfter_append closing_paren (by decide) .start
    exact ⟨hstop, hscan⟩
  · rintro ⟨hstop, hscan⟩
    refine Classical.byContradiction fun hend => ?_
    rw [scanAfter_append_closing closing_paren hend, hstop] at hscan
    -- The mark would be one token more.
    have hlength := congrArg (·.tokens.length) hscan
    have hone : (scanAfter 0 (Position.start.advance text) [')']).tokens.length = 1 := rfl
    simp only [prepend, List.length_append] at hlength
    omega

instance (text : List Char) : Decidable (EndsInComment text) := decidable_of_iff _ (endsInComment_iff text).symm

/-! ## Texts in an attribute and behind the name of a struct -/

/-- The tokens of `#[_(`. -/
def attributeStart : List Token :=
  [⟨.hash, "#", ⟨1, 1⟩⟩, ⟨.leftBracket, "[", ⟨1, 2⟩⟩, ⟨.name, "_", ⟨1, 3⟩⟩, ⟨.leftParen, "(", ⟨1, 4⟩⟩]

/-- The tokens of `struct _`. -/
def structStart : List Token := [⟨.struct, "struct", ⟨1, 1⟩⟩, ⟨.name, "_", ⟨1, 8⟩⟩]

theorem cut_underscore {c : Char} (hc : isNameChar c = false ∧ c ≠ '.') (pos : Position) (rest : List Char) :
    Cut pos ['_'] (c :: rest) [⟨.name, "_", pos⟩] :=
  cut_token pos (lexeme?_name_append rfl (List.forall_mem_nil _) (boundary_cons hc))

theorem ofText_attribute (text : String) :
    ofText ("#[_(" ++ text) = prepend attributeStart ((ofText text).moved 4) := by
  have hcut : Cut .start "#[_(".toList text.toList attributeStart :=
    (cut_mark '#' rfl (by decide) _ _).append <| (cut_mark '[' rfl (by decide) _ _).append <|
      (cut_underscore (by decide) _ _).append <| cut_mark '(' rfl (by decide) _ _
  rw [ofText, String.toList_append, hcut.scan, ofText, ← scanAfter_moved 4 0 (Nat.le_refl 1)]
  rfl

/-- The blank behind the name is one with blanks that start the text, and none of them counts. -/
theorem ofText_struct (text : String) :
    ofText ("struct _ " ++ text) = prepend structStart ((ofText text).moved 9) := by
  have hword : Cut .start "struct".toList (' ' :: '_' :: ' ' :: text.toList) [⟨.struct, "struct", ⟨1, 1⟩⟩] :=
    cut_token _ (lexeme?_name_append rfl (List.all_eq_true.1 rfl) (boundary_cons (by decide)))
  have hname := (cut_underscore (c := ' ') (by decide) ⟨1, 8⟩ text.toList).scan
  calc ofText ("struct _ " ++ text)
      = scanAfter 0 .start ("struct".toList ++ ' ' :: '_' :: ' ' :: text.toList) := by simp [ofText]
    _ = prepend [⟨.struct, "struct", ⟨1, 1⟩⟩] (scanAfter 0 ⟨1, 7⟩ (' ' :: '_' :: ' ' :: text.toList)) := hword.scan
    _ = prepend [⟨.struct, "struct", ⟨1, 1⟩⟩] (scanAfter 0 ⟨1, 8⟩ ('_' :: ' ' :: text.toList)) := by
      rw [scanAfter_space rfl]
      rfl
    _ = prepend structStart (scanAfter 0 ⟨1, 9⟩ (' ' :: text.toList)) := congrArg (prepend _) hname
    _ = prepend structStart (scanAfter 0 (Position.start.moved 9) text.toList) := by
      rw [scanAfter_space rfl]
      rfl
    _ = prepend structStart ((ofText text).moved 9) := by
      rw [scanAfter_moved 9 0 (Nat.le_refl 1)]
      rfl

section Close

variable {x : Char} {more : List Char} {text close : String} (hx : Closing x more)
  (hclose : close.toList = x :: more) (hend : ¬ EndsInComment text.toList)

include hx hclose hend

theorem ofText_append : ofText (text ++ close) = match (ofText text).stop with
    | some _ => ofText text
    | none => prepend (ofText text).tokens (scanAfter 0 (Position.start.advance text.toList) (x :: more)) := by
  rw [ofText, String.toList_append, hclose]
  exact scanAfter_append_closing hx hend .start

theorem tokens_append (hstop : (ofText text).stop = none) : (ofText (text ++ close)).tokens =
    (ofText text).tokens ++ (scanAfter 0 (Position.start.advance text.toList) (x :: more)).tokens := by
  rw [ofText_append hx hclose hend, hstop]
  rfl

theorem stop_append (hscan : (scanAfter 0 (Position.start.advance text.toList) (x :: more)).stop = none) :
    (ofText (text ++ close)).stop = (ofText text).stop := by
  rw [ofText_append hx hclose hend]
  cases hstop : (ofText text).stop with
  | none => exact hscan
  | some at? => exact hstop

end Close

end Lexed

end DeriveKit
