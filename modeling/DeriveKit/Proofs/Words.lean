import DeriveKit.Proofs.Lexemes

/-!
# Words in a text

What a written word is lexed as, given what follows it: a name or a number ends where no character
goes on with it, a blank where no other blank follows, and marks and text literals end by themselves.
`Lexes` puts words together without keeping count of their places.
-/
namespace DeriveKit

/-- Names that have a kind of their own. -/
def keywords : List String := ["pub", "struct", "enum", "mut", "true", "false"]

namespace Lexed

open DeriveKit.Text
open DeriveKit.Token (Kind)

theorem nameKind_of_not_keyword {s : String} (h : s ∉ keywords) : nameKind s.toList = .name := by
  simp only [keywords, List.mem_cons, List.not_mem_nil, or_false, not_or] at h
  obtain ⟨hpub, hstruct, henum, hmut, htrue, hfalse⟩ := h
  simp only [nameKind, String.toList_inj, hpub, hstruct, henum, hmut, htrue, hfalse, if_false]

/-- No name or number goes on with these characters. -/
def Boundary (rest : List Char) : Prop := ∀ c ∈ rest.head?, isNameChar c = false ∧ c ≠ '.'

theorem boundary_cons {c : Char} {rest : List Char} (hc : isNameChar c = false ∧ c ≠ '.') :
    Boundary (c :: rest) := by
  rintro _ ⟨⟩
  exact hc

/-- A run ends before characters of another class. -/
theorem run_append {p : Char → Bool} {word rest : List Char} (hword : ∀ c ∈ word, p c = true)
    (hrest : ∀ c ∈ rest.head?, p c = false) : run p (word ++ rest) = word.length := by
  cases rest with
  | nil =>
    rw [run, List.takeWhile_append_of_pos hword, List.takeWhile_nil, List.append_nil]
  | cons c rest => exact run_append_cons hword (hrest c rfl)

/-! ## Single words -/

theorem Cut.append {pos : Position} {pre pre' rest : List Char} {ts ts' : List Token}
    (h : Cut pos pre (pre' ++ rest) ts) (h' : Cut (pos.advance pre) pre' rest ts') :
    Cut pos (pre ++ pre') rest (ts ++ ts') := by
  generalize hmore : pre' ++ rest = more at h
  induction h with
  | nil => exact h'
  | skip hword h ih =>
    subst hmore
    rw [Position.advance_append] at h'
    rw [← List.append_assoc _ pre'] at hword
    rw [List.append_assoc]
    exact .skip hword (ih h' rfl)
  | token hword h ih =>
    subst hmore
    rw [Position.advance_append] at h'
    rw [← List.append_assoc _ pre'] at hword
    rw [List.append_assoc]
    exact .token hword (ih h' rfl)

/-- The word that lexing takes is one token, or none. -/
theorem cut_word {c : Char} {word rest : List Char} {kind : Option Kind} (pos : Position)
    (h : lexeme? c (word ++ rest) = some (kind, word.length)) :
    Cut pos (c :: word) rest (kind.map (⟨·, String.ofList (c :: word), pos⟩)).toList := by
  have hcut : Cut pos (c :: word ++ []) rest _ := .cons (lexeme?_eq_some_iff.1 h) .nil
  rwa [List.append_nil, List.append_nil] at hcut

theorem cut_token {c : Char} {word rest : List Char} {kind : Kind} (pos : Position)
    (h : lexeme? c (word ++ rest) = some (some kind, word.length)) :
    Cut pos (c :: word) rest [⟨kind, String.ofList (c :: word), pos⟩] := by
  have hcut := cut_word pos h
  exact hcut

theorem lexeme?_name_append {c : Char} {word rest : List Char} (hc : isNameStart c = true)
    (hword : ∀ d ∈ word, isNameChar d = true) (hrest : Boundary rest) :
    lexeme? c (word ++ rest) = some (some (nameKind (c :: word)), word.length) := by
  have hrun := run_append hword fun d hd => (hrest d hd).1
  rw [lexeme?_name hc, hrun, List.take_left]

/-- No number goes on with these characters. -/
def EndsNumber (rest : List Char) : Prop := ∀ c ∈ rest.head?, isDigit c = false ∧ c ≠ '.'

theorem Boundary.endsNumber {rest : List Char} (hrest : Boundary rest) : EndsNumber rest := by
  intro c hc
  obtain ⟨hname, hpoint⟩ := hrest c hc
  simp only [isNameChar, Bool.or_eq_false_iff] at hname
  exact ⟨hname.2, hpoint⟩

theorem numberTail_int {word rest : List Char} (hword : ∀ d ∈ word, isDigit d = true)
    (hrest : EndsNumber rest) : numberTail (word ++ rest) = (.int, word.length) := by
  simp only [numberTail, run_append hword fun c hc => (hrest c hc).1, List.drop_left]
  split
  next d more => exact absurd rfl (hrest '.' rfl).2
  next => rfl

theorem lexeme?_int_append {c : Char} {word rest : List Char} (hc : isDigit c = true)
    (hword : ∀ d ∈ word, isDigit d = true) (hrest : EndsNumber rest) :
    lexeme? c (word ++ rest) = some (some .int, word.length) := by
  rw [lexeme?_digit hc, numberTail_int hword hrest]

theorem lexeme?_float_append {c d : Char} {cs ds rest : List Char} (hc : isDigit c = true)
    (hcs : ∀ e ∈ cs, isDigit e = true) (hd : isDigit d = true) (hds : ∀ e ∈ ds, isDigit e = true)
    (hrest : EndsNumber rest) : lexeme? c (cs ++ '.' :: d :: ds ++ rest) =
      some (some .float, (cs ++ '.' :: d :: ds).length) := by
  rw [lexeme?_digit hc, List.append_assoc, List.cons_append, List.cons_append, numberTail_float hcs hd,
    run_append hds fun c hc => (hrest c hc).1]
  simp only [List.length_append, List.length_cons, Option.some.injEq, Prod.mk.injEq, true_and]
  omega

theorem lexeme?_string_append {body : List Char} (h : StringBody body) (rest : List Char) :
    lexeme? '"' (body ++ ['"'] ++ rest) = some (some .string, (body ++ ['"']).length) := by
  rw [lexeme?_quote, List.append_assoc, List.singleton_append, stringTail?_append h]
  simp

/-- Wherever the text stands before `rest`, it is lexed as tokens with the property `P`. -/
def Lexes (text rest : List Char) (P : List Token → Prop) : Prop :=
  ∀ pos, ∃ ts, Cut pos text rest ts ∧ P ts

theorem Lexes.nil {rest : List Char} : Lexes [] rest (· = []) := fun _ => ⟨[], .nil, rfl⟩

theorem Lexes.append {text text' rest : List Char} {P Q : List Token → Prop}
    (h : Lexes text (text' ++ rest) P) (h' : Lexes text' rest Q) :
    Lexes (text ++ text') rest fun ts => ∃ us vs, ts = us ++ vs ∧ P us ∧ Q vs := by
  intro pos
  obtain ⟨us, hcut, hus⟩ := h pos
  obtain ⟨vs, hcut', hvs⟩ := h' (pos.advance text)
  exact ⟨us ++ vs, hcut.append hcut', us, vs, rfl, hus, hvs⟩

theorem Lexes.mono {text rest : List Char} {P Q : List Token → Prop} (h : Lexes text rest P)
    (hPQ : ∀ ts, P ts → Q ts) : Lexes text rest Q := by
  intro pos
  obtain ⟨ts, hcut, hts⟩ := h pos
  exact ⟨ts, hcut, hPQ ts hts⟩

/-- One token of a kind. -/
def Single (kind : Kind) (text : List Char) (ts : List Token) : Prop :=
  ∃ t : Token, ts = [t] ∧ t.kind = kind ∧ t.text = String.ofList text

theorem lexes_token {c : Char} {word rest : List Char} {kind : Kind}
    (h : lexeme? c (word ++ rest) = some (some kind, word.length)) :
    Lexes (c :: word) rest (Single kind (c :: word)) :=
  fun pos => ⟨_, cut_token pos h, _, rfl, rfl, rfl⟩

theorem lexes_name {c : Char} {word rest : List Char} (hc : isNameStart c = true)
    (hword : ∀ d ∈ word, isNameChar d = true) (hrest : Boundary rest) :
    Lexes (c :: word) rest (Single (nameKind (c :: word)) (c :: word)) :=
  lexes_token (lexeme?_name_append hc hword hrest)

theorem lexes_int {c : Char} {word rest : List Char} (hc : isDigit c = true)
    (hword : ∀ d ∈ word, isDigit d = true) (hrest : EndsNumber rest) :
    Lexes (c :: word) rest (Single .int (c :: word)) :=
  lexes_token (lexeme?_int_append hc hword hrest)

theorem lexes_float {c d : Char} {cs ds rest : List Char} (hc : isDigit c = true)
    (hcs : ∀ e ∈ cs, isDigit e = true) (hd : isDigit d = true) (hds : ∀ e ∈ ds, isDigit e = true)
    (hrest : EndsNumber rest) :
    Lexes (c :: (cs ++ '.' :: d :: ds)) rest (Single .float (c :: (cs ++ '.' :: d :: ds))) :=
  lexes_token (lexeme?_float_append hc hcs hd hds hrest)

theorem lexes_string {body : List Char} (h : StringBody body) (rest : List Char) :
    Lexes ('"' :: (body ++ ['"'])) rest (Single .string ('"' :: (body ++ ['"']))) :=
  lexes_token (lexeme?_string_append h rest)

theorem cut_mark (c : Char) {kind : Kind} (h : markKind? c = some kind) (hcolon : c ≠ ':')
    (pos : Position) (rest : List Char) : Cut pos [c] rest [⟨kind, String.ofList [c], pos⟩] :=
  cut_token pos (lexeme?_mark h fun hc => hcolon hc.1)

theorem lexes_mark (c : Char) {kind : Kind} (h : markKind? c = some kind) (hcolon : c ≠ ':')
    (rest : List Char) : Lexes [c] rest (Single kind [c]) :=
  fun pos => ⟨_, cut_mark c h hcolon pos rest, _, rfl, rfl, rfl⟩

theorem lexes_colons (rest : List Char) : Lexes [':', ':'] rest (Single .pathSep [':', ':']) :=
  lexes_token (lexeme?_colons rest)

/-- Blanks give no token. -/
theorem lexes_blanks {gap rest : List Char} (hgap : ∀ c ∈ gap, isSpace c = true)
    (hrest : ∀ c ∈ rest.head?, isSpace c = false) : Lexes gap rest (· = []) := by
  cases gap with
  | nil => exact .nil
  | cons c gap =>
    obtain ⟨hc, hgap⟩ := List.forall_mem_cons.1 hgap
    exact fun pos => ⟨_, cut_word pos (by rw [lexeme?_space hc, run_append hgap hrest]), rfl⟩

theorem lexes_blank {rest : List Char} (hrest : ∀ c ∈ rest.head?, isSpace c = false) :
    Lexes [' '] rest (· = []) :=
  lexes_blanks (by simp [isSpace]) hrest

/-! ## Lexemes as words -/

theorem Cut.lexemes {pos : Position} {pre rest : List Char} {ts : List Token} (h : Cut pos pre rest ts) :
    ∀ t ∈ ts, Lexeme (some t.kind) t.text.toList := by
  induction h with
  | nil => exact fun t ht => absurd ht List.not_mem_nil
  | skip hword h ih => exact ih
  | token hword h ih =>
    refine List.forall_mem_cons.2 ⟨?_, ih⟩
    rw [String.toList_ofList]
    exact hword.lexeme

/-- A word is lexed as the token it is, unless a name or a number goes on or a colon becomes one half of
two. -/
theorem Lexeme.cut {kind : Kind} {word rest : List Char} (h : Lexeme (some kind) word)
    (hcolon : kind = .colon → rest.head? ≠ some ':') (hrest : Boundary rest) (pos : Position) :
    Cut pos word rest [⟨kind, String.ofList word, pos⟩] := by
  cases h with
  | name hc hcs => exact cut_token pos (lexeme?_name_append hc hcs hrest)
  | int hc hcs => exact cut_token pos (lexeme?_int_append hc hcs hrest.endsNumber)
  | float hc hcs hd hds => exact cut_token pos (lexeme?_float_append hc hcs hd hds hrest.endsNumber)
  | string hbody => exact cut_token pos (lexeme?_string_append hbody rest)
  | pathSep => exact cut_token pos (lexeme?_colons rest)
  | mark h =>
    refine cut_token pos (lexeme?_mark h ?_)
    rintro ⟨rfl, hhead⟩
    exact hcolon (Option.some.inj h).symm hhead

theorem Lexeme.lexes {kind : Kind} {word rest : List Char} (h : Lexeme (some kind) word)
    (hkind : kind ≠ .colon) (hrest : Boundary rest) : Lexes word rest (Single kind word) :=
  fun pos => ⟨_, h.cut (fun hcolon => absurd hcolon hkind) hrest pos, _, rfl, rfl, rfl⟩

/-- A word that is a whole text. -/
theorem Lexeme.ofText {kind : Kind} {word : List Char} (h : Lexeme (some kind) word) :
    Lexed.ofText (String.ofList word) = ⟨[⟨kind, String.ofList word, .start⟩], none⟩ := by
  rw [Lexed.ofText, String.toList_ofList]
  exact (h.cut (by simp) (by simp [Boundary]) .start).scan_eq

/-- A word does not start with a blank. -/
theorem Lexeme.isSpace_head {kind : Kind} {word : List Char} (h : Lexeme (some kind) word)
    (rest : List Char) : ∀ c ∈ (word ++ rest).head?, isSpace c = false := by
  cases h with
  | name hc hcs =>
    rintro _ ⟨⟩
    exact Bool.eq_false_iff.2 fun hs => by simp [isNameStart_of_isSpace hs] at hc
  | int hc | float hc =>
    rintro _ ⟨⟩
    exact Bool.eq_false_iff.2 fun hs => by simp [isDigit_of_isSpace hs] at hc
  | string | pathSep =>
    rintro _ ⟨⟩
    rfl
  | mark h =>
    rintro _ ⟨⟩
    exact (markKind?_classes h).1

theorem Lexeme.of_name {word : List Char} (h : Lexeme (some .name) word) :
    ∃ c cs, word = c :: cs ∧ isNameStart c = true ∧ (∀ d ∈ cs, isNameChar d = true) ∧
      nameKind (c :: cs) = .name := by
  generalize hkind : some Kind.name = kind at h
  cases h with
  | @name c cs hc hcs => exact ⟨c, cs, rfl, hc, hcs, (Option.some.inj hkind).symm⟩
  | @mark c _ h =>
    cases hkind
    unfold markKind? at h
    split at h <;> cases h
  | blank | comment | int | float | string | pathSep => cases hkind

/-- What a word is that starts with a digit. -/
theorem Lexeme.of_number {kind : Kind} {word : List Char} (h : Lexeme (some kind) word)
    (hkind : kind = .int ∨ kind = .float) :
    (∃ c cs, kind = .int ∧ word = c :: cs ∧ isDigit c = true ∧ ∀ d ∈ cs, isDigit d = true) ∨
      ∃ c cs d ds, kind = .float ∧ word = c :: (cs ++ '.' :: d :: ds) ∧ isDigit c = true ∧
        (∀ e ∈ cs, isDigit e = true) ∧ isDigit d = true ∧ ∀ e ∈ ds, isDigit e = true := by
  cases h with
  | @int c cs hc hcs => exact .inl ⟨c, cs, rfl, rfl, hc, hcs⟩
  | @float c d cs ds hc hcs hd hds => exact .inr ⟨c, cs, d, ds, rfl, rfl, hc, hcs, hd, hds⟩
  | name =>
    unfold nameKind at hkind
    repeat' split at hkind
    all_goals simp at hkind
  | string | pathSep => simp at hkind
  | mark h =>
    unfold markKind? at h
    rcases hkind with rfl | rfl <;> split at h <;> cases h

/-! ## Texts that may not be lexed -/

/-- If lexing gets through the text and what follows, the tokens of the text have the property `P`. -/
def Passes (text rest : List Char) (P : List Token → Prop) : Prop :=
  ∀ pos ts, Cut pos (text ++ rest) [] ts →
    ∃ us vs, ts = us ++ vs ∧ P us ∧ Cut (pos.advance text) rest [] vs

/-- Lexing has one outcome. -/
theorem Lexes.passes {text rest : List Char} {P : List Token → Prop} (h : Lexes text rest P) :
    Passes text rest P := by
  intro pos ts hcut
  obtain ⟨us, hus, hP⟩ := h pos
  have hscan := hus.scan.symm.trans hcut.scan_eq
  obtain ⟨pre, more, hrest, hvs, hhalts⟩ := scan_cut (pos.advance text) rest
  simp only [prepend, Lexed.mk.injEq] at hscan
  rw [hscan.2] at hhalts
  cases hhalts with
  | finished =>
    rw [List.append_nil] at hrest
    rw [← hrest] at hvs
    exact ⟨us, _, hscan.1.symm, hP, hvs⟩

theorem Passes.append {text text' rest : List Char} {P Q : List Token → Prop}
    (h : Passes text (text' ++ rest) P) (h' : Passes text' rest Q) :
    Passes (text ++ text') rest fun ts => ∃ us vs, ts = us ++ vs ∧ P us ∧ Q vs := by
  intro pos ts hcut
  rw [List.append_assoc] at hcut
  obtain ⟨us, _, rfl, hus, hcut⟩ := h pos ts hcut
  obtain ⟨vs, ws, rfl, hvs, hcut⟩ := h' _ _ hcut
  rw [← Position.advance_append] at hcut
  exact ⟨us ++ vs, ws, (List.append_assoc ..).symm, ⟨us, vs, rfl, hus, hvs⟩, hcut⟩

theorem Passes.mono {text rest : List Char} {P Q : List Token → Prop} (h : Passes text rest P)
    (hPQ : ∀ ts, P ts → Q ts) : Passes text rest Q := by
  intro pos ts hcut
  obtain ⟨us, vs, hts, hus, hcut⟩ := h pos ts hcut
  exact ⟨us, vs, hts, hPQ us hus, hcut⟩

/-- Lexing does not get through a text with a place where no lexeme starts. -/
theorem Passes.of_stop {text more rest : List Char} {c : Char} {P Q : List Token → Prop}
    (h : Lexes text (c :: (more ++ rest)) Q) (hc : lexeme? c (more ++ rest) = none) :
    Passes (text ++ c :: more) rest P := by
  intro pos ts hcut
  rw [List.append_assoc] at hcut
  obtain ⟨us, vs, rfl, -, hcut⟩ := h.passes pos ts hcut
  have hscan := hcut.scan_eq
  rw [scanAfter, hc] at hscan
  cases hscan

end Lexed

end DeriveKit
