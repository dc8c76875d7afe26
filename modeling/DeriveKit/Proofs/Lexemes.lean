import DeriveKit.Token

/-!
# Lexemes

`Lexeme` says which words can stand in a text, without saying how they are found. Lexing takes the
longest of those that start at a place (`lexeme?_eq_some_iff`) and stops only where none does
(`lexeme?_eq_none_iff`). So a text falls into its longest lexemes up to that place (`scan_cut`), and
such a cut of a text is what lexing finds (`Cut.scan`).
-/
namespace DeriveKit

open DeriveKit.Text
open DeriveKit.Token (Kind)

namespace Position

theorem advance_append (p : Position) (as bs : List Char) :
    p.advance (as ++ bs) = (p.advance as).advance bs := List.foldl_append

end Position

namespace Lexed

/-- What stands between the quotes of a string literal. -/
inductive StringBody : List Char → Prop where
  | nil : StringBody []
  | escape {c : Char} {cs : List Char} (hc : c ≠ '\n') (h : StringBody cs) : StringBody ('\\' :: c :: cs)
  | plain {c : Char} {cs : List Char} (hquote : c ≠ '"') (hslash : c ≠ '\\') (h : StringBody cs) :
      StringBody (c :: cs)

/-- The words of a text and their kinds; blank space and comments have none. -/
inductive Lexeme : Option Kind → List Char → Prop where
  | blank {c : Char} {cs : List Char} (hc : isSpace c) (hcs : ∀ d ∈ cs, isSpace d) : Lexeme none (c :: cs)
  | comment {cs : List Char} (hcs : ∀ d ∈ cs, d ≠ '\n') : Lexeme none ('/' :: '/' :: cs)
  | name {c : Char} {cs : List Char} (hc : isNameStart c) (hcs : ∀ d ∈ cs, isNameChar d) :
      Lexeme (some (nameKind (c :: cs))) (c :: cs)
  | int {c : Char} {cs : List Char} (hc : isDigit c) (hcs : ∀ d ∈ cs, isDigit d) :
      Lexeme (some .int) (c :: cs)
  | float {c d : Char} {cs ds : List Char} (hc : isDigit c) (hcs : ∀ e ∈ cs, isDigit e)
      (hd : isDigit d) (hds : ∀ e ∈ ds, isDigit e) : Lexeme (some .float) (c :: (cs ++ '.' :: d :: ds))
  | string {body : List Char} (h : StringBody body) : Lexeme (some .string) ('"' :: (body ++ ['"']))
  | pathSep : Lexeme (some .pathSep) [':', ':']
  | mark {c : Char} {kind : Kind} (h : markKind? c = some kind) : Lexeme (some kind) [c]

/-- No lexeme starts a text. -/
def Unlexable (text : List Char) : Prop := ∀ kind word, Lexeme kind word → ¬ word <+: text

/-- The longest lexeme that starts a text. -/
structure Longest (kind : Option Kind) (word text : List Char) : Prop where
  lexeme : Lexeme kind word
  starts : word <+: text
  longest : ∀ kind' word', Lexeme kind' word' → word' <+: text → word'.length ≤ word.length

/-! ## Classes of characters -/

theorem isNameStart_of_isSpace {c : Char} (h : isSpace c) : isNameStart c = false := by
  simp only [isSpace, Bool.or_eq_true, beq_iff_eq] at h
  rcases h with (((rfl | rfl) | rfl) | rfl) | rfl <;> decide

theorem isDigit_of_isSpace {c : Char} (h : isSpace c) : isDigit c = false := by
  simp only [isSpace, Bool.or_eq_true, beq_iff_eq] at h
  rcases h with (((rfl | rfl) | rfl) | rfl) | rfl <;> decide

theorem isNameStart_of_isDigit {c : Char} (h : isDigit c) : isNameStart c = false := by
  simp only [isDigit, Bool.and_eq_true, decide_eq_true_eq, Char.le_def, UInt32.le_iff_toNat_le] at h
  simp only [isNameStart, Bool.or_eq_false_iff, Bool.and_eq_false_iff, decide_eq_false_iff_not,
    beq_eq_false_iff_ne, Char.le_def, UInt32.le_iff_toNat_le, ne_eq, Char.ext_iff, ← UInt32.toNat_inj]
  have h0 : ('0' : Char).val.toNat = 48 := rfl
  have h9 : ('9' : Char).val.toNat = 57 := rfl
  have hA : ('A' : Char).val.toNat = 65 := rfl
  have ha : ('a' : Char).val.toNat = 97 := rfl
  have hu : ('_' : Char).val.toNat = 95 := rfl
  omega

/-- Marks are of no other class of characters. -/
theorem markKind?_classes {c : Char} {kind : Kind} (h : markKind? c = some kind) :
    isSpace c = false ∧ isNameStart c = false ∧ isDigit c = false ∧ c ≠ '"' ∧ c ≠ '/' := by
  unfold markKind? at h
  split at h <;> first | decide | cases h

/-! ## Runs of characters -/

theorem run_le (p : Char → Bool) (cs : List Char) : run p cs ≤ cs.length :=
  (List.takeWhile_sublist p).length_le

theorem take_run (p : Char → Bool) (cs : List Char) : cs.take (run p cs) = cs.takeWhile p :=
  (List.prefix_iff_eq_take.1 (List.takeWhile_prefix p)).symm

theorem of_mem_take_run {p : Char → Bool} {cs : List Char} {c : Char} (h : c ∈ cs.take (run p cs)) :
    p c = true := by
  rw [take_run] at h
  exact List.all_eq_true.1 List.all_takeWhile c h

/-- A run takes in all that it can. -/
theorem le_run {p : Char → Bool} {word cs : List Char} (hword : ∀ c ∈ word, p c = true)
    (h : word <+: cs) : word.length ≤ run p cs := by
  obtain ⟨rest, rfl⟩ := h
  rw [run, List.takeWhile_append_of_pos hword, List.length_append]
  exact Nat.le_add_right ..

/-- A run ends where a character of another class stands. -/
theorem run_append_cons {p : Char → Bool} {word : List Char} {c : Char} {rest : List Char}
    (hword : ∀ d ∈ word, p d = true) (hc : p c = false) : run p (word ++ c :: rest) = word.length := by
  rw [run, List.takeWhile_append_of_pos hword, List.takeWhile_cons_of_neg (by simp [hc]), List.append_nil]

/-! ## One lexeme -/

theorem stringTail?_append {body : List Char} (h : StringBody body) (rest : List Char) :
    stringTail? (body ++ '"' :: rest) = some (body.length + 1) := by
  induction h with
  | nil => rfl
  | escape hc h ih => simp [stringTail?, hc, ih]
  | plain hquote hslash h ih => simp [stringTail?, hslash, ih]

theorem of_stringTail? {cs : List Char} {n : Nat} (h : stringTail? cs = some n) :
    ∃ body rest, cs = body ++ '"' :: rest ∧ StringBody body ∧ n = body.length + 1 := by
  fun_induction stringTail? cs generalizing n with
  | case1 => cases h
  | case2 rest =>
    cases h
    exact ⟨[], rest, rfl, .nil, rfl⟩
  | case3 => cases h
  | case4 c rest hc ih =>
    obtain ⟨m, hm, rfl⟩ := Option.map_eq_some_iff.1 h
    obtain ⟨body, rest, rfl, hbody, rfl⟩ := ih hm
    exact ⟨_, rest, rfl, .escape hc hbody, rfl⟩
  | case5 => cases h
  | case6 c rest hquote hslash hend ih =>
    obtain ⟨m, hm, rfl⟩ := Option.map_eq_some_iff.1 h
    obtain ⟨body, rest, rfl, hbody, rfl⟩ := ih hm
    refine ⟨_, rest, rfl, .plain hquote ?_ hbody, rfl⟩
    rintro rfl
    cases body with
    | nil => exact hslash _ _ rfl rfl
    | cons d body => exact hslash _ _ rfl rfl

theorem numberTail_float {cs more : List Char} {d : Char} (hcs : ∀ e ∈ cs, isDigit e)
    (hd : isDigit d) : numberTail (cs ++ '.' :: d :: more) = (.float, cs.length + 2 + run isDigit more) := by
  simp [numberTail, run_append_cons hcs (show isDigit '.' = false by decide), hd]

/-- A number is a run of digits, unless a point and another digit follow. -/
theorem numberTail_cases (rest : List Char) :
    numberTail rest = (.int, run isDigit rest) ∨
      ∃ cs d more, rest = cs ++ '.' :: d :: more ∧ (∀ e ∈ cs, isDigit e) ∧ isDigit d := by
  simp only [numberTail]
  split
  next d more hdrop =>
    split
    next hd =>
      refine .inr ⟨rest.take (run isDigit rest), d, more, ?_, fun e he => of_mem_take_run he, hd⟩
      rw [← hdrop, List.take_append_drop]
    next => exact .inl rfl
  next => exact .inl rfl

theorem lexeme_of_numberTail {c : Char} (hc : isDigit c) (rest : List Char) :
    (numberTail rest).2 ≤ rest.length ∧
      Lexeme (some (numberTail rest).1) (c :: rest.take (numberTail rest).2) := by
  obtain h | ⟨cs, d, more, rfl, hcs, hd⟩ := numberTail_cases rest
  · rw [h]
    exact ⟨run_le _ _, .int hc fun e he => of_mem_take_run he⟩
  · rw [numberTail_float hcs hd]
    have hmore := run_le isDigit more
    refine ⟨by simp; omega, ?_⟩
    rw [show cs.length + 2 + run isDigit more = cs.length + (run isDigit more + 1 + 1) by omega,
      List.take_length_add_append]
    exact .float hc hcs hd fun e he => of_mem_take_run he

theorem lexeme?_space {c : Char} (hc : isSpace c) (rest : List Char) :
    lexeme? c rest = some (none, run isSpace rest) := by
  unfold lexeme?
  rw [if_pos hc]

theorem lexeme?_name {c : Char} (hc : isNameStart c) (rest : List Char) :
    lexeme? c rest =
      some (some (nameKind (c :: rest.take (run isNameChar rest))), run isNameChar rest) := by
  have hspace : ¬ isSpace c := fun h => by simp [isNameStart_of_isSpace h] at hc
  unfold lexeme?
  rw [if_neg hspace, if_pos hc]

theorem lexeme?_digit {c : Char} (hc : isDigit c) (rest : List Char) :
    lexeme? c rest = some (some (numberTail rest).1, (numberTail rest).2) := by
  have hspace : ¬ isSpace c := fun h => by simp [isDigit_of_isSpace h] at hc
  have hname : ¬ isNameStart c := by simp [isNameStart_of_isDigit hc]
  unfold lexeme?
  rw [if_neg hspace, if_neg hname, if_pos hc]

theorem lexeme?_quote (rest : List Char) :
    lexeme? '"' rest = (stringTail? rest).map fun length => (some .string, length) := rfl

theorem lexeme?_slashes (rest : List Char) :
    lexeme? '/' ('/' :: rest) = some (none, 1 + run (· != '\n') rest) := rfl

theorem lexeme?_colons (rest : List Char) : lexeme? ':' (':' :: rest) = some (some .pathSep, 1) := rfl

theorem lexeme?_mark {c : Char} {kind : Kind} (h : markKind? c = some kind) {rest : List Char}
    (hcolon : ¬ (c = ':' ∧ rest.head? = some ':')) : lexeme? c rest = some (some kind, 0) := by
  obtain ⟨hspace, hname, hdigit, hquote, hslash⟩ := markKind?_classes h
  unfold lexeme?
  rw [if_neg (by simp [hspace]), if_neg (by simp [hname]), if_neg (by simp [hdigit]), if_neg hquote,
    if_neg hslash, if_neg hcolon, h]
  rfl

/-- What lexing takes is a lexeme. -/
theorem lexeme_of_lexeme? {c : Char} {rest : List Char} {kind : Option Kind} {n : Nat}
    (h : lexeme? c rest = some (kind, n)) : n ≤ rest.length ∧ Lexeme kind (c :: rest.take n) := by
  unfold lexeme? at h
  split at h
  next hc =>
    cases h
    exact ⟨run_le _ _, .blank hc fun d hd => of_mem_take_run hd⟩
  split at h
  next hc =>
    cases h
    exact ⟨run_le _ _, .name hc fun d hd => of_mem_take_run hd⟩
  split at h
  next hc =>
    cases h
    exact lexeme_of_numberTail hc rest
  split at h
  next hc =>
    obtain ⟨m, hm, heq⟩ := Option.map_eq_some_iff.1 h
    cases heq
    subst hc
    obtain ⟨body, rest, rfl, hbody, rfl⟩ := of_stringTail? hm
    refine ⟨by simp, ?_⟩
    rw [List.take_length_add_append]
    exact .string hbody
  split at h
  next hc =>
    subst hc
    split at h
    next more =>
      cases h
      rw [Nat.add_comm 1]
      exact ⟨Nat.succ_le_succ (run_le _ _), .comment fun d hd => by simpa using of_mem_take_run hd⟩
    next => cases h
  split at h
  next hc =>
    cases h
    obtain ⟨rfl, hhead⟩ := hc
    obtain ⟨more, rfl⟩ := List.head?_eq_some_iff.1 hhead
    exact ⟨by simp, .pathSep⟩
  next =>
    obtain ⟨k, hk, heq⟩ := Option.map_eq_some_iff.1 h
    cases heq
    exact ⟨Nat.zero_le _, .mark hk⟩

/-- Where a lexeme starts, it or a longer one is taken. -/
theorem lexeme?_of_lexeme {c : Char} {word rest : List Char} {kind : Option Kind}
    (h : Lexeme kind (c :: word)) (hword : word <+: rest) :
    ∃ kind' n, lexeme? c rest = some (kind', n) ∧ word.length ≤ n ∧ (word.length = n → kind' = kind) := by
  generalize hcs : c :: word = cs at h
  cases h with
  | blank hc hspaces =>
    cases hcs
    exact ⟨_, _, lexeme?_space hc rest, le_run hspaces hword, fun _ => rfl⟩
  | comment hline =>
    cases hcs
    obtain ⟨more, rfl⟩ := hword
    refine ⟨_, _, lexeme?_slashes _, ?_, fun _ => rfl⟩
    rw [List.length_cons, Nat.add_comm]
    exact Nat.add_le_add_left (le_run (by simpa using hline) (List.prefix_append _ more)) 1
  | name hc hchars =>
    cases hcs
    refine ⟨_, _, lexeme?_name hc rest, le_run hchars hword, fun hlen => ?_⟩
    rw [← hlen, ← List.prefix_iff_eq_take.1 hword]
  | int hc hdigits =>
    cases hcs
    have hrun := le_run hdigits hword
    refine ⟨_, _, lexeme?_digit hc rest, ?_⟩
    obtain h | ⟨cs, d, more, rfl, hcs, hd⟩ := numberTail_cases rest
    · rw [h]
      exact ⟨hrun, fun _ => rfl⟩
    · -- The digits end before the point, so a longer number is taken.
      rw [run_append_cons hcs (by decide)] at hrun
      rw [numberTail_float hcs hd]
      exact ⟨by simp only; omega, fun h => by simp only at h; omega⟩
  | @float _ d cs ds hc hdigits hd hds =>
    cases hcs
    obtain ⟨more, rfl⟩ := hword
    refine ⟨_, _, lexeme?_digit hc _, ?_⟩
    have hrun := le_run hds (List.prefix_append ds more)
    rw [List.append_assoc, List.cons_append, List.cons_append, numberTail_float hdigits hd]
    refine ⟨?_, fun _ => rfl⟩
    simp only [List.length_append, List.length_cons]
    omega
  | string h =>
    cases hcs
    obtain ⟨more, rfl⟩ := hword
    refine ⟨some .string, _, ?_, Nat.le_refl _, fun _ => rfl⟩
    rw [lexeme?_quote, List.append_assoc, List.singleton_append, stringTail?_append h]
    simp
  | pathSep =>
    cases hcs
    obtain ⟨more, rfl⟩ := hword
    exact ⟨_, _, lexeme?_colons _, Nat.le_refl _, fun _ => rfl⟩
  | @mark _ kind h =>
    cases hcs
    by_cases hcolon : c = ':' ∧ rest.head? = some ':'
    · obtain ⟨rfl, hhead⟩ := hcolon
      obtain ⟨more, rfl⟩ := List.head?_eq_some_iff.1 hhead
      exact ⟨_, _, lexeme?_colons _, Nat.zero_le _, by simp⟩
    · exact ⟨_, _, lexeme?_mark h hcolon, Nat.zero_le _, fun _ => rfl⟩

theorem Lexeme.ne_nil {kind : Option Kind} {word : List Char} (h : Lexeme kind word) : word ≠ [] := by
  cases h <;> simp

/-- Lexing stops only where no lexeme starts. -/
theorem lexeme?_eq_none_iff {c : Char} {rest : List Char} :
    lexeme? c rest = none ↔ Unlexable (c :: rest) := by
  constructor
  · intro hnone kind word hlexeme hword
    cases word with
    | nil => exact hlexeme.ne_nil rfl
    | cons d word =>
      obtain ⟨rfl, hrest⟩ := List.cons_prefix_cons.1 hword
      obtain ⟨kind', n, hsome, -⟩ := lexeme?_of_lexeme hlexeme hrest
      simp [hnone] at hsome
  · intro hun
    cases h : lexeme? c rest with
    | none => rfl
    | some found =>
      have hword : c :: rest.take found.2 <+: c :: rest :=
        List.cons_prefix_cons.2 ⟨rfl, List.take_prefix found.2 rest⟩
      exact absurd hword (hun _ _ (lexeme_of_lexeme? h).2)

/-- Lexing takes the longest lexeme. -/
theorem lexeme?_eq_some_iff {c : Char} {word rest : List Char} {kind : Option Kind} :
    lexeme? c (word ++ rest) = some (kind, word.length) ↔
      Longest kind (c :: word) (c :: (word ++ rest)) := by
  constructor
  · intro h
    have hlexeme := (lexeme_of_lexeme? h).2
    rw [List.take_left] at hlexeme
    refine ⟨hlexeme, List.prefix_append (c :: word) rest, fun kind' word' hlexeme' hword' => ?_⟩
    cases word' with
    | nil => simp
    | cons d word' =>
      obtain ⟨rfl, hrest⟩ := List.cons_prefix_cons.1 hword'
      obtain ⟨_, n, hsome, hle, -⟩ := lexeme?_of_lexeme hlexeme' hrest
      rw [h] at hsome
      cases hsome
      simpa using hle
  · rintro ⟨hlexeme, hword, hlongest⟩
    obtain ⟨kind', n, hsome, hle, hkind⟩ := lexeme?_of_lexeme hlexeme (List.prefix_append word rest)
    obtain ⟨hn, hlexeme'⟩ := lexeme_of_lexeme? hsome
    -- What is taken is a lexeme too, so it is not longer than the longest.
    have hge := hlongest _ _ hlexeme' ((List.cons_prefix_cons).2 ⟨rfl, List.take_prefix n _⟩)
    rw [List.length_cons, List.length_cons, List.length_take_of_le hn] at hge
    have hlen : word.length = n := by omega
    rw [hsome, hkind hlen, hlen]

theorem Longest.of_append {kind : Option Kind} {word text more : List Char}
    (h : Longest kind word (text ++ more)) (hword : word <+: text) : Longest kind word text :=
  ⟨h.lexeme, hword, fun kind' word' hlexeme hword' =>
    h.longest kind' word' hlexeme (hword'.trans (List.prefix_append text more))⟩

/-! ## Whole texts -/

/-- `Cut pos pre rest tokens`: the text `pre ++ rest`, whose first character stands at `pos`, falls
into its longest lexemes up to `rest`, and those of a kind are `tokens`. -/
inductive Cut : Position → List Char → List Char → List Token → Prop where
  | nil {pos : Position} {rest : List Char} : Cut pos [] rest []
  | skip {pos : Position} {word pre rest : List Char} {ts : List Token}
      (hword : Longest none word (word ++ (pre ++ rest))) (h : Cut (pos.advance word) pre rest ts) :
      Cut pos (word ++ pre) rest ts
  | token {pos : Position} {kind : Kind} {word pre rest : List Char} {ts : List Token}
      (hword : Longest (some kind) word (word ++ (pre ++ rest)))
      (h : Cut (pos.advance word) pre rest ts) :
      Cut pos (word ++ pre) rest (⟨kind, String.ofList word, pos⟩ :: ts)

theorem Cut.cons {pos : Position} {kind : Option Kind} {word pre rest : List Char} {ts : List Token}
    (hword : Longest kind word (word ++ (pre ++ rest))) (h : Cut (pos.advance word) pre rest ts) :
    Cut pos (word ++ pre) rest ((kind.map (⟨·, String.ofList word, pos⟩)).toList ++ ts) := by
  cases kind with
  | none => exact .skip hword h
  | some kind => exact .token hword h

/-- Puts tokens in front. -/
def prepend (ts : List Token) (l : Lexed) : Lexed := { l with tokens := ts ++ l.tokens }

theorem scanAfter_length_append (word : List Char) (pos : Position) (rest : List Char) :
    scanAfter word.length pos (word ++ rest) = scanAfter 0 (pos.advance word) rest := by
  induction word generalizing pos with
  | nil => rfl
  | cons c word ih => exact ih (pos.next c)

/-- One lexeme is passed over, and gives a token if it has a kind. -/
theorem scanAfter_longest {kind : Option Kind} {word rest : List Char} (pos : Position)
    (h : Longest kind word (word ++ rest)) :
    scanAfter 0 pos (word ++ rest) = prepend (kind.map (⟨·, String.ofList word, pos⟩)).toList
      (scanAfter 0 (pos.advance word) rest) := by
  cases word with
  | nil => exact absurd rfl h.lexeme.ne_nil
  | cons c word =>
    rw [List.cons_append, scanAfter, lexeme?_eq_some_iff.2 h]
    simp only [scanAfter_length_append, List.take_left]
    cases kind <;> rfl

/-- Lexing finds the lexemes of a cut. -/
theorem Cut.scan {pos : Position} {pre rest : List Char} {ts : List Token} (h : Cut pos pre rest ts) :
    scanAfter 0 pos (pre ++ rest) = prepend ts (scanAfter 0 (pos.advance pre) rest) := by
  induction h with
  | nil => rfl
  | skip hword h ih =>
    rw [List.append_assoc, scanAfter_longest _ hword, ih, Position.advance_append]
    rfl
  | token hword h ih =>
    rw [List.append_assoc, scanAfter_longest _ hword, ih, Position.advance_append]
    rfl

/-- A cut of a whole text is its lexing. -/
theorem Cut.scan_eq {pos : Position} {text : List Char} {ts : List Token} (h : Cut pos text [] ts) :
    scanAfter 0 pos text = ⟨ts, none⟩ := by
  have hscan := h.scan
  rw [List.append_nil] at hscan
  rw [hscan]
  simp [prepend, scanAfter]

/-- What comes before a place lexes alone as it lexes there. -/
theorem Cut.alone {pos : Position} {pre rest : List Char} {ts : List Token} (h : Cut pos pre rest ts) :
    Cut pos pre [] ts := by
  -- A lexeme that starts the text before the place also starts the whole text.
  have hsub : ∀ {kind : Option Kind} {word pre rest : List Char},
      Longest kind word (word ++ (pre ++ rest)) → Longest kind word (word ++ (pre ++ [])) := by
    intro kind word pre rest h
    rw [← List.append_assoc] at h
    rw [List.append_nil]
    exact h.of_append (List.prefix_append word pre)
  induction h with
  | nil => exact .nil
  | skip hword h ih => exact .skip (hsub hword) ih
  | token hword h ih => exact .token (hsub hword) ih

/-- Why lexing ends before `rest`, whose first character stands at `pos`. -/
inductive Halts (pos : Position) : List Char → Option (Char × Position) → Prop where
  | finished : Halts pos [] none
  | stopped {c : Char} {rest : List Char} (h : Unlexable (c :: rest)) :
      Halts pos (c :: rest) (some (c, pos))

/-- Lexing cuts a text up to the place where no lexeme starts. -/
theorem scan_cut (pos : Position) (text : List Char) :
    ∃ pre rest, text = pre ++ rest ∧ Cut pos pre rest (scanAfter 0 pos text).tokens ∧
      Halts (pos.advance pre) rest (scanAfter 0 pos text).stop := by
  induction hlen : text.length using Nat.strongRecOn generalizing pos text with
  | _ n ih =>
  cases text with
  | nil => exact ⟨[], [], rfl, .nil, .finished⟩
  | cons c rest =>
    cases h : lexeme? c rest with
    | none =>
      refine ⟨[], c :: rest, rfl, ?_, ?_⟩
      · rw [scanAfter, h]
        exact .nil
      · rw [scanAfter, h]
        exact .stopped (lexeme?_eq_none_iff.1 h)
    | some found =>
      obtain ⟨kind, n⟩ := found
      have hn := (lexeme_of_lexeme? h).1
      obtain ⟨word, rest, rfl, rfl⟩ : ∃ word more, rest = word ++ more ∧ n = word.length :=
        ⟨rest.take n, rest.drop n, (List.take_append_drop ..).symm, (List.length_take_of_le hn).symm⟩
      have hlongest := lexeme?_eq_some_iff.1 h
      -- What follows the lexeme is shorter, and starts where the lexeme ends.
      obtain ⟨pre, rest, rfl, hcut, hhalts⟩ := ih rest.length (by simp at hlen; omega)
        (pos.advance (c :: word)) rest rfl
      have hscan : scanAfter 0 pos (c :: (word ++ (pre ++ rest))) = _ := scanAfter_longest pos hlongest
      rw [← Position.advance_append] at hhalts
      rw [hscan]
      exact ⟨c :: (word ++ pre), rest, by simp, hcut.cons hlongest, hhalts⟩

end Lexed

end DeriveKit
