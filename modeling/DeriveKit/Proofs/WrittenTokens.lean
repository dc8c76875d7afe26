import DeriveKit.Proofs.Words

/-!
# Tokens written down

Tokens can be written one behind the other, with blank space and comments between them. Lexing gives them
back, each at its place: the line is counted by the line feeds in front of it, the column by the characters
since the last of these (`ofText_written`).

What a token may look like is said by `Spelled`, what may separate two tokens by `Gap`. A gap that is not empty
ends every token, and lexing passes over it one blank or one comment at a time.
-/
namespace DeriveKit

open DeriveKit.Text
open DeriveKit.Token (Kind)

namespace Position

/-- The place behind a text: a line for each line feed, a column for each character since the last of them. -/
def behind (text : List Char) : Position :=
  ⟨1 + text.count '\n', 1 + (text.reverse.takeWhile (· != '\n')).length⟩

theorem behind_concat (text : List Char) (c : Char) : behind (text ++ [c]) = (behind text).next c := by
  by_cases hc : c = '\n'
  · subst hc
    simp [behind, next, Nat.add_assoc]
  · simp [behind, next, hc, Nat.add_comm]

theorem advance_behind (before text : List Char) : (behind before).advance text = behind (before ++ text) := by
  induction text generalizing before with
  | nil => rw [List.append_nil]; rfl
  | cons c text ih =>
    rw [List.append_cons, ← ih, behind_concat]
    rfl

end Position

namespace Lexed

/-! ## The look of tokens -/

/-- The kinds that have a single text. -/
def fixedTexts : List (Kind × String) :=
  [(.pub, "pub"), (.struct, "struct"), (.enum, "enum"), (.mutable, "mut"), (.trueWord, "true"),
    (.falseWord, "false"), (.leftParen, "("), (.rightParen, ")"), (.comma, ","), (.equals, "="),
    (.pathSep, "::"), (.colon, ":"), (.semicolon, ";"), (.leftBrace, "\x7b"), (.rightBrace, "\x7d"),
    (.leftBracket, "["), (.rightBracket, "]"), (.less, "<"), (.greater, ">"), (.ampersand, "&"), (.hash, "#")]

/-- The texts of each kind. -/
inductive Spelled : Kind → List Char → Prop where
  | fixed {kind : Kind} (text : String) (h : (kind, text) ∈ fixedTexts) : Spelled kind text.toList
  | name {c : Char} {cs : List Char} (hc : c.isAlpha = true ∨ c = '_')
      (hcs : ∀ d ∈ cs, d.isAlphanum = true ∨ d = '_') (hkeyword : String.ofList (c :: cs) ∉ keywords) :
      Spelled .name (c :: cs)
  | int {c : Char} {cs : List Char} (hc : c.isDigit = true) (hcs : ∀ d ∈ cs, d.isDigit = true) :
      Spelled .int (c :: cs)
  | float {c d : Char} {cs ds : List Char} (hc : c.isDigit = true) (hcs : ∀ e ∈ cs, e.isDigit = true)
      (hd : d.isDigit = true) (hds : ∀ e ∈ ds, e.isDigit = true) :
      Spelled .float (c :: (cs ++ '.' :: d :: ds))
  | string {body : List Char} (h : StringBody body) : Spelled .string ('"' :: (body ++ ['"']))

theorem isDigit_eq (c : Char) : isDigit c = c.isDigit := rfl

theorem isNameStart_iff {c : Char} : isNameStart c = true ↔ c.isAlpha = true ∨ c = '_' := by
  have hupper : c.isUpper = (decide ('A' ≤ c) && decide (c ≤ 'Z')) := Bool.decide_and _ _
  have halpha : c.isAlpha = (c.isUpper || c.isLower) := rfl
  have hstart : isNameStart c = (c.isAlpha || c == '_') := by
    rw [halpha, hupper]
    rfl
  rw [hstart, Bool.or_eq_true, beq_iff_eq]

theorem isNameChar_iff {c : Char} : isNameChar c = true ↔ c.isAlphanum = true ∨ c = '_' := by
  rw [isNameChar, Bool.or_eq_true, isNameStart_iff, isDigit_eq, Char.isAlphanum, Bool.or_eq_true, or_right_comm]

/-- A text that lexing takes as a whole is a lexeme. -/
theorem lexeme_of_whole {kind : Kind} {text : List Char}
    (h : text.head?.bind (fun c => lexeme? c text.tail) = some (some kind, text.tail.length)) :
    Lexeme (some kind) text := by
  cases text with
  | nil => cases h
  | cons c rest =>
    have hlexeme := (lexeme_of_lexeme? h).2
    rwa [List.tail_cons, List.take_length] at hlexeme

theorem Spelled.lexeme {kind : Kind} {text : List Char} (h : Spelled kind text) : Lexeme (some kind) text := by
  cases h with
  | fixed text h =>
    have hall : ∀ p ∈ fixedTexts, p.2.toList.head?.bind (fun c => lexeme? c p.2.toList.tail) =
        some (some p.1, p.2.toList.tail.length) := by
      decide
    exact lexeme_of_whole (hall (kind, text) h)
  | name hc hcs hkeyword =>
    have hkind := nameKind_of_not_keyword hkeyword
    rw [String.toList_ofList] at hkind
    rw [← hkind]
    exact .name (isNameStart_iff.2 hc) fun d hd => isNameChar_iff.2 (hcs d hd)
  | int hc hcs =>
    simp only [← isDigit_eq] at hc hcs
    exact .int hc hcs
  | float hc hcs hd hds =>
    simp only [← isDigit_eq] at hc hcs hd hds
    exact .float hc hcs hd hds
  | string h => exact .string h

/-! ## What separates tokens -/

/-- Blanks, and comments with the line feeds that end them. -/
inductive Gap : List Char → Prop where
  | nil : Gap []
  | space {c : Char} {gap : List Char} (hc : c ∈ [' ', '\t', '\x0c', '\r', '\n']) (h : Gap gap) : Gap (c :: gap)
  | comment (line : List Char) {gap : List Char} (hline : '\n' ∉ line) (h : Gap gap) :
      Gap ('/' :: '/' :: (line ++ '\n' :: gap))

theorem isSpace_iff {c : Char} : isSpace c = true ↔ c ∈ [' ', '\t', '\x0c', '\r', '\n'] := by
  simp [isSpace, or_assoc]

/-- A run of blanks may be cut at its start. -/
theorem scanAfter_run_isSpace (pos : Position) (rest : List Char) :
    scanAfter (run isSpace rest) pos rest = scanAfter 0 pos rest := by
  cases rest with
  | nil => rfl
  | cons c rest =>
    by_cases hc : isSpace c = true
    · have hrun : run isSpace (c :: rest) = run isSpace rest + 1 := by
        rw [run, List.takeWhile_cons_of_pos hc, List.length_cons, run]
      rw [hrun, scanAfter, scanAfter, lexeme?_space hc]
    · have hrun : run isSpace (c :: rest) = 0 := by
        rw [run, List.takeWhile_cons_of_neg hc, List.length_nil]
      rw [hrun]

theorem scanAfter_space {c : Char} (hc : isSpace c = true) (pos : Position) (rest : List Char) :
    scanAfter 0 pos (c :: rest) = scanAfter 0 (pos.next c) rest := by
  rw [scanAfter, lexeme?_space hc]
  exact scanAfter_run_isSpace (pos.next c) rest

theorem scanAfter_comment {line : List Char} (hline : '\n' ∉ line) (pos : Position) (rest : List Char) :
    scanAfter 0 pos ('/' :: '/' :: (line ++ '\n' :: rest)) =
      scanAfter 0 (pos.advance ('/' :: '/' :: line)) ('\n' :: rest) := by
  have hrun : run (· != '\n') (line ++ '\n' :: rest) = line.length := by
    refine run_append_cons ?_ (by decide)
    intro c hc
    simpa using ne_of_mem_of_not_mem hc hline
  rw [scanAfter, lexeme?_slashes, hrun, Nat.add_comm]
  exact scanAfter_length_append ('/' :: line) (pos.next '/') ('\n' :: rest)

/-- A gap is passed over. -/
theorem Gap.scan {gap : List Char} (h : Gap gap) (pos : Position) (rest : List Char) :
    scanAfter 0 pos (gap ++ rest) = scanAfter 0 (pos.advance gap) rest := by
  induction h generalizing pos with
  | nil => rfl
  | space hc h ih => exact (scanAfter_space (isSpace_iff.2 hc) pos _).trans (ih _)
  | @comment line gap hline h ih =>
    have hsplit : '/' :: '/' :: (line ++ '\n' :: gap) ++ rest = '/' :: '/' :: (line ++ '\n' :: (gap ++ rest)) := by
      simp
    -- The comment ends before its line feed, which is passed over as a blank.
    rw [hsplit, scanAfter_comment hline, scanAfter_space rfl, ih]
    congr 1
    simp [Position.advance]

/-- A gap ends the token in front of it. -/
theorem Gap.boundary {gap rest : List Char} (h : Gap gap) (hend : gap = [] → rest = []) :
    Boundary (gap ++ rest) ∧ (gap ++ rest).head? ≠ some ':' := by
  cases h with
  | nil =>
    rw [hend rfl]
    exact ⟨by simp [Boundary], by simp⟩
  | space hc h =>
    simp only [List.mem_cons, List.not_mem_nil, or_false] at hc
    rcases hc with rfl | rfl | rfl | rfl | rfl <;> exact ⟨boundary_cons (by decide), by simp⟩
  | comment line hline h => exact ⟨boundary_cons (by decide), by simp⟩

/-! ## Whole texts -/

/-- A token as it is written, and the gap behind it. -/
structure Written where
  kind : Kind
  text : List Char
  gap : List Char
  spelled : Spelled kind text
  isGap : Gap gap

namespace Written

/-- The characters of written tokens in order. -/
def chars (ws : List Written) : List Char := ws.flatMap fun w => w.text ++ w.gap

theorem chars_cons (w : Written) (ws : List Written) : chars (w :: ws) = w.text ++ (w.gap ++ chars ws) := by
  simp [chars]

/-- The tokens, each at the place behind all that is written before it. -/
def tokens (lead : List Char) (ws : List Written) : List Token :=
  ws.mapIdx fun i w => ⟨w.kind, String.ofList w.text, .behind (lead ++ chars (ws.take i))⟩

theorem tokens_cons (lead : List Char) (w : Written) (ws : List Written) :
    tokens lead (w :: ws) =
      ⟨w.kind, String.ofList w.text, .behind lead⟩ :: tokens (lead ++ (w.text ++ w.gap)) ws := by
  simp [tokens, chars, List.mapIdx_cons]

/-- One token is scanned with the gap behind it. -/
theorem scan_cons (lead : List Char) (w : Written) (rest : List Char) (hend : w.gap = [] → rest = []) :
    scanAfter 0 (.behind lead) (w.text ++ (w.gap ++ rest)) =
      prepend [⟨w.kind, String.ofList w.text, .behind lead⟩]
        (scanAfter 0 (.behind (lead ++ (w.text ++ w.gap))) rest) := by
  obtain ⟨hboundary, hcolon⟩ := w.isGap.boundary hend
  rw [(w.spelled.lexeme.cut (fun _ => hcolon) hboundary (.behind lead)).scan, w.isGap.scan,
    ← Position.advance_append, Position.advance_behind]

/-- Scanned from behind `lead`, written tokens are found where they stand. -/
theorem scan_chars (lead : List Char) (ws : List Written) (hgaps : ∀ w ∈ ws.dropLast, w.gap ≠ []) :
    scanAfter 0 (.behind lead) (chars ws) = ⟨tokens lead ws, none⟩ := by
  induction ws generalizing lead with
  | nil => rfl
  | cons w ws ih =>
    -- A gap may be empty at the end only, where no token follows.
    obtain ⟨hend, htail⟩ : (w.gap = [] → chars ws = []) ∧ ∀ v ∈ ws.dropLast, v.gap ≠ [] := by
      cases ws with
      | nil => exact ⟨fun _ => rfl, by simp⟩
      | cons v ws =>
        rw [List.dropLast_cons_cons, List.forall_mem_cons] at hgaps
        exact ⟨fun hgap => absurd hgap hgaps.1, hgaps.2⟩
    rw [chars_cons, scan_cons lead w _ hend, ih _ htail, tokens_cons]
    rfl

end Written

/-- Whatever tokens are written, with some gap between any two and perhaps gaps at both ends: lexing the text
gives these tokens, each at the place that the characters before it make. -/
theorem ofText_written {lead : List Char} {ws : List Written} (hlead : Gap lead)
    (hgaps : ∀ w ∈ ws.dropLast, w.gap ≠ []) :
    ofText (String.ofList (lead ++ Written.chars ws)) = ⟨Written.tokens lead ws, none⟩ := by
  rw [ofText, String.toList_ofList, hlead.scan, ← Written.scan_chars lead ws hgaps,
    ← List.nil_append lead, ← Position.advance_behind]
  rfl

/-- Neighbours that would run together, slashes and a line feed inside a string, a quote inside a comment. -/
def Written.sample : List Written :=
  [⟨.colon, _, [' '], .fixed ":" (by decide), .space (by decide) .nil⟩,
    ⟨.colon, _, ['\t'], .fixed ":" (by decide), .space (by decide) .nil⟩,
    ⟨.pathSep, _, ['\r'], .fixed "::" (by decide), .space (by decide) .nil⟩,
    ⟨.int, ['1'], _, .int rfl (by simp), .comment ['"'] (by decide) .nil⟩,
    ⟨.float, _, [' '], @Spelled.float '1' '5' [] [] rfl (by simp) rfl (by simp), .space (by decide) .nil⟩,
    ⟨.string, ['"', '/', '/', '\n', '\\', '"', '"'], [' '],
      .string (.plain (by decide) (by decide) <| .plain (by decide) (by decide) <|
        .plain (by decide) (by decide) <| .escape (by decide) .nil), .space (by decide) .nil⟩,
    ⟨.name, ['p', 'u', 'b', 's'], [], .name (.inl rfl) (by simp) (by decide), .nil⟩]

theorem ofText_written_sample :
    ofText "\n: :\t::\r1//\"\n1.5 \"//\n\\\"\" pubs" =
      ⟨[⟨.colon, ":", ⟨2, 1⟩⟩, ⟨.colon, ":", ⟨2, 3⟩⟩, ⟨.pathSep, "::", ⟨2, 5⟩⟩, ⟨.int, "1", ⟨2, 8⟩⟩,
        ⟨.float, "1.5", ⟨3, 1⟩⟩, ⟨.string, "\"//\n\\\"\"", ⟨3, 5⟩⟩, ⟨.name, "pubs", ⟨4, 5⟩⟩], none⟩ := by
  have hlead : Gap ['\n'] := .space (by decide) .nil
  have hgaps : ∀ w ∈ Written.sample.dropLast, w.gap ≠ [] := by simp [Written.sample]
  have htext : String.ofList (['\n'] ++ Written.chars Written.sample) =
      "\n: :\t::\r1//\"\n1.5 \"//\n\\\"\" pubs" := by
    decide +kernel
  have htokens : Written.tokens ['\n'] Written.sample =
      [⟨.colon, ":", ⟨2, 1⟩⟩, ⟨.colon, ":", ⟨2, 3⟩⟩, ⟨.pathSep, "::", ⟨2, 5⟩⟩, ⟨.int, "1", ⟨2, 8⟩⟩,
        ⟨.float, "1.5", ⟨3, 1⟩⟩, ⟨.string, "\"//\n\\\"\"", ⟨3, 5⟩⟩, ⟨.name, "pubs", ⟨4, 5⟩⟩] := by
    decide +kernel
  rw [← htext, ← htokens]
  exact ofText_written hlead hgaps

end Lexed

end DeriveKit
