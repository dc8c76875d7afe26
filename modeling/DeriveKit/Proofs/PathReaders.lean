import DeriveKit.Proofs.VerbatimRoundTrip
import DeriveKit.Proofs.WrittenPaths

/-!
# The two readers of paths

A path is read from a snippet by lexing it and following the grammar, and from a plain text by splitting and
trimming it. On texts without comments the second reader agrees with the first, wherever blanks stand
(`path_readers_agree`).

Without comments, tokens stand in a text with blanks between them and nothing else (`Spaced`). So what the
first reader takes for a path is names with blanks around them, joined by `::`, and that is a written path.
-/
namespace DeriveKit

open DeriveKit.Grammar
open DeriveKit.Lexed (Lexes Lexeme Boundary Cut isSpace isNameStart isNameChar)

/-! ## Names and blanks -/

theorem isBlank_of_isNameChar {c : Char} (h : isNameChar c = true) : Text.isBlank c = false := by
  have hcode : 48 ≤ c.toNat ∧ c.toNat ≤ 57 ∨ 65 ≤ c.toNat ∧ c.toNat ≤ 90 ∨ 97 ≤ c.toNat ∧ c.toNat ≤ 122 ∨
      c.toNat = 95 := by
    simp only [isNameChar, isNameStart, Text.isDigit, Bool.or_eq_true, Bool.and_eq_true, decide_eq_true_eq,
      beq_iff_eq] at h
    rcases h with ((h | h) | rfl) | h
    · exact .inr (.inl h)
    · exact .inr (.inr (.inl h))
    · exact .inr (.inr (.inr rfl))
    · exact .inl h
  simp [Text.isBlank, Text.blankRanges]
  omega

theorem isBlank_of_isSpace {c : Char} (h : isSpace c = true) : Text.isBlank c = true := by
  simp only [isSpace, Bool.or_eq_true, beq_iff_eq] at h
  rcases h with (((rfl | rfl) | rfl) | rfl) | rfl <;> rfl

theorem boundary_of_isSpace {c : Char} (h : isSpace c = true) : isNameChar c = false ∧ c ≠ '.' := by
  simp only [isSpace, Bool.or_eq_true, beq_iff_eq] at h
  rcases h with (((rfl | rfl) | rfl) | rfl) | rfl <;> decide

theorem Segment.clear_of_isPlain {s : Segment} (hs : s.isPlain = true) : s.Clear := by
  obtain ⟨c, cs, hchars, hc, hcs, -⟩ := Segment.exists_cons hs
  have hname : ∀ d ∈ s.val.toList, isNameChar d = true := by
    rw [hchars]
    exact List.forall_mem_cons.2 ⟨by rw [isNameChar, hc, Bool.true_or], hcs⟩
  refine ⟨⟨fun h => ?_, fun h => ?_⟩, fun d hd => ?_, fun d hd => ?_⟩
  · exact absurd (hname _ h) (by decide)
  · exact absurd (hname _ h) (by decide)
  · exact isBlank_of_isNameChar (hname d (List.mem_of_mem_head? hd))
  · exact isBlank_of_isNameChar (hname d (List.mem_of_mem_getLast? hd))

/-! ## Tokens in texts without comments -/

/-- Tokens with blanks around them and nothing else. -/
inductive Spaced : List Char → List Token → Prop where
  | blanks {gap : List Char} (hgap : ∀ c ∈ gap, isSpace c = true) : Spaced gap []
  | token {gap rest : List Char} {t : Token} {ts : List Token} (hgap : ∀ c ∈ gap, isSpace c = true)
      (h : Spaced rest ts) : Spaced (gap ++ (t.text.toList ++ rest)) (t :: ts)

theorem Spaced.after_blanks {gap text : List Char} {ts : List Token} (h : Spaced text ts)
    (hgap : ∀ c ∈ gap, isSpace c = true) : Spaced (gap ++ text) ts := by
  cases h with
  | blanks hgap' => exact .blanks (List.forall_mem_append.2 ⟨hgap, hgap'⟩)
  | token hgap' h =>
    rw [← List.append_assoc]
    exact .token (List.forall_mem_append.2 ⟨hgap, hgap'⟩) h

theorem spaced_of_cut {pos : Position} {text rest : List Char} {ts : List Token} (h : Cut pos text rest ts)
    (hcomment : ¬ ['/', '/'] <:+: text) : Spaced text ts := by
  have hbehind {word pre : List Char} (h : ¬ ['/', '/'] <:+: word ++ pre) : ¬ ['/', '/'] <:+: pre :=
    fun hslashes => h (hslashes.trans (List.suffix_append ..).isInfix)
  induction h with
  | nil => exact .blanks (by simp)
  | @skip pos word pre rest ts hword h ih =>
    have hpre := hbehind hcomment
    generalize hkind : none = kind at hword
    cases hword.lexeme with
    | @blank c cs hc hcs => exact (ih hpre).after_blanks (List.forall_mem_cons.2 ⟨hc, hcs⟩)
    | @comment cs hcs => exact absurd ⟨[], cs ++ pre, rfl⟩ hcomment
    | _ => cases hkind
  | @token pos kind word pre rest ts hword h ih =>
    have hpre := hbehind hcomment
    have htoken := @Spaced.token [] pre ⟨kind, String.ofList word, pos⟩ ts (by simp) (ih hpre)
    rwa [String.toList_ofList] at htoken

theorem Lexed.Lexeme.of_pathSep {word : List Char} (h : Lexeme (some .pathSep) word) : word = [':', ':'] := by
  generalize hkind : some Token.Kind.pathSep = kind at h
  cases h with
  | pathSep => rfl
  | @name c cs hc hcs =>
    simp only [Option.some.injEq, Lexed.nameKind] at hkind
    repeat' split at hkind
    all_goals cases hkind
  | @mark c _ h =>
    cases hkind
    unfold Lexed.markKind? at h
    split at h <;> cases h
  | blank | comment | int | float | string => cases hkind

/-! ## Names joined by colons -/

namespace Path

/-- A name with the blanks of a snippet around it. -/
structure Piece.IsName (w : Piece) : Prop where
  plain : w.segment.isPlain = true
  before : ∀ c ∈ w.before, isSpace c = true
  after : ∀ c ∈ w.after, isSpace c = true

theorem Piece.exists_isName {before after : List Char} {s : Segment} (hs : s.isPlain = true)
    (hbefore : ∀ c ∈ before, isSpace c = true) (hafter : ∀ c ∈ after, isSpace c = true) :
    ∃ w : Piece, w.IsName ∧ w.segment = s ∧ w.chars = before ++ (s.val.toList ++ after) :=
  ⟨⟨before, s, after, fun c hc => isBlank_of_isSpace (hbefore c hc), fun c hc => isBlank_of_isSpace (hafter c hc),
    s.clear_of_isPlain hs⟩, ⟨hs, hbefore, hafter⟩, rfl, rfl⟩

/-- The characters of pieces, each with `::` in front. -/
def laterChars (ws : List Piece) : List Char := ws.flatMap fun w => ':' :: ':' :: w.chars

theorem toList_join (w : Piece) (ws : List Piece) :
    ("::".intercalate ((w :: ws).map Piece.text)).toList = w.chars ++ laterChars ws := by
  have hchars : ∀ v : Piece, v.text.toList = v.chars := fun v => String.toList_ofList
  rw [String.toList_intercalate, List.map_map, List.map_cons, intercalate_cons, List.flatMap_map]
  simp [hchars, laterChars]

/-- The steps of a path are pieces, and what stands before the first `::` is blank. -/
theorem exists_pieces_of_steps {text : List Char} {ts : List Token} {tail : List Segment}
    (h : Star IsStep ts tail) (hspaced : Spaced text ts) (hts : ∀ t ∈ ts, Lexeme (some t.kind) t.text.toList) :
    ∃ gap ws, (∀ c ∈ gap, isSpace c = true) ∧ (∀ w ∈ ws, w.IsName) ∧ ws.map Piece.segment = tail ∧
      text = gap ++ laterChars ws := by
  induction h generalizing text with
  | nil =>
    cases hspaced with
    | blanks hgap => exact ⟨text, [], hgap, by simp, rfl, by simp [laterChars]⟩
  | @cons us vs s tail hstep hs ih =>
    obtain ⟨hus, hvs⟩ := List.forall_mem_append.1 hts
    cases hstep with
    | @sep sep names _ hsep hsegment =>
      obtain ⟨hcolons, hnames⟩ := List.forall_mem_cons.1 hus
      have hplain := Segment.isPlain_of_isSegment hsegment hnames
      rw [hsep] at hcolons
      cases hsegment with
      | @name t _ hkind htext =>
        -- Two tokens stand in front of what is left: the colons and the name.
        cases hspaced with
        | @token gap rest _ _ hgap hspaced =>
          cases hspaced with
          | @token gap' rest' _ _ hgap' hspaced =>
            obtain ⟨gap'', ws, hgap'', hws, rfl, rfl⟩ := ih hspaced hvs
            obtain ⟨w, hw, rfl, hchars⟩ := Piece.exists_isName hplain hgap' hgap''
            refine ⟨gap, w :: ws, hgap, List.forall_mem_cons.2 ⟨hw, hws⟩, rfl, ?_⟩
            rw [hcolons.of_pathSep, htext]
            simp [laterChars, hchars]

/-- A snippet without comments that is a path is names joined by `::`. -/
theorem exists_pieces_of_readPath {text : String} {p : Path} (hcomment : ¬ ['/', '/'] <:+: text.toList)
    (h : Source.readPath text = .ok p) :
    ∃ w ws, (∀ v ∈ w :: ws, Piece.IsName v) ∧ text = "::".intercalate ((w :: ws).map Piece.text) ∧
      p = ⟨w.segment, ws.map Piece.segment⟩ := by
  obtain ⟨ts, hcut, hpath⟩ := (Source.read_eq_ok_iff_of_exact Reader.exact_path).1 h
  have hlexemes := hcut.lexemes
  have hspaced := spaced_of_cut hcut hcomment
  cases hpath with
  | @mk names us head tail hhead htail =>
    obtain ⟨hnames, hus⟩ := List.forall_mem_append.1 hlexemes
    have hplain := Segment.isPlain_of_isSegment hhead hnames
    cases hhead with
    | @name t _ hkind htext =>
      generalize hchars : text.toList = chars at hspaced
      cases hspaced with
      | @token gap rest _ _ hgap hspaced =>
        obtain ⟨gap', ws, hgap', hws, rfl, rfl⟩ := exists_pieces_of_steps htail hspaced hus
        obtain ⟨w, hw, rfl, hpiece⟩ := Piece.exists_isName hplain hgap hgap'
        refine ⟨w, ws, List.forall_mem_cons.2 ⟨hw, hws⟩, ?_, rfl⟩
        rw [← String.toList_inj, toList_join, hchars, hpiece, htext]
        simp

/-- What may stand behind a piece. -/
def FollowsPiece (rest : List Char) : Prop := ∀ c ∈ rest.head?, c = ':'

theorem followsPiece_laterChars (ws : List Piece) : FollowsPiece (laterChars ws ++ []) := by
  cases ws with
  | nil => simp [FollowsPiece, laterChars]
  | cons w ws => simp [FollowsPiece, laterChars]

theorem lexes_piece {w : Piece} (hw : w.IsName) {rest : List Char} (hrest : FollowsPiece rest) :
    Lexes w.chars rest (IsSegment · w.segment) := by
  have hspace : ∀ c ∈ rest.head?, isSpace c = false := by
    intro c hc
    rw [hrest c hc]
    rfl
  have hboundary : Boundary (w.after ++ rest) := by
    cases hafter : w.after with
    | nil =>
      intro c hc
      rw [hrest c hc]
      decide
    | cons c after => exact Lexed.boundary_cons (boundary_of_isSpace (hw.after c (by simp [hafter])))
  have hname := (lexes_segment hw.plain hboundary).append (Lexed.lexes_blanks hw.after hspace)
  have hhead : ∀ c ∈ (w.segment.val.toList ++ w.after ++ rest).head?, isSpace c = false := by
    obtain ⟨c, cs, hchars, hc, hcs, -⟩ := Segment.exists_cons hw.plain
    rw [hchars, List.append_assoc]
    exact (Lexeme.name hc hcs).isSpace_head (w.after ++ rest)
  refine ((Lexed.lexes_blanks hw.before hhead).append hname).mono ?_
  rintro _ ⟨_, _, rfl, rfl, us, _, rfl, hus, rfl⟩
  simpa using hus

theorem lexes_laterChars {ws : List Piece} (hws : ∀ w ∈ ws, w.IsName) :
    Lexes (laterChars ws) [] (Star IsStep · (ws.map Piece.segment)) := by
  induction ws with
  | nil => exact Lexed.Lexes.nil.mono fun ts hts => hts ▸ .nil
  | cons w ws ih =>
    obtain ⟨hw, hws⟩ := List.forall_mem_cons.1 hws
    have hall := (Lexed.lexes_colons _).append ((lexes_piece hw (followsPiece_laterChars ws)).append (ih hws))
    refine hall.mono ?_
    rintro _ ⟨_, _, rfl, ⟨sep, rfl, hsep, -⟩, us, vs, rfl, hus, hvs⟩
    show Star IsStep ((sep :: us) ++ vs) _
    exact .cons (.sep hsep hus) hvs

/-- Names joined by `::` are read as a path, wherever blanks stand. -/
theorem readPath_pieces {w : Piece} {ws : List Piece} (hws : ∀ v ∈ w :: ws, v.IsName) :
    Source.readPath ("::".intercalate ((w :: ws).map Piece.text)) = .ok ⟨w.segment, ws.map Piece.segment⟩ := by
  obtain ⟨hw, hws⟩ := List.forall_mem_cons.1 hws
  have hlexes := (lexes_piece hw (followsPiece_laterChars ws)).append (lexes_laterChars hws)
  obtain ⟨_, hcut, us, vs, rfl, hus, hvs⟩ := hlexes .start
  refine (Source.read_eq_ok_iff_of_exact Reader.exact_path).2 ⟨us ++ vs, ?_, .mk hus hvs⟩
  rw [toList_join]
  exact hcut

/-- A text without comments is read as a path exactly if it is names that are joined by `::`, with blanks around
names and colons or without. And then it is parsed as the same path. -/
theorem path_readers_agree {text : String} (hcomment : ¬ ['/', '/'] <:+: text.toList) (p : Path) :
    (Source.readPath text = .ok p → parse text = .ok p) ∧
    (Source.readPath text = .ok p ↔ ∃ w ws, (∀ v ∈ w :: ws, Piece.IsName v) ∧
      text = "::".intercalate ((w :: ws).map Piece.text) ∧ p = ⟨w.segment, ws.map Piece.segment⟩) := by
  refine ⟨fun h => ?_, fun h => exists_pieces_of_readPath hcomment h, ?_⟩
  · obtain ⟨w, ws, -, rfl, rfl⟩ := exists_pieces_of_readPath hcomment h
    exact parse_pieces (.inl rfl) w ws
  · rintro ⟨w, ws, hws, rfl, rfl⟩
    exact readPath_pieces hws

/-- Every blank of a snippet, around names and colons. -/
theorem path_readers_agree_spaced :
    let text := "\ta \n::\x0cb1\r"
    let p : Path := ⟨⟨"a", by decide⟩, [⟨"b1", by decide⟩]⟩
    ¬ ['/', '/'] <:+: text.toList ∧ Source.readPath text = .ok p ∧ parse text = .ok p := by
  intro text p
  have hcomment : ¬ ['/', '/'] <:+: text.toList := by decide +kernel
  have hread : Source.readPath text = .ok p := by
    obtain ⟨q, hq, htest⟩ := ok_of_any (show (Source.readPath text).toOption.any (· == p) = true by decide +kernel)
    rw [hq, eq_of_beq htest]
  exact ⟨hcomment, hread, (path_readers_agree hcomment p).1 hread⟩

end Path

end DeriveKit
