import DeriveKit.Path
import DeriveKit.Proofs.Joins

/-!
# Paths written and parsed

Parsing undoes writing: segments joined by `::` or by dots, with blanks around each of them, are parsed as
the path that they make. And a text is refused exactly if one of its parts is blank, where the parts are those
between its `::`, or between its dots if it has no `::` (`parse_undoes_writing`).

A text has one list of parts, and the two splits of the parser find it. So a join is split into the parts that
were joined as soon as these are its parts.
-/
namespace DeriveKit

namespace Text

/-! ## Trimming -/

/-- No blank stands at either end. -/
def Trimmed (cs : List Char) : Prop :=
  (∀ c ∈ cs.head?, isBlank c = false) ∧ ∀ c ∈ cs.getLast?, isBlank c = false

theorem dropWhile_isBlank_append {before cs : List Char} (hbefore : ∀ c ∈ before, isBlank c = true)
    (hcs : ∀ c ∈ cs.head?, isBlank c = false) : (before ++ cs).dropWhile isBlank = cs := by
  rw [List.dropWhile_append_of_pos hbefore]
  cases cs with
  | nil => rfl
  | cons c cs => rw [List.dropWhile_cons_of_neg (by simp [hcs c rfl])]

/-- Blanks are dropped in front of a text and the first character that is none is kept. -/
theorem exists_dropWhile_isBlank (cs : List Char) :
    ∃ before, (∀ c ∈ before, isBlank c = true) ∧ cs = before ++ cs.dropWhile isBlank ∧
      ∀ c ∈ (cs.dropWhile isBlank).head?, isBlank c = false := by
  refine ⟨cs.takeWhile isBlank, ?_, List.takeWhile_append_dropWhile.symm, ?_⟩
  · intro c hc
    exact List.all_eq_true.1 List.all_takeWhile c hc
  · intro c hc
    have hhead := List.head?_dropWhile_not isBlank cs
    rw [Option.mem_def.1 hc] at hhead
    exact hhead

/-- What trimming takes away is blank, and what it leaves is trimmed. -/
theorem exists_trim (cs : List Char) :
    ∃ before after, (∀ c ∈ before, isBlank c = true) ∧ (∀ c ∈ after, isBlank c = true) ∧
      cs = before ++ (trim cs ++ after) ∧ Trimmed (trim cs) := by
  obtain ⟨before, hbefore, hstart, hhead⟩ := exists_dropWhile_isBlank cs
  obtain ⟨after, hafter, hend, hlast⟩ := exists_dropWhile_isBlank (trimStart cs).reverse
  have hsplit : trimStart cs = trim cs ++ after.reverse := by
    rw [← List.reverse_reverse (trimStart cs), hend, List.reverse_append]
    rfl
  refine ⟨before, after.reverse, hbefore, by simpa using hafter, ?_, ?_, ?_⟩
  · rw [← hsplit]
    exact hstart
  · intro c hc
    have hmem : c ∈ (trimStart cs).head? := by
      rw [hsplit, List.head?_append, Option.mem_def.1 hc]
      rfl
    exact hhead c hmem
  · intro c hc
    refine hlast c ?_
    rwa [trim, trimEnd, List.getLast?_reverse] at hc

theorem trim_eq_nil_iff {cs : List Char} : trim cs = [] ↔ ∀ c ∈ cs, isBlank c = true := by
  obtain ⟨before, after, hbefore, hafter, hsplit, htrimmed⟩ := exists_trim cs
  constructor
  · intro h
    rw [h, List.nil_append] at hsplit
    rw [hsplit]
    intro c hc
    rcases List.mem_append.1 hc with hc | hc
    · exact hbefore c hc
    · exact hafter c hc
  · intro h
    cases htrim : trim cs with
    | nil => rfl
    | cons c rest =>
      -- A character that is left is the first, and would be no blank.
      have hblank := h c (by rw [hsplit, htrim]; simp)
      have hnot := htrimmed.1 c (by rw [htrim]; rfl)
      rw [hblank] at hnot
      cases hnot

theorem trim_within (cs : List Char) : trim cs <:+: cs := by
  obtain ⟨before, after, -, -, hsplit, -⟩ := exists_trim cs
  exact ⟨before, after, by rw [List.append_assoc, ← hsplit]⟩

/-- Trimming undoes padding. -/
theorem trim_padded {before cs after : List Char} (hbefore : ∀ c ∈ before, isBlank c = true)
    (hafter : ∀ c ∈ after, isBlank c = true) (hcs : Trimmed cs) (hne : cs ≠ []) :
    trim (before ++ (cs ++ after)) = cs := by
  have hhead : ∀ c ∈ (cs ++ after).head?, isBlank c = false := by
    intro c hc
    cases cs with
    | nil => exact absurd rfl hne
    | cons d cs => exact hcs.1 c hc
  have hlast : ∀ c ∈ cs.reverse.head?, isBlank c = false := by
    intro c hc
    rw [List.head?_reverse] at hc
    exact hcs.2 c hc
  rw [trim, trimStart, dropWhile_isBlank_append hbefore hhead, trimEnd, List.reverse_append,
    dropWhile_isBlank_append (by simpa using hafter) hlast, List.reverse_reverse]

theorem trim_trimmed {cs : List Char} (h : Trimmed cs) : trim cs = cs := by
  cases cs with
  | nil => rfl
  | cons c cs => simpa using @trim_padded [] (c :: cs) [] (by simp) (by simp) h (by simp)

end Text

/-! ## The parts of a text -/

namespace SplitsAt

variable {sep text : List Char} {ps : List (List Char)}

/-- A character in front of a text belongs to the first part, unless a separator begins with it. -/
theorem consFirst {c : Char} (h : SplitsAt sep text ps) (hc : ¬ sep <+: c :: text) :
    SplitsAt sep (c :: text) (Path.consFirst c ps) := by
  cases h with
  | last h =>
    refine .last fun hoccurs => ?_
    rcases List.infix_cons_iff.1 hoccurs with hstart | hoccurs
    · exact hc hstart
    · exact h hoccurs
  | @cons part rest parts hfirst h =>
    refine @cons sep (c :: part) rest parts ?_ h
    intro pre post heq
    cases pre with
    | nil => exact absurd ⟨post, heq.symm⟩ hc
    | cons d pre =>
      obtain ⟨-, heq⟩ := List.cons.inj heq
      exact Nat.succ_le_succ (hfirst pre post heq)

end SplitsAt

namespace Path

/-- The parts of a text: between its `::` if it has any, and between its dots otherwise. -/
inductive IsParts (text : List Char) (ps : List (List Char)) : Prop where
  | pairs (hpair : [':', ':'] <:+: text) (h : SplitsAt [':', ':'] text ps)
  | dots (hpair : ¬ [':', ':'] <:+: text) (h : SplitsAt ['.'] text ps)

theorem not_pair_start {c : Char} {rest : List Char} (h : ∀ more, c = ':' → rest = ':' :: more → False) :
    ¬ [':', ':'] <+: c :: rest := by
  rintro ⟨more, hmore⟩
  obtain ⟨hc, hrest⟩ := List.cons.inj hmore
  exact h more hc.symm hrest.symm

theorem hasPair_iff {text : List Char} : hasPair text = true ↔ [':', ':'] <:+: text := by
  fun_induction hasPair text with
  | case1 rest => exact iff_of_true rfl ⟨[], rest, rfl⟩
  | case2 c rest hne ih =>
    rw [ih, List.infix_cons_iff, or_iff_right (not_pair_start hne)]
  | case3 => simp

theorem splitsAt_splitPairs (text : List Char) : SplitsAt [':', ':'] text (splitPairs text) := by
  fun_induction splitPairs text with
  | case1 rest ih => exact @SplitsAt.cons _ [] rest _ (by simp) ih
  | case2 c rest hne ih => exact ih.consFirst (not_pair_start hne)
  | case3 => exact .last (by simp)

theorem splitsAt_splitDots (text : List Char) : SplitsAt ['.'] text (splitDots text) := by
  fun_induction splitDots text with
  | case1 => exact .last (by simp)
  | case2 rest ih => exact @SplitsAt.cons _ [] rest _ (by simp) ih
  | case3 c rest hne ih =>
    refine ih.consFirst ?_
    rintro ⟨more, hmore⟩
    exact hne (List.cons.inj hmore).1.symm

theorem isParts_iff {text : List Char} {ps : List (List Char)} : IsParts text ps ↔ ps = parts text := by
  unfold parts
  constructor
  · rintro (⟨hpair, h⟩ | ⟨hpair, h⟩)
    · rw [if_pos (hasPair_iff.2 hpair)]
      exact h.unique (splitsAt_splitPairs text)
    · rw [if_neg (hpair ∘ hasPair_iff.1)]
      exact h.unique (splitsAt_splitDots text)
  · rintro rfl
    split
    next hpair => exact .pairs (hasPair_iff.1 hpair) (splitsAt_splitPairs text)
    next hpair => exact .dots (hpair ∘ hasPair_iff.2) (splitsAt_splitDots text)

/-- Parts without colons and dots are the parts of their join, by either separator. -/
theorem isParts_intercalate {sep : List Char} {ps : List (List Char)} (hsep : sep = [':', ':'] ∨ sep = ['.'])
    (hne : ps ≠ []) (h : ∀ part ∈ ps, ':' ∉ part ∧ '.' ∉ part) : IsParts (sep.intercalate ps) ps := by
  have hcolons : SplitsAt [':', ':'] ([':', ':'].intercalate ps) ps :=
    splitsAt_intercalate hne fun part hpart => (h part hpart).1
  have hdots : IsParts (['.'].intercalate ps) ps := by
    refine .dots ?_ (splitsAt_intercalate hne fun part hpart => (h part hpart).2)
    intro hoccurs
    exact not_mem_intercalate (by decide) (fun part hpart => (h part hpart).1)
      (hoccurs.subset List.mem_cons_self)
  rcases hsep with rfl | rfl
  · cases ps with
    | nil => exact absurd rfl hne
    | cons part ps =>
      cases ps with
      -- A single part has no separator behind it, and so none to be told by.
      | nil => exact hdots
      | cons part' ps =>
        refine .pairs ⟨part, [':', ':'].intercalate (part' :: ps), ?_⟩ hcolons
        rw [List.intercalate_cons_cons]
  · exact hdots

/-- No part holds `::`, between whichever separators it stands. -/
theorem IsParts.not_pair {text : List Char} {ps : List (List Char)} (h : IsParts text ps) :
    ∀ part ∈ ps, ¬ [':', ':'] <:+: part := by
  rcases h with ⟨-, h⟩ | ⟨hpair, h⟩
  · exact h.free_of_sep (by simp)
  · exact fun part hpart hoccurs => hpair (hoccurs.trans (h.within_text part hpart))

/-! ## Parsing -/

theorem mapM_of?_eq_some_iff {segments : List String} {found : List Segment} :
    segments.mapM Segment.of? = some found ↔ found.map (·.val) = segments := by
  have hof : ∀ {s : String} {x : Segment}, Segment.of? s = some x ↔ x.val = s := by
    rintro s ⟨x, hx⟩
    unfold Segment.of?
    split
    next hs => exact iff_of_false (by simp) fun h => hx (h.trans hs)
    next hs => rw [Option.some_inj, Subtype.mk.injEq, eq_comm]
  induction segments generalizing found with
  | nil => cases found <;> simp
  | cons s segments ih =>
    rw [List.mapM_cons]
    constructor
    · intro h
      obtain ⟨x, hx, h⟩ := Option.bind_eq_some_iff.1 h
      obtain ⟨xs, hxs, h⟩ := Option.bind_eq_some_iff.1 h
      cases h
      rw [List.map_cons, hof.1 hx, ih.1 hxs]
    · intro h
      cases found with
      | nil => cases h
      | cons x xs =>
        obtain ⟨hx, hxs⟩ := List.cons.inj h
        rw [hof.2 hx, ih.2 hxs]
        rfl

theorem ofSegments_eq_ok_iff {segments : List String} {p : Path} :
    ofSegments segments = .ok p ↔ p.segments = segments := by
  constructor
  · intro h
    unfold ofSegments at h
    split at h
    next => cases h
    next => cases h
    next head tail hfound =>
      cases h
      exact mapM_of?_eq_some_iff.1 hfound
  · intro h
    have hfound : segments.mapM Segment.of? = some (p.head :: p.tail) := mapM_of?_eq_some_iff.2 h
    rw [ofSegments, hfound]

/-- A text is parsed as the path whose segments are its parts, trimmed. -/
theorem parse_eq_ok_iff {text : String} {p : Path} : parse text = .ok p ↔ p.segments = writtenSegments text :=
  ofSegments_eq_ok_iff

/-- Texts without colons and dots, joined by either separator, are parsed one by one. -/
theorem parse_intercalate {separator : String} {texts : List String} {p : Path}
    (hseparator : separator = "::" ∨ separator = ".") (htexts : ∀ t ∈ texts, ':' ∉ t.toList ∧ '.' ∉ t.toList)
    (hp : p.segments = texts.map fun t => String.ofList (Text.trim t.toList)) :
    parse (separator.intercalate texts) = .ok p := by
  have hsep : separator.toList = [':', ':'] ∨ separator.toList = ['.'] := by
    rcases hseparator with rfl | rfl
    · exact .inl rfl
    · exact .inr rfl
  have hne : texts.map String.toList ≠ [] := by
    intro h
    rw [List.map_eq_nil_iff.1 h] at hp
    cases hp
  have hparts := isParts_iff.1 (isParts_intercalate hsep hne (by simpa using htexts))
  rw [parse_eq_ok_iff, hp, writtenSegments, String.toList_intercalate, ← hparts, List.map_map]
  rfl

/-! ## Writing -/

end Path

/-- A segment that holds no separator and no blank at its ends. -/
def Segment.Clear (s : Segment) : Prop :=
  (':' ∉ s.val.toList ∧ '.' ∉ s.val.toList) ∧ Text.Trimmed s.val.toList

theorem Segment.toList_ne_nil (s : Segment) : s.val.toList ≠ [] :=
  fun h => s.property (String.toList_eq_nil_iff.1 h)

namespace Path

/-- A segment as it is written, with blanks around it. -/
structure Piece where
  before : List Char
  segment : Segment
  after : List Char
  before_blank : ∀ c ∈ before, Text.isBlank c = true
  after_blank : ∀ c ∈ after, Text.isBlank c = true
  clear : segment.Clear

namespace Piece

def chars (w : Piece) : List Char := w.before ++ (w.segment.val.toList ++ w.after)

def text (w : Piece) : String := String.ofList w.chars

theorem trim_text (w : Piece) : String.ofList (Text.trim w.text.toList) = w.segment.val := by
  rw [text, String.toList_ofList, chars,
    Text.trim_padded w.before_blank w.after_blank w.clear.2 w.segment.toList_ne_nil, String.ofList_toList]

theorem separators_not_mem_text (w : Piece) : ':' ∉ w.text.toList ∧ '.' ∉ w.text.toList := by
  have hnot : ∀ {c : Char}, Text.isBlank c = false → c ∉ w.segment.val.toList → c ∉ w.text.toList := by
    intro c hc hsegment hmem
    rw [text, String.toList_ofList, chars, List.mem_append, List.mem_append] at hmem
    rcases hmem with h | h | h
    · exact absurd (w.before_blank c h) (by simp [hc])
    · exact hsegment h
    · exact absurd (w.after_blank c h) (by simp [hc])
  exact ⟨hnot (by decide) w.clear.1.1, hnot (by decide) w.clear.1.2⟩

end Piece

theorem parse_pieces {separator : String} (hseparator : separator = "::" ∨ separator = ".") (w : Piece)
    (ws : List Piece) :
    parse (separator.intercalate ((w :: ws).map Piece.text)) = .ok ⟨w.segment, ws.map (·.segment)⟩ := by
  refine parse_intercalate hseparator ?_ ?_
  · intro t ht
    obtain ⟨v, -, rfl⟩ := List.mem_map.1 ht
    exact v.separators_not_mem_text
  · simp [segments, Piece.trim_text, Function.comp_def]

theorem parse_renderWith {separator : String} (hseparator : separator = "::" ∨ separator = ".") {p : Path}
    (hp : ∀ s ∈ p.head :: p.tail, s.Clear) : parse (p.renderWith separator) = .ok p := by
  have hclear : ∀ t ∈ p.segments, ∃ s : Segment, s.Clear ∧ s.val = t := by
    intro t ht
    obtain ⟨s, hs, rfl⟩ := List.mem_map.1 ht
    exact ⟨s, hp s hs, rfl⟩
  refine parse_intercalate hseparator ?_ ?_
  · intro t ht
    obtain ⟨s, hs, rfl⟩ := hclear t ht
    exact hs.1
  · have htrim : ∀ t ∈ p.segments, String.ofList (Text.trim t.toList) = t := by
      intro t ht
      obtain ⟨s, hs, rfl⟩ := hclear t ht
      rw [Text.trim_trimmed hs.2, String.ofList_toList]
    rw [List.map_congr_left htrim, List.map_id']

/-- A part that is blank is a segment that is empty. -/
theorem empty_mem_writtenSegments_iff {text : String} :
    "" ∈ writtenSegments text ↔ ∃ part ∈ parts text.toList, ∀ c ∈ part, Text.isBlank c = true := by
  rw [writtenSegments, List.mem_map]
  refine exists_congr fun part => and_congr_right fun _ => ?_
  rw [← Text.trim_eq_nil_iff, ← String.toList_eq_nil_iff, String.toList_ofList]

/-- The trimmed parts of a text hold no `::`, and no blanks at their ends. -/
theorem trimmed_of_mem_writtenSegments {text s : String} (hs : s ∈ writtenSegments text) :
    Text.Trimmed s.toList ∧ ¬ [':', ':'] <:+: s.toList := by
  obtain ⟨part, hpart, rfl⟩ := List.mem_map.1 hs
  obtain ⟨-, -, -, -, -, htrimmed⟩ := Text.exists_trim part
  rw [String.toList_ofList]
  refine ⟨htrimmed, fun hoccurs => ?_⟩
  exact (isParts_iff.2 rfl).not_pair part hpart (hoccurs.trans (Text.trim_within part))

/-- Segments that are written with either separator, and with any blanks around them, are parsed as they were;
so are rendered paths. A text is refused exactly if a part of it is blank, and otherwise its parts are the
segments, with no blanks around them and no `::` inside. -/
theorem parse_undoes_writing :
    (∀ separator ∈ ["::", "."], ∀ (w : Piece) (ws : List Piece),
      parse (separator.intercalate ((w :: ws).map Piece.text)) = .ok ⟨w.segment, ws.map (·.segment)⟩) ∧
    (∀ p : Path, (∀ s ∈ p.head :: p.tail, s.Clear) →
      parse p.render = .ok p ∧ ∀ separator ∈ ["::", "."], parse (p.renderWith separator) = .ok p) ∧
    ∀ text : String, ∃ ps, (∀ qs, IsParts text.toList qs ↔ qs = ps) ∧
      (∀ e, parse text = .error e ↔ (∃ part ∈ ps, ∀ c ∈ part, Text.isBlank c = true) ∧
        e = .emptySegment (ps.map fun part => String.ofList (Text.trim part))) ∧
      ∀ p, parse text = .ok p → (p.segments = ps.map fun part => String.ofList (Text.trim part)) ∧
        ∀ s ∈ p.segments, s ≠ "" ∧ Text.Trimmed s.toList ∧ ¬ [':', ':'] <:+: s.toList := by
  have hseparator : ∀ separator ∈ ["::", "."], separator = "::" ∨ separator = "." := by simp
  refine ⟨fun separator h => parse_pieces (hseparator separator h), fun p hp => ?_, fun text => ?_⟩
  · exact ⟨parse_renderWith (.inl rfl) hp, fun separator h => parse_renderWith (hseparator separator h) hp⟩
  · refine ⟨parts text.toList, fun qs => isParts_iff, fun e => ?_, fun p hp => ?_⟩
    · rw [parse_eq_error_iff, empty_mem_writtenSegments_iff]
      rfl
    · rw [parse_eq_ok_iff] at hp
      refine ⟨hp, fun s hs => ⟨?_, trimmed_of_mem_writtenSegments (hp ▸ hs)⟩⟩
      obtain ⟨segment, -, rfl⟩ := List.mem_map.1 hs
      exact segment.property

/-- Blanks of every sort around the segments and one inside a segment; a part that is blank; and a third colon,
which belongs to the segment behind it. -/
theorem parse_undoes_writing_padded :
    let p : Path := ⟨⟨"a", by decide⟩, [⟨"b c", by decide⟩]⟩
    parse "\u3000a\t::\x1cb c\n" = .ok p ∧ parse "a.b c" = .ok p ∧
      (∃ e, parse "a:: ::b" = .error e) ∧
      ∃ q, parse "a:::d" = .ok q ∧ q.segments = ["a", ":d"] ∧ ∀ s ∈ q.segments, ¬ [':', ':'] <:+: s.toList := by
  intro p
  have ha : Segment.Clear ⟨"a", by decide⟩ := ⟨by decide, by simp [Text.Trimmed]; decide⟩
  have hbc : Segment.Clear ⟨"b c", by decide⟩ := ⟨by decide, by simp [Text.Trimmed]; decide⟩
  obtain ⟨hwritten, hrendered, hall⟩ := parse_undoes_writing
  have hblank {b : Char} (hb : Text.isBlank b = true) : ∀ c ∈ [b], Text.isBlank c = true :=
    List.forall_mem_singleton.2 hb
  let w : Piece := ⟨['\u3000'], _, ['\t'], hblank (by decide), hblank (by decide), ha⟩
  let v : Piece := ⟨['\x1c'], _, ['\n'], hblank (by decide), hblank (by decide), hbc⟩
  have htext : "::".intercalate ([w, v].map Piece.text) = "\u3000a\t::\x1cb c\n" := by
    simp only [w, v, List.map_cons, List.map_nil, Piece.text, Piece.chars]
    decide +kernel
  have hdots : p.renderWith "." = "a.b c" := by decide +kernel
  have hparts : parts "a:: ::b".toList = [['a'], [' '], ['b']] := by decide +kernel
  have hodd : parse "a:::d" = .ok ⟨⟨"a", by decide⟩, [⟨":d", by decide⟩]⟩ :=
    parse_eq_ok_iff.2 (by decide +kernel)
  refine ⟨?_, ?_, ?_, ?_⟩
  · rw [← htext]
    exact hwritten "::" (by simp) w [v]
  · rw [← hdots]
    exact (hrendered p (by simp [p, ha, hbc])).2 "." (by simp)
  · obtain ⟨ps, hps, herror, -⟩ := hall "a:: ::b"
    have hmem : [' '] ∈ ps := by
      rw [← (hps _).1 (isParts_iff.2 rfl), hparts]
      simp
    exact ⟨_, (herror _).2 ⟨⟨[' '], hmem, by simp; decide⟩, rfl⟩⟩
  · obtain ⟨ps, -, -, hok⟩ := hall "a:::d"
    exact ⟨_, hodd, rfl, fun s hs => ((hok _ hodd).2 s hs).2.2⟩

end Path

end DeriveKit
