import DeriveKit.Proofs.AttributeRoundTrip
import DeriveKit.Proofs.Magnitude
import DeriveKit.Proofs.Parameters

/-!
# The texts of numbers as words

A word for a number always has a value (`ofText?_of_lexeme`). The other way round, a number of moderate
size is written as such a word (`lexeme_render`), so that it is read as a number again. Any other number is
written as the name `inf`, or with an exponent whose sign no word starts with, and lexing ends there
(`passes_real`).
-/
namespace DeriveKit

open DeriveKit.Lexed (Lexes Boundary Passes Lexeme)
open DeriveKit.Text (isDigit isBlank decimalValue)

/-! ## Reading digits -/

namespace Text

theorem toNat_of_isDigit {c : Char} (h : isDigit c = true) : 48 ≤ c.toNat ∧ c.toNat ≤ 57 := by
  simp only [isDigit, Bool.and_eq_true, decide_eq_true_eq] at h
  exact h

theorem foldl_digits_lt {ds : List Char} (h : ∀ c ∈ ds, isDigit c = true) (n : Nat) :
    ds.foldl (fun n d => 10 * n + (d.toNat - '0'.toNat)) n < (n + 1) * 10 ^ ds.length := by
  induction ds generalizing n with
  | nil => simp
  | cons c ds ih =>
    obtain ⟨hc, hds⟩ := List.forall_mem_cons.1 h
    have hdigit : c.toNat - '0'.toNat ≤ 9 := by
      have := toNat_of_isDigit hc
      simp only [Char.reduceToNat]
      omega
    rw [List.foldl_cons, List.length_cons]
    calc _ < (10 * n + (c.toNat - '0'.toNat) + 1) * 10 ^ ds.length := ih hds _
      _ ≤ (10 * (n + 1)) * 10 ^ ds.length := by gcongr; omega
      _ = (n + 1) * 10 ^ (ds.length + 1) := by ring

theorem decimalValue_lt {ds : List Char} (h : ∀ c ∈ ds, isDigit c = true) :
    decimalValue ds < 10 ^ ds.length := by
  have := foldl_digits_lt h 0
  rwa [zero_add, one_mul] at this

theorem isBlank_of_isDigit {c : Char} (h : isDigit c = true) : isBlank c = false := by
  have := toNat_of_isDigit h
  simp [isBlank, blankRanges]
  omega

theorem asciiDigit_of_isDigit {c : Char} (h : isDigit c = true) : asciiDigit c = c := by
  have := toNat_of_isDigit h
  rw [asciiDigit, if_pos (by omega)]

theorem trim_of_not_isBlank {cs : List Char} (h : ∀ c ∈ cs, isBlank c = false) : trim cs = cs := by
  have hdrop (l : List Char) (hl : ∀ c ∈ l, isBlank c = false) : l.dropWhile isBlank = l := by
    cases l with
    | nil => rfl
    | cons c l => rw [List.dropWhile_cons, hl c List.mem_cons_self]; rfl
  rw [trim, trimStart, hdrop cs h, trimEnd, hdrop _ (by simpa using h), List.reverse_reverse]

end Text

namespace Binary64

theorem takeDigitsFrom_append {ds rest : List Char} (hds : ∀ c ∈ ds, isDigit c = true)
    (hrest : ∀ c ∈ rest.head?, isDigit c = false ∧ c ≠ '_') (inside : Bool) :
    takeDigitsFrom inside (ds ++ rest) = (ds, rest) := by
  induction ds generalizing inside with
  | nil =>
    cases rest with
    | nil => rfl
    | cons c rest =>
      obtain ⟨hc, hunderscore⟩ := hrest c rfl
      simp [takeDigitsFrom, hc, hunderscore]
  | cons c ds ih =>
    obtain ⟨hc, hds⟩ := List.forall_mem_cons.1 hds
    simp [takeDigitsFrom, hc, ih hds]

theorem takeSign_of_isDigit {c : Char} (hc : isDigit c = true) (rest : List Char) :
    takeSign (c :: rest) = (false, c :: rest) := by
  unfold takeSign
  split
  next h => cases h; cases hc
  next h => cases h; cases hc
  next => rfl

theorem numeral?_point {c d : Char} {cs ds : List Char} (hc : isDigit c = true)
    (hcs : ∀ e ∈ cs, isDigit e = true) (hd : isDigit d = true) (hds : ∀ e ∈ ds, isDigit e = true) :
    numeral? false (c :: (cs ++ '.' :: d :: ds)) =
      some (ofDecimal false (decimalValue (c :: cs ++ d :: ds)) (-Int.ofNat (d :: ds).length)) := by
  have hwhole : takeDigits (c :: (cs ++ '.' :: d :: ds)) = (c :: cs, '.' :: d :: ds) :=
    takeDigitsFrom_append (List.forall_mem_cons.2 ⟨hc, hcs⟩) (by rintro _ ⟨⟩; decide) false
  have hpart : takeDigits (d :: ds) = (d :: ds, []) := by
    have hall : takeDigits (d :: ds ++ []) = (d :: ds, []) :=
      takeDigitsFrom_append (List.forall_mem_cons.2 ⟨hd, hds⟩) (by simp) false
    rwa [List.append_nil] at hall
  simp [numeral?, hwhole, hpart, exponent?]

/-- A word that writes a number with a point has a value. -/
theorem ofText?_of_lexeme {s : String} (h : Lexeme (some .float) s.toList) :
    ∃ digits exponent, ofText? s = some (ofDecimal false digits exponent) := by
  obtain ⟨_, _, h, -⟩ | ⟨c, cs, d, ds, -, hs, hc, hcs, hd, hds⟩ := h.of_number (.inr rfl)
  · cases h
  have hchars : ∀ e ∈ s.toList, e = '.' ∨ isDigit e = true := by
    simp only [hs, List.mem_cons, List.mem_append]
    rintro e (rfl | he | rfl | rfl | he)
    exacts [.inr hc, .inr (hcs e he), .inl rfl, .inr hd, .inr (hds e he)]
  have htrim : Text.trim s.toList = s.toList := by
    refine Text.trim_of_not_isBlank fun e he => ?_
    rcases hchars e he with rfl | he
    exacts [by decide, Text.isBlank_of_isDigit he]
  have hascii : s.toList.map Text.asciiDigit = s.toList := by
    refine (List.map_congr_left fun e he => ?_).trans (List.map_id _)
    rcases hchars e he with rfl | he
    exacts [rfl, Text.asciiDigit_of_isDigit he]
  -- The names of infinity have no point.
  have hpoint : '.' ∈ (String.ofList (s.toList.map Char.toLower)).toList := by
    rw [hs]
    simp
  have hword : ¬ (String.ofList (s.toList.map Char.toLower) = "inf" ∨
      String.ofList (s.toList.map Char.toLower) = "infinity") := by
    rintro (hword | hword) <;> rw [hword] at hpoint <;> exact absurd hpoint (by decide)
  have hnumeral := numeral?_point hc hcs hd hds
  rw [← hs] at hnumeral
  have hsign : takeSign s.toList = (false, s.toList) := by rw [hs, takeSign_of_isDigit hc]
  refine ⟨_, _, Eq.trans ?_ hnumeral⟩
  rw [ofText?, htrim, hascii, hsign]
  exact if_neg hword

theorem isRead_of_lexeme {s : String} {x : Binary64} (h : Lexeme (some .float) s.toList)
    (hx : ofText? s = some x) : x.IsRead := by
  obtain ⟨digits, exponent, hread⟩ := ofText?_of_lexeme h
  rw [hread] at hx
  cases hx
  exact isRead_ofDecimal digits exponent

/-! ## The forms of a written number -/

theorem lexeme_float (us : List Char) {vs : List Char} (hus : us ≠ []) (hvs : vs ≠ [])
    (hus' : ∀ c ∈ us, isDigit c = true) (hvs' : ∀ c ∈ vs, isDigit c = true) :
    Lexeme (some .float) (us ++ '.' :: vs) := by
  obtain ⟨c, cs, rfl⟩ := List.exists_cons_of_ne_nil hus
  obtain ⟨d, ds, rfl⟩ := List.exists_cons_of_ne_nil hvs
  obtain ⟨hc, hcs⟩ := List.forall_mem_cons.1 hus'
  obtain ⟨hd, hds⟩ := List.forall_mem_cons.1 hvs'
  exact .float hc hcs hd hds

theorem isDigit_of_mem_replicate {n : Nat} {c : Char} (h : c ∈ List.replicate n '0') : isDigit c = true := by
  rw [List.eq_of_mem_replicate h]
  rfl

/-- Digits with a point among them or zeros around them. -/
theorem layout_point {ds : List Char} {k : Int} (hne : ds ≠ []) (hds : ∀ c ∈ ds, isDigit c = true)
    (hk : -4 ≤ k ∧ k < 16) : Lexeme (some .float) (layout ds k).toList := by
  rw [layout]
  split
  next hpos =>
    rw [String.toList_ofList]
    refine lexeme_float _ ?_ ?_ ?_ ?_
    · simp [hne]
    · split <;> simp_all
    · intro c hc
      rcases List.mem_append.1 hc with hc | hc
      exacts [hds c (List.mem_of_mem_take hc), isDigit_of_mem_replicate hc]
    · split
      · simp
        decide
      · exact fun c hc => hds c (List.mem_of_mem_drop hc)
  next hneg =>
    rw [if_pos (by omega), String.toList_ofList]
    have hpart : ∀ c ∈ List.replicate (k.natAbs - 1) '0' ++ ds, isDigit c = true := by
      intro c hc
      rcases List.mem_append.1 hc with hc | hc
      exacts [isDigit_of_mem_replicate hc, hds c hc]
    exact lexeme_float ['0'] (by simp) (by simp [hne]) (by simp; decide) hpart

/-- A number with an exponent: digits, perhaps with a point behind the first, and then a sign that no word
starts with. -/
theorem layout_exponent {ds : List Char} {k : Int} (hne : ds ≠ []) (hds : ∀ c ∈ ds, isDigit c = true)
    (hk : ¬ (-4 ≤ k ∧ k < 16)) :
    ∃ number sign more, (layout ds k).toList = number ++ 'e' :: sign :: more ∧ (sign = '-' ∨ sign = '+') ∧
      (Lexeme (some .int) number ∨ Lexeme (some .float) number) := by
  rw [layout, if_neg (by omega), if_neg (by omega), exponentText]
  refine ⟨_, if k < 0 then '-' else '+', _, by
    rw [String.toList_append, String.toList_ofList, String.toList_ofList], by split <;> simp, ?_⟩
  obtain ⟨c, cs, rfl⟩ := List.exists_cons_of_ne_nil hne
  obtain ⟨hc, hcs⟩ := List.forall_mem_cons.1 hds
  cases cs with
  | nil => exact .inl (.int hc (by simp))
  | cons d cs => exact .inr (lexeme_float [c] (by simp) (by simp) (by simpa using hc) hcs)

section Finite

variable {x : Finite} (h : x.negative = false)
include h

theorem render_of_not_negative : render (finite x) = renderAbs (finite x) := by
  rw [render, isNegative, h, if_neg (by decide)]

theorem render_finite (hx : x.significand ≠ 0) : render (finite x) =
    layout (Nat.toDigits 10 (shortest x.significand x.exponent).1) (leading x.significand x.exponent) := by
  rw [render_of_not_negative h, renderAbs, if_neg hx, leading]
  obtain ⟨digits, k⟩ := shortest x.significand x.exponent
  rfl

theorem render_zero (hx : x.significand = 0) : render (finite x) = "0.0" := by
  rw [render_of_not_negative h, renderAbs, if_pos hx]

end Finite

/-- A number of moderate size is written with a point and without an exponent. -/
theorem lexeme_render {x : Binary64} (h : x.IsRead) (hx : x.IsModerate) :
    Lexeme (some .float) x.render.toList := by
  cases h with
  | infinite => exact hx.elim
  | @finite x h =>
    by_cases hzero : x.significand = 0
    · have hdigit : ∀ c ∈ ['0'], isDigit c = true := List.forall_mem_singleton.2 (by decide)
      rw [render_zero h hzero]
      exact lexeme_float ['0'] (by simp) (by simp) hdigit hdigit
    · rw [render_finite h hzero]
      refine layout_point Nat.toDigits_ne_nil (fun c hc => Literal.isDigit_of_mem_toDigits hc) ?_
      exact (leading_iff x.legal (Nat.pos_of_ne_zero hzero)).2 (hx.resolve_left hzero)

/-- Any other number is written as a name or with an exponent. -/
theorem render_of_not_isModerate {x : Binary64} (h : x.IsRead) (hx : ¬ x.IsModerate) :
    x.render = "inf" ∨
      ∃ number sign more, x.render.toList = number ++ 'e' :: sign :: more ∧ (sign = '-' ∨ sign = '+') ∧
        (Lexeme (some .int) number ∨ Lexeme (some .float) number) := by
  cases h with
  | infinite => exact .inl rfl
  | @finite x h =>
    have hzero : x.significand ≠ 0 := fun hzero => hx (.inl hzero)
    rw [render_finite h hzero]
    refine .inr (layout_exponent Nat.toDigits_ne_nil (fun c hc => Literal.isDigit_of_mem_toDigits hc) ?_)
    rw [leading_iff x.legal (Nat.pos_of_ne_zero hzero)]
    exact fun hmoderate => hx (.inr hmoderate)

end Binary64

/-! ## Lexing a written number -/

section

variable {x : Binary64} {rest : List Char}

theorem unspaced_real (h : x.IsRead) (rest : List Char) : Unspaced (x.render.toList ++ rest) := by
  by_cases hx : x.IsModerate
  · exact (Binary64.lexeme_render h hx).isSpace_head rest
  · rcases Binary64.render_of_not_isModerate h hx with hinf | ⟨number, sign, more, hrender, -, hnumber⟩
    · rw [hinf]
      exact unspaced_cons (.inl rfl)
    · rw [hrender, List.append_assoc]
      rcases hnumber with hnumber | hnumber
      exacts [hnumber.isSpace_head _, hnumber.isSpace_head _]

/-- A number of moderate size is read as a number again. -/
theorem Literal.readsAs_real (chars : Charset) (h : x.IsRead) (hx : x.IsModerate) :
    ∃ y, (Literal.real x).ReadsAs chars (.real y) := by
  have hlexeme := Binary64.lexeme_render h hx
  obtain ⟨digits, exponent, hread⟩ := Binary64.ofText?_of_lexeme hlexeme
  refine ⟨.ofDecimal false digits exponent, unspaced_real h, fun rest hrest =>
    (hlexeme.lexes (by decide) hrest).mono ?_⟩
  rintro _ ⟨t, rfl, hkind, htext⟩
  rw [String.ofList_toList] at htext
  refine ⟨t, rfl, by simp [hkind, Grammar.leafKinds], ?_⟩
  simp only [Metadata.leafItem, Metadata.literal?, hkind, htext, hread]
  rfl

theorem lexes_number {number : List Char} (h : Lexeme (some .int) number ∨ Lexeme (some .float) number)
    (hrest : Lexed.EndsNumber rest) : Lexes number rest fun _ => True := by
  rcases h with h | h
  · obtain ⟨c, cs, -, rfl, hc, hcs⟩ | ⟨_, _, _, _, h, -⟩ := h.of_number (.inl rfl)
    · exact (Lexed.lexes_int hc hcs hrest).mono fun _ _ => trivial
    · cases h
  · obtain ⟨_, _, h, -⟩ | ⟨c, cs, d, ds, -, rfl, hc, hcs, hd, hds⟩ := h.of_number (.inr rfl)
    · cases h
    · exact (Lexed.lexes_float hc hcs hd hds hrest).mono fun _ _ => trivial

/-- Any other number is written without a word for a number, or so that lexing stops at its sign. -/
theorem passes_real (h : x.IsRead) (hx : ¬ x.IsModerate) (hrest : Boundary rest) :
    Passes x.render.toList rest fun ts => ∀ t ∈ ts, t.kind ≠ .float := by
  rcases Binary64.render_of_not_isModerate h hx with hinf | ⟨number, sign, more, hrender, hsign, hnumber⟩
  · rw [hinf]
    have hname : Lexes "inf".toList rest (Lexed.Single .name "inf".toList) :=
      Lexed.lexes_name rfl (List.all_eq_true.1 rfl) hrest
    refine (hname.mono ?_).passes
    rintro _ ⟨t, rfl, hkind, -⟩
    simp [hkind]
  · have hletter : Lexes ['e'] (sign :: (more ++ rest)) (Lexed.Single .name ['e']) :=
      Lexed.lexes_name rfl (by simp) (Lexed.boundary_cons (by rcases hsign with rfl | rfl <;> decide))
    have hstart := (lexes_number hnumber (by rintro _ ⟨⟩; decide)).append hletter
    have hstop : Lexed.lexeme? sign (more ++ rest) = none := by rcases hsign with rfl | rfl <;> rfl
    have htext : number ++ 'e' :: sign :: more = number ++ ['e'] ++ sign :: more := by simp
    rw [hrender, htext]
    exact .of_stop hstart hstop

end

end DeriveKit
