/-!
# Joined texts

How texts that were joined by a separator can be told apart again.

If no part holds the first character of the separator, the parts are what stands between the separators
(`splitsAt_intercalate`). What that is, is said by `SplitsAt` without a way to find it: each part ends at the
first separator behind its start, so a text has one list of parts only.

If the code of each item tells where it ends, as a quoted text does, the items may hold the separator as well,
and a closing text behind the last of them tells the end of the list (`SelfEnding.join_injective`).
-/
namespace DeriveKit

/-- All parts behind the first have the separator in front. -/
theorem intercalate_cons (sep part : List Char) (ps : List (List Char)) :
    sep.intercalate (part :: ps) = part ++ ps.flatMap (sep ++ ·) := by
  induction ps generalizing part with
  | nil => simp
  | cons part' ps ih => rw [List.intercalate_cons_cons, ih, List.flatMap_cons, List.append_assoc, List.append_assoc]

theorem not_mem_intercalate {c : Char} {sep : List Char} {ps : List (List Char)} (hsep : c ∉ sep)
    (h : ∀ part ∈ ps, c ∉ part) : c ∉ sep.intercalate ps := by
  cases ps with
  | nil => simp
  | cons part ps =>
    obtain ⟨hpart, hps⟩ := List.forall_mem_cons.1 h
    rw [intercalate_cons, List.mem_append, List.mem_flatMap]
    rintro (hc | ⟨part', hpart', hc⟩)
    · exact hpart hc
    · rcases List.mem_append.1 hc with hc | hc
      · exact hsep hc
      · exact hps part' hpart' hc

/-! ## Parts between separators -/

/-- `SplitsAt sep text parts`: the parts of `text` between its separators. A part ends where the first separator
begins, and behind that separator the next part starts. -/
inductive SplitsAt (sep : List Char) : List Char → List (List Char) → Prop where
  | last {part : List Char} (h : ¬ sep <:+: part) : SplitsAt sep part [part]
  | cons {part rest : List Char} {parts : List (List Char)}
      (hfirst : ∀ pre post, part ++ (sep ++ rest) = pre ++ (sep ++ post) → part.length ≤ pre.length)
      (h : SplitsAt sep rest parts) : SplitsAt sep (part ++ (sep ++ rest)) (part :: parts)

namespace SplitsAt

variable {sep text : List Char} {ps qs : List (List Char)}

theorem unique (h : SplitsAt sep text ps) (h' : SplitsAt sep text qs) : ps = qs := by
  induction h generalizing qs with
  | last h =>
    cases h' with
    | last _ => rfl
    | @cons part rest parts _ _ => exact absurd ⟨part, rest, List.append_assoc ..⟩ h
  | @cons part rest parts hfirst h ih =>
    generalize htext : part ++ (sep ++ rest) = text at h'
    cases h' with
    | last h' => exact absurd ⟨part, rest, by rw [List.append_assoc, htext]⟩ h'
    | @cons part' rest' parts' hfirst' h' =>
      -- Both parts end at the first separator.
      have hle := hfirst part' rest' htext
      have hge := hfirst' part rest htext.symm
      obtain ⟨rfl, hrest⟩ := List.append_inj htext (by omega)
      rw [ih (List.append_cancel_left hrest ▸ h')]

/-- No part holds a separator. -/
theorem free_of_sep (hsep : sep ≠ []) (h : SplitsAt sep text ps) : ∀ part ∈ ps, ¬ sep <:+: part := by
  induction h with
  | last h => simpa using h
  | @cons part rest parts hfirst h ih =>
    refine List.forall_mem_cons.2 ⟨?_, ih⟩
    rintro ⟨pre, post, rfl⟩
    have hle := hfirst pre (post ++ (sep ++ rest)) (by simp)
    have hpos := List.length_pos_iff.2 hsep
    simp only [List.length_append] at hle
    omega

theorem within_text (h : SplitsAt sep text ps) : ∀ part ∈ ps, part <:+: text := by
  induction h with
  | last h => simp
  | @cons part rest parts hfirst h ih =>
    refine List.forall_mem_cons.2 ⟨(List.prefix_append ..).isInfix, fun q hq => ?_⟩
    have hsuffix : rest <:+ part ++ (sep ++ rest) := ⟨part ++ sep, by simp⟩
    exact (ih q hq).trans hsuffix.isInfix

end SplitsAt

/-- Parts that do not hold the first character of the separator are the parts of their join. -/
theorem splitsAt_intercalate {d : Char} {sep : List Char} {ps : List (List Char)} (hne : ps ≠ [])
    (h : ∀ part ∈ ps, d ∉ part) : SplitsAt (d :: sep) ((d :: sep).intercalate ps) ps := by
  induction ps with
  | nil => exact absurd rfl hne
  | cons part ps ih =>
    obtain ⟨hpart, hps⟩ := List.forall_mem_cons.1 h
    cases ps with
    | nil =>
      rw [List.intercalate_singleton]
      exact .last fun hoccurs => hpart (hoccurs.subset List.mem_cons_self)
    | cons part' ps =>
      rw [List.intercalate_cons_cons, List.append_assoc]
      refine .cons ?_ (ih (by simp) hps)
      intro pre post heq
      rcases List.append_eq_append_iff.1 heq with ⟨more, rfl, -⟩ | ⟨more, rfl, hmore⟩
      · simp
      · -- A separator that began earlier would begin inside the part.
        cases more with
        | nil => simp
        | cons c more =>
          obtain ⟨rfl, -⟩ := List.cons.inj hmore
          simp at hpart

/-! ## Items that tell their end -/

/-- Codes of which none begins another: what follows a code does not matter to reading it. -/
def SelfEnding {α : Type} (P : α → Prop) (code : α → List Char) : Prop :=
  ∀ a b, P a → P b → ∀ r s, code a ++ r = code b ++ s → a = b

namespace SelfEnding

variable {α : Type} {P : α → Prop} {code : α → List Char} {sep closing : List Char}

/-- Items with a separator in front of each are told from what closes their list. -/
theorem flatMap_injective (hcode : SelfEnding P code) (hnext : ∀ a r, P a → sep ++ (code a ++ r) ≠ closing)
    {as bs : List α} (has : ∀ a ∈ as, P a) (hbs : ∀ b ∈ bs, P b)
    (h : as.flatMap (sep ++ code ·) ++ closing = bs.flatMap (sep ++ code ·) ++ closing) : as = bs := by
  induction as generalizing bs with
  | nil =>
    cases bs with
    | nil => rfl
    | cons b bs =>
      simp only [List.flatMap_nil, List.nil_append, List.flatMap_cons, List.append_assoc] at h
      exact absurd h.symm (hnext b _ (hbs b List.mem_cons_self))
  | cons a as ih =>
    cases bs with
    | nil =>
      simp only [List.flatMap_nil, List.nil_append, List.flatMap_cons, List.append_assoc] at h
      exact absurd h (hnext a _ (has a List.mem_cons_self))
    | cons b bs =>
      obtain ⟨ha, htail⟩ := List.forall_mem_cons.1 has
      obtain ⟨hb, htail'⟩ := List.forall_mem_cons.1 hbs
      simp only [List.flatMap_cons, List.append_assoc, List.append_cancel_left_eq] at h
      obtain rfl := hcode a b ha hb _ _ h
      rw [ih htail htail' (List.append_cancel_left h)]

/-- Items are told from their join, if neither an item nor a separator with an item behind it can be mistaken
for what closes the list. -/
theorem join_injective (hcode : SelfEnding P code) (hfirst : ∀ a r, P a → code a ++ r ≠ closing)
    (hnext : ∀ a r, P a → sep ++ (code a ++ r) ≠ closing) {as bs : List α} (has : ∀ a ∈ as, P a)
    (hbs : ∀ b ∈ bs, P b)
    (h : sep.intercalate (as.map code) ++ closing = sep.intercalate (bs.map code) ++ closing) : as = bs := by
  cases as with
  | nil =>
    cases bs with
    | nil => rfl
    | cons b bs =>
      rw [List.map_nil, List.map_cons, intercalate_cons, List.append_assoc] at h
      exact absurd h.symm (hfirst b _ (hbs b List.mem_cons_self))
  | cons a as =>
    cases bs with
    | nil =>
      rw [List.map_nil, List.map_cons, intercalate_cons, List.append_assoc] at h
      exact absurd h (hfirst a _ (has a List.mem_cons_self))
    | cons b bs =>
      obtain ⟨ha, htail⟩ := List.forall_mem_cons.1 has
      obtain ⟨hb, htail'⟩ := List.forall_mem_cons.1 hbs
      simp only [List.map_cons, intercalate_cons, List.append_assoc, List.flatMap_map] at h
      obtain rfl := hcode a b ha hb _ _ h
      rw [hcode.flatMap_injective hnext htail htail' (List.append_cancel_left h)]

end SelfEnding

end DeriveKit
