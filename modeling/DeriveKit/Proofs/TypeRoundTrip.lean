import DeriveKit.Proofs.AttributeRoundTrip

/-!
# Types read back

A type that is built from plain paths, references and tuples is written so that it reads back as itself, at
any depth (`type_round_trip`). What a written type needs for that is kept in `Spells`: no blank stands in
front of it, and wherever a name could not go on behind it, it is lexed as the type.
-/
namespace DeriveKit

open DeriveKit.Grammar
open DeriveKit.Lexed (Lexes Boundary)
open DeriveKit.Token (Kind)

namespace TypeExpr

/-- Types that a text can hold: paths of identifiers with any generic arguments, references with one
referent, and tuples. -/
inductive Plain : TypeExpr → Prop
  | path {p : Path} {args : List TypeExpr} (hp : p.isPlain = true) (hargs : ∀ t ∈ args, Plain t) :
      Plain (.path p args)
  | ref {referent : TypeExpr} (h : Plain referent) : Plain (.ref referent)
  | refMut {referent : TypeExpr} (h : Plain referent) : Plain (.refMut referent)
  | tuple {elements : List TypeExpr} (h : ∀ t ∈ elements, Plain t) : Plain (.tuple elements)

/-- A text that is lexed as the type. -/
structure Spells (text : String) (t : TypeExpr) : Prop where
  unspaced : ∀ rest, Unspaced (text.toList ++ rest)
  lexes : ∀ rest, Boundary rest → Lexes text.toList rest (IsType · t)

/-- Texts that are lexed as the types, one by one. -/
inductive SpellAll : List String → List TypeExpr → Prop
  | nil : SpellAll [] []
  | cons {text : String} {texts : List String} {t : TypeExpr} {ts : List TypeExpr} (h : Spells text t)
      (hs : SpellAll texts ts) : SpellAll (text :: texts) (t :: ts)

/-! ## Lists of types -/

theorem SpellAll.unspaced {text : String} {texts : List String} {ts : List TypeExpr}
    (h : SpellAll (text :: texts) ts) (rest : List Char) :
    Unspaced ((", ".intercalate (text :: texts)).toList ++ rest) := by
  cases h with
  | cons h _ =>
    cases texts with
    | nil =>
      rw [String.intercalate_singleton]
      exact h.unspaced rest
    | cons text' texts =>
      simp only [String.intercalate_cons_cons, String.toList_append, List.append_assoc]
      exact h.unspaced _

/-- Texts with commas between them are a list of types. -/
theorem SpellAll.lexes {texts : List String} {ts : List TypeExpr} (h : SpellAll texts ts)
    {rest : List Char} (hrest : Boundary rest) :
    Lexes (", ".intercalate texts).toList rest (CommaList IsType · ts) := by
  induction h with
  | nil =>
    refine Lexed.Lexes.nil.mono ?_
    rintro _ rfl
    exact .nil
  | @cons text texts t ts h hs ih =>
    cases hs with
    | nil =>
      rw [String.intercalate_singleton]
      exact (h.lexes rest hrest).mono fun _ hts => .last hts
    | @cons text' texts t' ts h' hs =>
      have hmore := lexes_comma ih ((SpellAll.cons h' hs).unspaced rest)
      rw [String.intercalate_cons_cons, String.toList_append, String.toList_append, List.append_assoc]
      refine ((h.lexes _ (Lexed.boundary_cons (by decide))).append hmore).mono ?_
      rintro _ ⟨us, _, rfl, hus, comma, vs, rfl, hcomma, hvs⟩
      exact .cons hus hcomma hvs

/-! ## One type -/

theorem Spells.path {p : Path} {texts : List String} {args : List TypeExpr} (hp : p.isPlain = true)
    (h : SpellAll texts args) : Spells (renderGeneric p.render texts) (.path p args) := by
  cases h with
  | nil =>
    exact ⟨unspaced_path hp, fun rest hrest => (lexes_path hp hrest).mono fun _ hts => .path hts⟩
  | @cons text texts t ts h hs =>
    have htext : (renderGeneric p.render (text :: texts)).toList =
        p.render.toList ++ '<' :: ((", ".intercalate (text :: texts)).toList ++ ['>']) := by
      simp [renderGeneric]
    constructor
    · intro rest
      rw [htext, List.append_assoc]
      exact unspaced_path hp _
    · intro rest hrest
      rw [htext]
      have hlist : Lexes _ ('>' :: rest) _ :=
        (SpellAll.cons h hs).lexes (Lexed.boundary_cons (by decide))
      have hargs := lexes_enclosed '<' '>' rfl rfl (by decide) (by decide) hlist
      refine ((lexes_path hp (Lexed.boundary_cons (by decide))).append hargs).mono ?_
      rintro _ ⟨ps, _, rfl, hps, less, us, greater, rfl, hless, hus, hgreater⟩
      exact .generic hps hless hus (List.cons_ne_nil _ _) hgreater

theorem Spells.ref {text : String} {t : TypeExpr} (h : Spells text t) : Spells ("&" ++ text) (.ref t) := by
  constructor
  · intro rest
    rw [String.toList_append]
    rintro _ ⟨⟩
    rfl
  · intro rest hrest
    rw [String.toList_append]
    refine ((Lexed.lexes_mark '&' rfl (by decide) _).append (h.lexes rest hrest)).mono ?_
    rintro _ ⟨_, us, rfl, ⟨amp, rfl, hamp, -⟩, hus⟩
    exact .ref hamp hus

theorem Spells.refMut {text : String} {t : TypeExpr} (h : Spells text t) :
    Spells ("&mut " ++ text) (.refMut t) := by
  have htext : ("&mut " ++ text).toList = ['&'] ++ ("mut".toList ++ ([' '] ++ text.toList)) := by
    rw [String.toList_append]
    rfl
  constructor
  · intro rest
    rw [htext]
    rintro _ ⟨⟩
    rfl
  · intro rest hrest
    have hword : Lexes "mut".toList ([' '] ++ text.toList ++ rest) (Lexed.Single .mutable "mut".toList) :=
      Lexed.lexes_name rfl (List.all_eq_true.1 rfl) (Lexed.boundary_cons (by decide))
    have hreferent := (Lexed.lexes_blank (h.unspaced rest)).append (h.lexes rest hrest)
    rw [htext]
    refine ((Lexed.lexes_mark '&' rfl (by decide) _).append (hword.append hreferent)).mono ?_
    rintro _ ⟨_, _, rfl, ⟨amp, rfl, hamp, -⟩, _, _, rfl, ⟨word, rfl, hword, -⟩, _, us, rfl, rfl, hus⟩
    exact .refMut hamp hword hus

/-- The elements of a tuple and the comma behind a single one. -/
theorem SpellAll.lexes_elements {texts : List String} {elements : List TypeExpr}
    (h : SpellAll texts elements) (rest : List Char) :
    ∃ written, renderTuple texts = "(" ++ (written ++ ")") ∧
      Lexes written.toList (')' :: rest) (CommaList IsType · elements) := by
  cases h with
  | nil => exact ⟨"", rfl, SpellAll.nil.lexes (Lexed.boundary_cons (by decide))⟩
  | @cons text texts t ts h hs =>
    cases hs with
    | nil =>
      refine ⟨text ++ ",", by simp [renderTuple, String.append_assoc], ?_⟩
      rw [String.toList_append]
      have hcomma := Lexed.lexes_mark ',' rfl (by decide) (')' :: rest)
      refine ((h.lexes _ (Lexed.boundary_cons (by decide))).append hcomma).mono ?_
      rintro _ ⟨us, _, rfl, hus, comma, rfl, hcomma, -⟩
      exact .cons hus hcomma .nil
    | cons h' hs =>
      exact ⟨_, by simp [renderTuple, String.append_assoc],
        (SpellAll.cons h (.cons h' hs)).lexes (Lexed.boundary_cons (by decide))⟩

theorem Spells.tuple {texts : List String} {elements : List TypeExpr} (h : SpellAll texts elements) :
    Spells (renderTuple texts) (.tuple elements) := by
  constructor
  · intro rest
    rw [renderTuple, String.toList_append, String.toList_append]
    rintro _ ⟨⟩
    rfl
  · intro rest hrest
    obtain ⟨written, htext, hlexes⟩ := h.lexes_elements rest
    rw [htext, String.toList_append, String.toList_append]
    refine (lexes_parens hlexes).mono ?_
    rintro _ ⟨left, us, right, rfl, hleft, hus, hright⟩
    exact .tuple hleft hus hright

/-! ## Every plain type -/

theorem exists_spellings {ts : List TypeExpr} (h : ∀ t ∈ ts, ∃ text, t.render = some text ∧ Spells text t) :
    ∃ texts, renderEach ts = some texts ∧ SpellAll texts ts := by
  induction ts with
  | nil => exact ⟨[], rfl, .nil⟩
  | cons t ts ih =>
    obtain ⟨text, htext, hspells⟩ := h t List.mem_cons_self
    obtain ⟨texts, htexts, hall⟩ := ih fun u hu => h u (List.mem_cons_of_mem _ hu)
    exact ⟨text :: texts, by rw [renderEach, htext, htexts], .cons hspells hall⟩

theorem exists_spelling {t : TypeExpr} (h : t.Plain) : ∃ text, t.render = some text ∧ Spells text t := by
  induction h with
  | path hp _ ih =>
    obtain ⟨texts, htexts, hall⟩ := exists_spellings ih
    exact ⟨_, by rw [render, htexts]; rfl, .path hp hall⟩
  | ref _ ih =>
    obtain ⟨text, htext, hspells⟩ := ih
    exact ⟨_, by rw [ref, render, htext]; rfl, hspells.ref⟩
  | refMut _ ih =>
    obtain ⟨text, htext, hspells⟩ := ih
    exact ⟨_, by rw [refMut, render, htext]; rfl, hspells.refMut⟩
  | tuple _ ih =>
    obtain ⟨texts, htexts, hall⟩ := exists_spellings ih
    exact ⟨_, by rw [tuple, render, htexts]; rfl, .tuple hall⟩

end TypeExpr

/-- Every type of plain paths, references and tuples has a text, and that text reads back as the type. -/
theorem type_round_trip (t : TypeExpr) (h : t.Plain) :
    ∃ text, t.render = some text ∧ Source.readType text = .ok t := by
  obtain ⟨text, htext, hspells⟩ := TypeExpr.exists_spelling h
  refine ⟨text, htext, ?_⟩
  obtain ⟨ts, hcut, hts⟩ := hspells.lexes [] (by simp [Boundary]) .start
  exact (@Symbol.read_eq_ok_iff (.plain fun _ => none) .type text t).2 ⟨ts, hcut, hts⟩

/-- Chained references, a name that begins with a keyword, closing marks in a row, and tuples of one and of
no element. -/
theorem type_round_trip_nested :
    let one : TypeExpr := .tuple [.path (.single ⟨"A", by decide⟩) []]
    let vec : TypeExpr := .path (.single ⟨"Vec", by decide⟩) [.path (.single ⟨"Box", by decide⟩) [one]]
    let t : TypeExpr :=
      .ref (.refMut (.path ⟨⟨"mutex", by decide⟩, [⟨"T", by decide⟩]⟩ [.tuple [], vec]))
    t.Plain ∧ Source.readType "&&mut mutex::T<(), Vec<Box<(A,)>>>" = .ok t := by
  intro one vec t
  have hone : one.Plain := .tuple (by simpa using .path (by decide +kernel) (by simp))
  have hbox : (TypeExpr.path (.single ⟨"Box", by decide⟩) [one]).Plain :=
    .path (by decide +kernel) (by simpa using hone)
  have hvec : vec.Plain := .path (by decide +kernel) (by simpa using hbox)
  have hnone : (TypeExpr.tuple []).Plain := .tuple (by simp)
  have h : t.Plain := .ref (.refMut (.path (by decide +kernel) (by simp [hnone, hvec])))
  have hrender : t.render = some "&&mut mutex::T<(), Vec<Box<(A,)>>>" := by decide +kernel
  obtain ⟨text, htext, hread⟩ := type_round_trip t h
  obtain rfl := Option.some.inj (hrender.symm.trans htext)
  exact ⟨h, hread⟩

end DeriveKit
