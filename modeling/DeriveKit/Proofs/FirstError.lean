import DeriveKit.Proofs.Lexemes
import DeriveKit.Proofs.SnippetReading

/-!
# The first error

A text that cannot be read is refused at the first place where it could not go on to be a sentence.
Everything before that place falls into lexemes, its tokens begin some sentence, and what is reported
there is what no sentence has at that place (`read_first_error`). A reader takes the tokens that begin
a sentence and no others (`Exact.viable_iff`), so it is enough to see where feeding tokens fails
(`Fault`).
-/
namespace DeriveKit

open DeriveKit.Grammar

namespace Lexed

/-- A cut may be stopped between any two of its tokens. -/
theorem Cut.split {pos : Position} {pre rest : List Char} {ts us : List Token}
    (h : Cut pos pre rest (ts ++ us)) :
    ∃ front back, pre = front ++ back ∧ Cut pos front (back ++ rest) ts := by
  generalize hall : ts ++ us = all at h
  induction h generalizing ts with
  | nil =>
    obtain ⟨rfl, rfl⟩ := List.append_eq_nil_iff.1 hall
    exact ⟨[], [], rfl, .nil⟩
  | skip hword h ih =>
    obtain ⟨front, back, rfl, hcut⟩ := ih hall
    rw [List.append_assoc] at hword
    exact ⟨_, back, (List.append_assoc ..).symm, .skip hword hcut⟩
  | token hword h ih =>
    cases ts with
    | nil => exact ⟨[], _, rfl, .nil⟩
    | cons t ts =>
      obtain ⟨rfl, htail⟩ := List.cons.inj hall
      obtain ⟨front, back, rfl, hcut⟩ := ih htail
      rw [List.append_assoc] at hword
      exact ⟨_, back, (List.append_assoc ..).symm, .token hword hcut⟩

theorem cut_ofText (text : String) :
    ∃ pre rest, text.toList = pre ++ rest ∧ Cut .start pre rest (ofText text).tokens ∧
      Halts (Position.start.advance pre) rest (ofText text).stop :=
  scan_cut .start text.toList

theorem Cut.ofText_alone {pre rest : List Char} {ts : List Token} (h : Cut .start pre rest ts) :
    ofText (String.ofList pre) = ⟨ts, none⟩ := by
  rw [ofText, String.toList_ofList]
  exact h.alone.scan_eq

end Lexed

namespace Source

/-! ## Where feeding fails -/

variable {α : Type}

/-- How reading tokens from a state fails: at a token, at what stopped lexing, or at the end. -/
inductive Fault (r : Reader α) (stop : Option (Char × Position)) (state : r.State) (last : Position)
    (ts : List Token) : Error → Prop where
  | token {before after : List Token} {t : Token} {state' : r.State} (hts : ts = before ++ t :: after)
      (hbefore : r.feedAll state before = some state') (ht : r.feed state' t = none) :
      Fault r stop state last ts (.unexpectedToken t)
  | char {c : Char} {pos : Position} {state' : r.State} (hstop : stop = some (c, pos))
      (hts : r.feedAll state ts = some state') : Fault r stop state last ts (.unexpectedChar c pos)
  | ending {state' : r.State} {pos : Position} (hstop : stop = none)
      (hts : r.feedAll state ts = some state') (hfinish : r.finish state' = none)
      (hpos : pos = (ts.getLast?.map (·.pos)).getD last) : Fault r stop state last ts (.unexpectedEnd pos)

theorem fault_of_run {r : Reader α} {stop : Option (Char × Position)} {state : r.State}
    {last : Position} {ts : List Token} {e : Error} (h : run r stop state last ts = .error e) :
    Fault r stop state last ts e := by
  induction ts generalizing state last with
  | nil =>
    cases stop with
    | some found =>
      cases h
      exact .char rfl rfl
    | none =>
      cases hfinish : r.finish state with
      | some a => simp [run, hfinish] at h
      | none =>
        simp only [run, hfinish] at h
        cases h
        exact .ending rfl rfl hfinish rfl
  | cons t ts ih =>
    cases hfeed : r.feed state t with
    | none =>
      simp only [run, hfeed] at h
      cases h
      exact .token (List.nil_append _).symm rfl hfeed
    | some state' =>
      simp only [run, hfeed] at h
      -- A fault of the rest is one of the whole, with `t` in front of what was taken.
      have hall : ∀ us, r.feedAll state (t :: us) = r.feedAll state' us := by
        intro us
        rw [Reader.feedAll, hfeed, Option.bind_some]
      cases ih h with
      | token hts hbefore ht =>
        rw [hts]
        exact .token (List.cons_append ..).symm ((hall _).trans hbefore) ht
      | char hstop hts => exact .char hstop ((hall _).trans hts)
      | ending hstop hts hfinish hpos =>
        refine .ending hstop ((hall _).trans hts) hfinish ?_
        rw [hpos, List.getLast?_cons]
        cases ts.getLast? <;> rfl

/-- Tokens that the reader does not take are refused, whatever follows them. -/
theorem run_of_feedAll_eq_none {r : Reader α} {stop : Option (Char × Position)} {state : r.State}
    {last : Position} {ts : List Token} (us : List Token) (h : r.feedAll state ts = none) :
    ∃ t, run r stop state last (ts ++ us) = .error (.unexpectedToken t) := by
  induction ts generalizing state last with
  | nil => cases h
  | cons t ts ih =>
    cases hfeed : r.feed state t with
    | none => exact ⟨t, by simp [run, hfeed]⟩
    | some state' =>
      simp only [List.cons_append, run, hfeed]
      exact ih (by simpa [Reader.feedAll, hfeed] using h)

/-- What an exact reader makes of a text is what the tokens of the text stand for. -/
theorem read_eq_ok_iff_of_exact {r : Reader α} {L : Phrase α} {π : Reader.Profile} {text : String} {a : α}
    (hexact : r.Exact L π) :
    read r text = .ok a ↔ ∃ ts, Lexed.Cut .start text.toList [] ts ∧ L ts a := by
  rw [read, run_eq_ok_iff]
  constructor
  · rintro ⟨hstop, ha⟩
    obtain ⟨pre, rest, htext, hcut, hhalts⟩ := Lexed.cut_ofText text
    rw [hstop] at hhalts
    cases hhalts with
    | finished =>
      rw [List.append_nil] at htext
      rw [← htext] at hcut
      exact ⟨_, hcut, (hexact.reads _ a).1 ha⟩
  · rintro ⟨ts, hcut, ha⟩
    rw [Lexed.ofText, hcut.scan_eq]
    exact ⟨rfl, (hexact.reads _ a).2 ha⟩

end Source

namespace Symbol

/-! ## The four symbols -/

/-- What a text that starts with the symbol is read as. -/
@[reducible]
def Result : Symbol → Type
  | declaration => Declaration
  | attr => Attribute
  | path => Path
  | type => TypeExpr

/-- Reads a whole text. -/
def read (chars : Charset) : (s : Symbol) → String → Except Source.Error s.Result
  | declaration, text => Source.readDeclaration chars text
  | attr, text => Source.readAttribute chars text
  | path, text => Source.readPath text
  | type, text => Source.readType text

/-- What a sentence gives; it may hold a literal that has no value. -/
def result : (s : Symbol) → s.Value → Except Source.Error s.Result
  | declaration, value => value.mapError .badLiteral
  | attr, value => value.mapError .badLiteral
  | path, value => .ok value
  | type, value => .ok value

theorem read_eq (chars : Charset) (s : Symbol) (text : String) :
    s.read chars text = (Source.read (s.reader chars) text).bind s.result := by
  cases s with
  | declaration => rfl
  | attr => rfl
  | path =>
    show Source.read Reader.path text = _
    cases h : Source.read Reader.path text <;> simp only [reader, h] <;> rfl
  | type =>
    show Source.read Reader.typeExpr text = _
    cases h : Source.read Reader.typeExpr text <;> simp only [reader, h] <;> rfl

theorem badLiteral_of_result {s : Symbol} {value : s.Value} {e : Source.Error}
    (h : s.result value = .error e) : ∃ why, e = .badLiteral why := by
  cases s with
  | declaration =>
    cases value with
    | error why => exact ⟨why, (Except.error.inj h).symm⟩
    | ok d => cases h
  | attr =>
    cases value with
    | error why => exact ⟨why, (Except.error.inj h).symm⟩
    | ok a => cases h
  | path => cases h
  | type => cases h

/-- Tokens with which a sentence can begin. -/
def Viable (chars : Charset) (s : Symbol) (ts : List Token) : Prop :=
  ∃ rest value, s.Sentence chars (ts ++ rest) value

section Sentences

variable {chars : Charset}

theorem viable_iff {s : Symbol} {ts : List Token} :
    s.Viable chars ts ↔ ∃ state, (s.reader chars).feedAll (s.reader chars).start ts = some state := by
  obtain ⟨π, hexact⟩ := s.exact_reader chars
  exact hexact.viable_iff ts

/-- What an error says about the text in which it is the first. -/
def FirstError (chars : Charset) (s : Symbol) (text : String) : Source.Error → Prop
  | .unexpectedToken t => ∃ pre rest before, text.toList = pre ++ rest ∧
      Lexed.Cut .start pre rest (before ++ [t]) ∧ s.Viable chars before ∧ ¬ s.Viable chars (before ++ [t])
  | .unexpectedEnd pos => ∃ ts, Lexed.Cut .start text.toList [] ts ∧ s.Viable chars ts ∧
      (∀ value, ¬ s.Sentence chars ts value) ∧ pos = (ts.getLast?.map (·.pos)).getD .start
  | .unexpectedChar c pos => ∃ pre rest ts, text.toList = pre ++ c :: rest ∧
      pos = Position.start.advance pre ∧ Lexed.Unlexable (c :: rest) ∧
      Lexed.ofText (String.ofList pre) = ⟨ts, none⟩ ∧ Lexed.Cut .start pre (c :: rest) ts ∧ s.Viable chars ts
  -- The text is a sentence, and only a literal in it is at fault.
  | .badLiteral _ => ∃ ts value, Lexed.Cut .start text.toList [] ts ∧ s.Sentence chars ts value
  | _ => False

theorem firstError_of_fault {s : Symbol} {text : String} {e : Source.Error}
    (h : Source.Fault (s.reader chars) (Lexed.ofText text).stop (s.reader chars).start .start
      (Lexed.ofText text).tokens e) : s.FirstError chars text e := by
  obtain ⟨π, hexact⟩ := s.exact_reader chars
  obtain ⟨pre, rest, htext, hcut, hhalts⟩ := Lexed.cut_ofText text
  cases h with
  | @token before after t state hts hbefore ht =>
    rw [hts, List.append_cons] at hcut
    obtain ⟨front, back, rfl, hfront⟩ := hcut.split
    refine ⟨front, back ++ rest, before, by rw [htext, List.append_assoc], hfront,
      viable_iff.2 ⟨state, hbefore⟩, fun hviable => ?_⟩
    -- A sentence would have led the reader past `t`.
    obtain ⟨state', hstate⟩ := viable_iff.1 hviable
    rw [Reader.feedAll_append, hbefore, Option.bind_some, Reader.feedAll, ht] at hstate
    cases hstate
  | char hstop hts =>
    rw [hstop] at hhalts
    cases hhalts with
    | stopped hun => exact ⟨pre, _, _, htext, rfl, hun, hcut.ofText_alone, hcut, viable_iff.2 ⟨_, hts⟩⟩
  | ending hstop hts hfinish hpos =>
    rw [hstop] at hhalts
    cases hhalts with
    | finished =>
      rw [List.append_nil] at htext
      rw [← htext] at hcut
      refine ⟨_, hcut, viable_iff.2 ⟨_, hts⟩, fun value hvalue => ?_, hpos⟩
      have hread := (hexact.reads _ value).2 hvalue
      rw [Reader.read?, hts, Option.bind_some, hfinish] at hread
      cases hread

/-- A text is read as a value exactly if it is cut into the tokens of a sentence for that value. -/
theorem read_eq_ok_iff {s : Symbol} {text : String} {value : s.Value} :
    Source.read (s.reader chars) text = .ok value ↔
      ∃ ts, Lexed.Cut .start text.toList [] ts ∧ s.Sentence chars ts value := by
  obtain ⟨π, hexact⟩ := s.exact_reader chars
  exact Source.read_eq_ok_iff_of_exact hexact

end Sentences

/-- A text that cannot be read is refused at the first place where it leaves every sentence. In
particular a token that no sentence has there is reported, whatever comes after it. -/
theorem read_first_error (chars : Charset) (s : Symbol) (text : String) :
    (∀ e, s.read chars text = .error e → s.FirstError chars text e) ∧
    ∀ pre rest ts, text.toList = pre ++ rest → Lexed.Cut .start pre rest ts → ¬ s.Viable chars ts →
      ∃ t, s.read chars text = .error (.unexpectedToken t) := by
  rw [read_eq]
  constructor
  · intro e he
    cases hread : Source.read (s.reader chars) text with
    | ok value =>
      rw [hread] at he
      obtain ⟨why, rfl⟩ := badLiteral_of_result he
      obtain ⟨ts, hcut, hvalue⟩ := read_eq_ok_iff.1 hread
      exact ⟨ts, value, hcut, hvalue⟩
    | error e' =>
      rw [hread] at he
      cases he
      exact firstError_of_fault (Source.fault_of_run hread)
  · intro pre rest ts htext hcut hts
    have hnone : (s.reader chars).feedAll (s.reader chars).start ts = none := by
      rw [Option.eq_none_iff_forall_ne_some]
      exact fun state hstate => hts (viable_iff.2 ⟨state, hstate⟩)
    obtain ⟨t, ht⟩ := Source.run_of_feedAll_eq_none _ hnone
    refine ⟨t, ?_⟩
    rw [Source.read, Lexed.ofText, htext, hcut.scan, Lexed.prepend, ht]
    rfl

/-- The bad character at the end is not reported, since the second word cannot follow the first. -/
theorem read_first_error_struct_struct :
    let chars : Charset := .plain fun _ => none
    let t : Token := ⟨.struct, "struct", ⟨1, 8⟩⟩
    Symbol.read chars .declaration "struct struct $" = .error (.unexpectedToken t) ∧
      FirstError chars .declaration "struct struct $" (.unexpectedToken t) ∧
      ∃ t, Symbol.read chars .declaration "struct struct $" = .error (.unexpectedToken t) := by
  intro chars t
  have hread : Symbol.read chars .declaration "struct struct $" = .error (.unexpectedToken t) := rfl
  have hfirst := (read_first_error chars .declaration "struct struct $").1 _ hread
  have ⟨pre, rest, before, htext, hcut, _, hnot⟩ := hfirst
  exact ⟨hread, hfirst, (read_first_error chars .declaration "struct struct $").2 pre rest _ htext hcut hnot⟩

end Symbol

end DeriveKit
