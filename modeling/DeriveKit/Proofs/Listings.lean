import DeriveKit.Proofs.DeriveMerge
import DeriveKit.Proofs.Joins

/-!
# Listings

Different lists have different listings (`listing_determines_items`), whatever quotes, backslashes, commas and
brackets the texts hold. Hence the message of a merge that is refused tells which derives it is refused for.

A listed text escapes its marks one after the other, the backslash first. Later replacements leave the earlier
ones as they are, so that the four amount to one code for each character, and behind an opening quote the text
can be read up to its closing quote (`readListed_listed`).
-/
namespace DeriveKit

namespace Text

/-! ## Escaping in turn -/

/-- What becomes of `d` when every `c` is replaced by `word`. -/
def replacement (c : Char) (word : List Char) (d : Char) : List Char := if d = c then word else [d]

/-- Every `c` of a text replaced by `word`. -/
def replaceChar (c : Char) (word s : String) : String := String.ofList (s.toList.flatMap (replacement c word.toList))

/-- The backslashes of a text escaped, then its quotes, its line feeds and its tabs. -/
def escapedInTurn (s : String) : String :=
  replaceChar '\t' "\\t" (replaceChar '\n' "\\n" (replaceChar '"' "\\\"" (replaceChar '\\' "\\\\" s)))

/-- A character is one of the four marks, or it is listed as it is. -/
theorem mark_or_plain (c : Char) : c = '\\' ∨ c = '"' ∨ c = '\n' ∨ c = '\t' ∨
    (c ≠ '\\' ∧ c ≠ '"' ∧ c ≠ '\n' ∧ c ≠ '\t') ∧ listedChar c = [c] := by
  unfold listedChar
  grind

/-- No replacement touches what an earlier one has put in. -/
theorem listedChar_eq (c : Char) :
    listedChar c = (replacement '\\' ['\\', '\\'] c).flatMap fun c => (replacement '"' ['\\', '"'] c).flatMap fun c =>
      (replacement '\n' ['\\', 'n'] c).flatMap (replacement '\t' ['\\', 't']) := by
  rcases mark_or_plain c with rfl | rfl | rfl | rfl | ⟨⟨hslash, hquote, hfeed, htab⟩, hplain⟩
  · rfl
  · rfl
  · rfl
  · rfl
  · rw [hplain]
    simp [replacement, hslash, hquote, hfeed, htab]

theorem listed_eq (s : String) : listed s = "\"" ++ escapedInTurn s ++ "\"" := by
  rw [← String.toList_inj]
  simp [listed, escapedInTurn, replaceChar, List.flatMap_assoc, funext listedChar_eq]

/-! ## Reading a listed text -/

/-- The text behind an opening quote, and what follows its closing quote. -/
def readListed : List Char → Option (List Char × List Char)
  | [] => none
  | '"' :: rest => some ([], rest)
  | '\\' :: c :: rest => (readListed rest).map fun (cs, rest) =>
    ((if c = 'n' then '\n' else if c = 't' then '\t' else c) :: cs, rest)
  | c :: rest => (readListed rest).map fun (cs, rest) => (c :: cs, rest)

theorem readListed_listedChar (c : Char) (rest : List Char) :
    readListed (listedChar c ++ rest) = (readListed rest).map fun (cs, rest) => (c :: cs, rest) := by
  rcases mark_or_plain c with rfl | rfl | rfl | rfl | ⟨⟨hslash, hquote, -, -⟩, hplain⟩
  · rfl
  · rfl
  · rfl
  · rfl
  · rw [hplain]
    simp [readListed, hslash]

theorem readListed_listed (cs rest : List Char) :
    readListed (cs.flatMap listedChar ++ '"' :: rest) = some (cs, rest) := by
  induction cs with
  | nil => rfl
  | cons c cs ih => rw [List.flatMap_cons, List.append_assoc, readListed_listedChar, ih, Option.map_some]

/-- A listed text ends at its closing quote. -/
theorem selfEnding_listed : SelfEnding (fun _ => True) fun s => (listed s).toList := by
  intro a b _ _ r s h
  simp only [listed, String.toList_ofList, List.cons_append, List.append_assoc, List.nil_append, List.cons.injEq,
    true_and] at h
  have hread := congrArg readListed h
  rw [readListed_listed, readListed_listed, Option.some.injEq, Prod.mk.injEq] at hread
  exact String.toList_inj.1 hread.1

theorem listing_injective {items items' : List String} (h : listing items = listing items') : items = items' := by
  have hlists := congrArg String.toList h
  simp only [listing, String.toList_append, String.toList_intercalate, List.map_map, List.append_assoc,
    List.append_cancel_left_eq] at hlists
  refine selfEnding_listed.join_injective ?_ ?_ (by simp) (by simp) hlists
  · intro s r _
    simp [listed]
  · intro s r _
    simp

end Text

/-! ## Refused merges -/

namespace Derive

/-- A merge that stops is refused for derives that are listed already. -/
theorem cause_of_merge {config : Config} {requests : List Request} {d : Declaration} {a : Abort}
    (h : (merge config requests d).value = .error (.abort a)) : ∃ overlap, a.cause = .derivesListed overlap := by
  cases hread : readAll requests with
  | error e =>
    simp only [merge, hread] at h
    cases h
  | ok wanted =>
    rw [merge_of_reads (readAll_eq_ok_iff.1 hread)] at h
    rcases FirstList.exists_or_noList config.derivePath d.attrs with ⟨i, found, listed, hfirst⟩ | hno
    · by_cases hold : ∃ e ∈ wanted, e.isIn listed = true
      · rw [mergeEntries_of_overlap hfirst hold] at h
        have hrefused := refused_refusal config (wanted.filter (·.isIn listed)) found.loc
        rw [Except.error.inj h] at hrefused
        cases hrefused with
        | named => exact ⟨_, rfl⟩
      · rw [mergeEntries_of_room hfirst (by simpa using hold)] at h
        cases h
    · rw [mergeEntries_of_noList hno] at h
      cases h

theorem overlap_of_message {overlap overlap' : List String}
    (h : (Cause.derivesListed overlap).message = (Cause.derivesListed overlap').message) : overlap = overlap' :=
  Text.listing_injective ((String.append_right_inj _).1 h)

/-- A listing holds its texts in quotes, their marks escaped in turn, and no two lists have the same listing. So
two merges that are refused with the same message are refused for the same derives. -/
theorem listing_determines_items :
    (∀ items, Text.listing items =
      "[" ++ ", ".intercalate (items.map fun s => "\"" ++ Text.escapedInTurn s ++ "\"") ++ "]") ∧
    (∀ items items', Text.listing items = Text.listing items' ↔ items = items') ∧
    ∀ config config' requests requests' d d' a a', (merge config requests d).value = .error (.abort a) →
      (merge config' requests' d').value = .error (.abort a') → a.message = a'.message →
      ∃ overlap, a.cause = .derivesListed overlap ∧ a'.cause = .derivesListed overlap := by
  refine ⟨fun items => ?_, fun items items' => ⟨Text.listing_injective, congrArg _⟩, ?_⟩
  · rw [Text.listing, funext Text.listed_eq]
  · intro config config' requests requests' d d' a a' h h' hmessage
    obtain ⟨overlap, hcause⟩ := cause_of_merge h
    obtain ⟨overlap', hcause'⟩ := cause_of_merge h'
    rw [Abort.message, Abort.message, hcause, hcause'] at hmessage
    exact ⟨overlap, hcause, overlap_of_message hmessage ▸ hcause'⟩

/-- A text that looks like the end of one item and the start of the next; and a derive that is refused twice, once
as an entry and once as text. -/
theorem listing_determines_items_quoted :
    Text.listing ["a\", \"b"] ≠ Text.listing ["a", "b"] ∧
    ∃ a a', (merge Config.default [.entry (bare ⟨"Clone", by decide⟩)] marked).value = .error (.abort a) ∧
      (merge Config.default [.text " Clone"] marked).value = .error (.abort a') ∧
      a.message = a'.message ∧ ∃ overlap, a.cause = .derivesListed overlap ∧ a'.cause = .derivesListed overlap := by
  obtain ⟨-, hiff, hmerge⟩ := listing_determines_items
  refine ⟨fun h => ?_, ?_⟩
  · have := (hiff _ _).1 h
    simp at this
  · let abort : Abort := ⟨.derivesListed ["Clone"], some ⟨2, 1⟩⟩
    have hentry : (merge Config.default [.entry (bare ⟨"Clone", by decide⟩)] marked).value =
        .error (.abort abort) := rfl
    have hsegments : Path.writtenSegments " Clone" = ["Clone"] := by decide +kernel
    have hparse : Path.parse " Clone" = .ok (.single ⟨"Clone", by decide⟩) :=
      Path.parse_of_writtenSegments hsegments
    have hreads : Reads [.text " Clone"] [bare ⟨"Clone", by decide⟩] := by
      rw [Reads, List.map_cons, read_text_of_ok hparse]
      rfl
    have htext : (merge Config.default [.text " Clone"] marked).value = .error (.abort abort) := by
      rw [merge_of_reads hreads]
      rfl
    exact ⟨abort, abort, hentry, htext, rfl, hmerge _ _ _ _ _ _ _ _ hentry htext rfl⟩

end Derive

end DeriveKit
