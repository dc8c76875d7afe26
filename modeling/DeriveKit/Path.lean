import DeriveKit.Text

/-!
Paths such as `my::derive`: one segment or more, each a non-empty text.

`Path.parse` reads a path from text, split at `::` if that occurs and at `.` otherwise, with blanks
around the parts dropped. `Path.render` joins the segments with `::`. A text is split into one part or
more, and it is a path unless one of them is blank; that is the only reason it is ever refused for
(`parse_eq_error_iff`).
-/
namespace DeriveKit

/-- One name of a path; never empty. -/
abbrev Segment := { s : String // s ≠ "" }

namespace Segment

def of? (s : String) : Option Segment := if h : s = "" then none else some ⟨s, h⟩

end Segment

structure Path where
  head : Segment
  tail : List Segment
deriving DecidableEq, Repr

namespace Path

/-- Why a path cannot be made. -/
inductive Error where
  | noSegments
  | emptySegment (segments : List String)
  | textForSegments (text : String)
deriving DecidableEq, Repr

def Error.message : Error → String
  | noSegments => "Path must have at least one segment"
  | emptySegment segments => "Path segments must be non-empty: " ++ Text.quotedRow segments
  | textForSegments text =>
    "Path segments must be a sequence of names, not " ++ Text.quoted text ++ "; use Path.parse"

/-- The texts of the segments, in order. -/
def segments (p : Path) : List String := (p.head :: p.tail).map (·.val)

def ofSegments (segments : List String) : Except Error Path :=
  match segments.mapM Segment.of? with
  | none => .error (.emptySegment segments)
  | some [] => .error .noSegments
  | some (head :: tail) => .ok ⟨head, tail⟩

/-- The path of one segment. -/
def single (s : Segment) : Path := ⟨s, []⟩

/-- Puts a character in front of the first part. -/
def consFirst (c : Char) : List (List Char) → List (List Char)
  | [] => [[c]]
  | part :: parts => (c :: part) :: parts

/-- The parts of a text between its `::`, sought from the left. -/
def splitPairs : List Char → List (List Char)
  | ':' :: ':' :: rest => [] :: splitPairs rest
  | c :: rest => consFirst c (splitPairs rest)
  | [] => [[]]

/-- The parts of a text between its dots. -/
def splitDots : List Char → List (List Char)
  | [] => [[]]
  | c :: rest => if c = '.' then [] :: splitDots rest else consFirst c (splitDots rest)

/-- Whether `::` occurs. -/
def hasPair : List Char → Bool
  | ':' :: ':' :: _ => true
  | _ :: rest => hasPair rest
  | [] => false

/-- The parts of a written path, not yet trimmed. -/
def parts (cs : List Char) : List (List Char) :=
  if hasPair cs then splitPairs cs else splitDots cs

/-- The parts of a written path, trimmed. -/
def writtenSegments (text : String) : List String :=
  (parts text.toList).map fun part => String.ofList (Text.trim part)

def parse (text : String) : Except Error Path := ofSegments (writtenSegments text)

/-- The segments joined by `separator`. -/
def renderWith (separator : String) (p : Path) : String := separator.intercalate p.segments

def render (p : Path) : String := p.renderWith "::"

/-- The only segment, if there is just one. -/
def ident? (p : Path) : Option String := if p.tail.isEmpty then some p.head.val else none

def isIdent (p : Path) (name : String) : Bool := p.ident? == some name

def last (p : Path) : String := (p.tail.getLastD p.head).val

/-- A path given as such, or as text still to be parsed. -/
inductive Given where
  | path (p : Path)
  | text (s : String)
deriving DecidableEq, Repr

def Given.read : Given → Except Error Path
  | path p => .ok p
  | text s => parse s

/-! ## Texts that are paths -/

theorem mapM_of?_eq_none_iff {segments : List String} :
    segments.mapM Segment.of? = none ↔ "" ∈ segments := by
  induction segments with
  | nil => simp
  | cons s segments ih =>
    by_cases hs : s = ""
    · simp [List.mapM_cons, Segment.of?, hs]
    · cases h : segments.mapM Segment.of? with
      | none => simp [List.mapM_cons, h, ih.1 h]
      | some rest =>
        have hmem : "" ∉ segments := fun hm => by simp [ih.2 hm] at h
        simp [List.mapM_cons, Segment.of?, hs, h, hmem, Ne.symm hs]

theorem mapM_of?_eq_some_nil {segments : List String} (h : segments.mapM Segment.of? = some []) :
    segments = [] := by
  cases segments with
  | nil => rfl
  | cons s segments =>
    rw [List.mapM_cons] at h
    obtain ⟨_, -, h⟩ := Option.bind_eq_some_iff.1 h
    obtain ⟨_, -, h⟩ := Option.bind_eq_some_iff.1 h
    cases h

/-- Segments make a path unless there are none or one is empty. -/
theorem ofSegments_eq_error_iff {segments : List String} {e : Error} (hne : segments ≠ []) :
    ofSegments segments = .error e ↔ "" ∈ segments ∧ e = .emptySegment segments := by
  rw [← mapM_of?_eq_none_iff, ofSegments]
  cases h : segments.mapM Segment.of? with
  | none => simp [eq_comm]
  | some found =>
    cases found with
    | nil => exact absurd (mapM_of?_eq_some_nil h) hne
    | cons head tail => simp

theorem consFirst_ne_nil (c : Char) (parts : List (List Char)) : consFirst c parts ≠ [] := by
  cases parts <;> simp [consFirst]

theorem parts_ne_nil (cs : List Char) : parts cs ≠ [] := by
  unfold parts
  split
  · fun_cases splitPairs cs <;> simp [consFirst_ne_nil]
  · fun_cases splitDots cs <;> simp [consFirst_ne_nil]

theorem parse_of_writtenSegments {text : String} {segments : List String}
    (h : writtenSegments text = segments) : parse text = ofSegments segments := by
  rw [← h]
  rfl

/-- A text is no path exactly if some part of it is blank. -/
theorem parse_eq_error_iff {text : String} {e : Error} :
    parse text = .error e ↔ "" ∈ writtenSegments text ∧ e = .emptySegment (writtenSegments text) :=
  ofSegments_eq_error_iff (by simp [writtenSegments, parts_ne_nil])

end Path

end DeriveKit
