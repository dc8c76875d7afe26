import DeriveKit.Proofs.LiteralText
import DeriveKit.Proofs.Words

/-!
# Spellings of a text

A text has many spellings between quotes. Each of its characters can stand for itself, unless it is a quote
or a backslash, or be written by escapes: one for each of its bytes, or a single letter for the few
characters that have one. Whatever is chosen for each character, the spelling in its quotes is one token, and
the token stands for the text (`spelling_decodes`). Names of characters play no part in this.

The tables below are those of the notation. Reading escapes knows nothing of them.
-/
namespace DeriveKit.Literal

open DeriveKit.Text
open DeriveKit.Lexed (StringBody)

/-! ## The notation -/

/-- The digits of base sixteen, in either case, with their values. -/
def hexTable : List (Char × Nat) :=
  "0123456789abcdef".toList.zipIdx ++ "0123456789ABCDEF".toList.zipIdx

def octalTable : List (Char × Nat) := "01234567".toList.zipIdx

/-- The letters after which digits of base sixteen stand. With each, the number of zeros in front of the two
digits of a byte. -/
def hexForms : List (Char × Nat) := [('x', 0), ('u', 2), ('U', 6)]

/-- The letters and marks that stand for a character of their own, and that character. -/
def letterTable : List (Char × Char) :=
  [('\\', '\\'), ('\'', '\''), ('"', '"'), ('a', '\x07'), ('b', '\x08'), ('f', '\x0c'), ('n', '\n'),
    ('r', '\r'), ('t', '\t'), ('v', '\x0b')]

/-- The escapes of a byte. -/
inductive SpellsByte (b : UInt8) : List Char → Prop where
  /-- `\xHH`, `\u00HH` or `\U000000HH` -/
  | hex {letter high low : Char} {zeros h l : Nat} (hform : (letter, zeros) ∈ hexForms)
      (hhigh : (high, h) ∈ hexTable) (hlow : (low, l) ∈ hexTable) (hvalue : b.toNat = 16 * h + l) :
      SpellsByte b ('\\' :: letter :: (List.replicate zeros '0' ++ [high, low]))
  /-- Three digits of base eight. -/
  | octal {c d e : Char} {x y z : Nat} (hc : (c, x) ∈ octalTable) (hd : (d, y) ∈ octalTable)
      (he : (e, z) ∈ octalTable) (hvalue : b.toNat = 64 * x + 8 * y + z) : SpellsByte b ['\\', c, d, e]

/-- One escape for each byte. -/
inductive SpellsBytes : List UInt8 → List Char → Prop where
  | nil : SpellsBytes [] []
  | cons {b : UInt8} {bs : List UInt8} {word rest : List Char} (h : SpellsByte b word)
      (hs : SpellsBytes bs rest) : SpellsBytes (b :: bs) (word ++ rest)

/-- The ways to write a character. -/
inductive SpellsChar (c : Char) : List Char → Prop where
  | raw (hquote : c ≠ '"') (hslash : c ≠ '\\') : SpellsChar c [c]
  | bytes {word : List Char} (h : SpellsBytes (String.utf8EncodeChar c) word) : SpellsChar c word
  | letter {l : Char} (h : (l, c) ∈ letterTable) : SpellsChar c ['\\', l]

/-- `Spells cs content`: between quotes, `content` writes the characters `cs`, each in a way of its own. -/
inductive Spells : List Char → List Char → Prop where
  | nil : Spells [] []
  | cons {c : Char} {cs word rest : List Char} (h : SpellsChar c word) (hs : Spells cs rest) :
      Spells (c :: cs) (word ++ rest)

theorem hexTable_spec : ∀ p ∈ hexTable, hexValue? p.1 = some p.2 ∧ p.1 ≠ '"' ∧ p.1 ≠ '\\' := by
  decide

theorem octalTable_spec : ∀ p ∈ octalTable, isOctal p.1 = true ∧ p.1.toNat - '0'.toNat = p.2 ∧
    singleEscape? p.1 = none ∧ p.1 ≠ '\n' ∧ p.1 ≠ '"' ∧ p.1 ≠ '\\' := by
  decide

theorem letterTable_spec : ∀ p ∈ letterTable, singleEscape? p.1 = some p.2.toNat ∧
    Utf8.encodeChar p.2 = [p.2.toNat] ∧ p.1 ≠ '\n' := by
  decide

/-! ## What stands between the quotes -/

theorem stringBody_append {word rest : List Char} (hword : ∀ c ∈ word, c ≠ '"' ∧ c ≠ '\\')
    (hrest : StringBody rest) : StringBody (word ++ rest) := by
  induction word with
  | nil => exact hrest
  | cons c word ih =>
    obtain ⟨hc, hword⟩ := List.forall_mem_cons.1 hword
    exact .plain hc.1 hc.2 (ih hword)

theorem SpellsByte.stringBody {b : UInt8} {word rest : List Char} (h : SpellsByte b word)
    (hrest : StringBody rest) : StringBody (word ++ rest) := by
  rcases h with ⟨hform, hhigh, hlow, -⟩ | ⟨hc, hd, he, -⟩
  · have hletter : ∀ p ∈ hexForms, p.1 ≠ '\n' := by decide
    refine .escape (hletter _ hform) (stringBody_append ?_ hrest)
    intro c hc
    simp only [List.mem_append, List.mem_replicate, List.mem_cons, List.not_mem_nil, or_false] at hc
    rcases hc with ⟨-, rfl⟩ | rfl | rfl
    · decide
    · exact (hexTable_spec _ hhigh).2
    · exact (hexTable_spec _ hlow).2
  · obtain ⟨-, -, -, hc, -⟩ := octalTable_spec _ hc
    obtain ⟨-, -, -, -, hd⟩ := octalTable_spec _ hd
    obtain ⟨-, -, -, -, he⟩ := octalTable_spec _ he
    exact .escape hc (.plain hd.1 hd.2 (.plain he.1 he.2 hrest))

theorem SpellsBytes.stringBody {bs : List UInt8} {word rest : List Char} (h : SpellsBytes bs word)
    (hrest : StringBody rest) : StringBody (word ++ rest) := by
  induction h with
  | nil => exact hrest
  | cons h hs ih =>
    rw [List.append_assoc]
    exact h.stringBody ih

theorem Spells.stringBody {cs content : List Char} (h : Spells cs content) : StringBody content := by
  induction h with
  | nil => exact .nil
  | cons h hs ih =>
    rcases h with ⟨hquote, hslash⟩ | h | h
    · exact .plain hquote hslash ih
    · exact h.stringBody ih
    · exact .escape (letterTable_spec _ h).2.2 ih

/-! ## What the escapes give -/

section Reading

variable {named : List Char → Option Char}

theorem read?_hex {letter high low : Char} {zeros h l : Nat} (hform : (letter, zeros) ∈ hexForms)
    (hhigh : (high, h) ∈ hexTable) (hlow : (low, l) ∈ hexTable) (hvalue : 16 * h + l < 0x100)
    (rest : List Char) :
    Escape.read? named (letter :: (List.replicate zeros '0' ++ [high, low]) ++ rest) =
      some ⟨[16 * h + l], zeros + 3⟩ := by
  have hh : hexValue? high = some h := (hexTable_spec _ hhigh).1
  have hl : hexValue? low = some l := (hexTable_spec _ hlow).1
  have hzero : hexValue? '0' = some 0 := rfl
  have hbound : 16 * h + l < 0x110000 := by omega
  simp only [hexForms, List.mem_cons, List.not_mem_nil, or_false, Prod.mk.injEq] at hform
  rcases hform with ⟨rfl, rfl⟩ | ⟨rfl, rfl⟩ | ⟨rfl, rfl⟩ <;>
    simp [Escape.read?, singleEscape?, isOctal, List.replicate, takeHex?, hzero, hh, hl, hbound]

theorem read?_octal {c d e : Char} {x y z : Nat} (hc : (c, x) ∈ octalTable) (hd : (d, y) ∈ octalTable)
    (he : (e, z) ∈ octalTable) (rest : List Char) :
    Escape.read? named ([c, d, e] ++ rest) = some ⟨[64 * x + 8 * y + z], 3⟩ := by
  obtain ⟨hc, hx, hsingle, -⟩ := octalTable_spec _ hc
  obtain ⟨hd, hy, -⟩ := octalTable_spec _ hd
  obtain ⟨he, hz, -⟩ := octalTable_spec _ he
  have hdigits : octalDigits (c :: d :: e :: rest) = [c, d, e] := by simp [octalDigits, hc, hd, he]
  have hoctal : octalValue [c, d, e] = 64 * x + 8 * y + z := by
    simp only [octalValue, List.foldl_cons, List.foldl_nil, hx, hy, hz]
    omega
  simp [Escape.read?, hsingle, hc, hdigits, hoctal]

/-- An escape of a byte gives the byte, whatever follows. -/
theorem SpellsByte.unescape {b : UInt8} {word : List Char} (h : SpellsByte b word) (rest : List Char) :
    unescape named (word ++ rest) =
      resume [b.toNat] (Utf8.encode word).length (unescape named rest) := by
  rcases h with ⟨hform, hhigh, hlow, hvalue⟩ | ⟨hc, hd, he, hvalue⟩
  · rw [hvalue]
    refine unescape_escape (read?_hex hform hhigh hlow ?_ rest) (by simp)
    rw [← hvalue]
    exact b.toNat_lt
  · rw [hvalue]
    exact unescape_escape (read?_octal hc hd he rest) rfl

theorem SpellsBytes.unescape {bs : List UInt8} {word rest : List Char} {codes : List Nat}
    (h : SpellsBytes bs word) (hrest : unescape named rest = .ok codes) :
    Literal.unescape named (word ++ rest) = .ok (bs.map UInt8.toNat ++ codes) := by
  induction h with
  | nil => exact hrest
  | cons h hs ih => rw [List.append_assoc, h.unescape, ih, resume_ok, List.map_cons]; rfl

/-- The escapes of a spelling give the bytes of the text. -/
theorem Spells.unescape {cs content : List Char} (h : Spells cs content) :
    unescape named content = .ok (Utf8.encode cs) := by
  induction h with
  | nil => rfl
  | @cons c cs word rest h hs ih =>
    have hcons : Utf8.encode (c :: cs) = Utf8.encodeChar c ++ Utf8.encode cs := rfl
    rw [hcons]
    rcases h with ⟨-, hslash⟩ | h | h
    · rw [List.singleton_append, unescape_plain hslash, ih, resume_ok]
    · rw [Utf8.encodeChar_eq]
      exact h.unescape ih
    · obtain ⟨hsingle, hbyte, -⟩ := letterTable_spec _ h
      rw [hbyte]
      exact (unescape_single hsingle rest).trans (congrArg _ ih)

end Reading

/-- However a text is spelled between quotes, the whole is one string token, and it stands for the text. -/
theorem spelling_decodes (named : List Char → Option Char) {s : String} {content : List Char}
    (h : Spells s.toList content) :
    Lexed.ofText (quoted content) = ⟨[⟨.string, quoted content, .start⟩], none⟩ ∧
      decodeText (.plain named) (quoted content) = .ok s := by
  exact ⟨(Lexed.Lexeme.string h.stringBody).ofText, decodeText_of_unescape h.unescape⟩

/-- A quote by its letter, two bytes by different escapes, a character that stands for itself, and four bytes by
all four escapes, the last of which ends before a digit. -/
theorem spelling_decodes_mixed :
    let named : List Char → Option Char := fun _ => none
    let content := "\\\"\\303\\xA9€\\xf0\\u009F\\U00000098\\2007".toList
    Spells "\"é€😀7".toList content ∧
      Lexed.ofText (quoted content) = ⟨[⟨.string, quoted content, .start⟩], none⟩ ∧
      decodeText (.plain named) (quoted content) = .ok "\"é€😀7" := by
  intro named content
  have htwo : SpellsBytes (String.utf8EncodeChar 'é') (['\\', '3', '0', '3'] ++ (['\\', 'x', 'A', '9'] ++ [])) :=
    .cons (@SpellsByte.octal _ '3' '0' '3' 3 0 3 (by decide) (by decide) (by decide) rfl)
      (.cons (@SpellsByte.hex _ 'x' 'A' '9' 0 10 9 (by decide) (by decide) (by decide) rfl) .nil)
  have hfour : SpellsBytes (String.utf8EncodeChar '😀') (['\\', 'x', 'f', '0'] ++ ("\\u009F".toList ++
      ("\\U00000098".toList ++ (['\\', '2', '0', '0'] ++ [])))) :=
    .cons (@SpellsByte.hex _ 'x' 'f' '0' 0 15 0 (by decide) (by decide) (by decide) rfl)
      (.cons (@SpellsByte.hex _ 'u' '9' 'F' 2 9 15 (by decide) (by decide) (by decide) rfl)
        (.cons (@SpellsByte.hex _ 'U' '9' '8' 6 9 8 (by decide) (by decide) (by decide) rfl)
          (.cons (@SpellsByte.octal _ '2' '0' '0' 2 0 0 (by decide) (by decide) (by decide) rfl) .nil)))
  have hspells : Spells "\"é€😀7".toList content :=
    .cons (.letter (by decide : ('"', '"') ∈ letterTable)) (.cons (.bytes htwo)
      (.cons (.raw (by decide) (by decide)) (.cons (.bytes hfour)
        (.cons (.raw (by decide) (by decide)) .nil))))
  exact ⟨hspells, spelling_decodes named hspells⟩

end DeriveKit.Literal
