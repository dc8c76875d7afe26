import DeriveKit.Literal

/-!
# Literals read back

A text literal is read as the text it was written for, whatever characters that holds: written
characters stand for the bytes of their text (`unescape_written`), and these bytes are UTF-8
(`Utf8.decode_encode`). A natural number is read back from its decimal digits, unless there are too
many of them; then it cannot be written either (`render?_eq_none_iff`).
-/
namespace DeriveKit

open DeriveKit.Text

/-! ## Stages of reading -/

/-- The outcome of a stage that has made `front` of the first `n` places, given the outcome of what
follows them: the results are joined, and an error is counted from the beginning. -/
def resume {α : Type} (front : List α) (n : Nat) (rest : Except Nat (List α)) : Except Nat (List α) :=
  (rest.map (front ++ ·)).mapError (· + n)

section Resume

variable {α : Type} {front more rest : List α} {n m : Nat}

@[simp]
theorem resume_ok : resume front n (.ok rest) = .ok (front ++ rest) := rfl

@[simp]
theorem resume_error {start : Nat} : resume front n (.error start) = .error (start + n) := rfl

@[simp]
theorem resume_nil (r : Except Nat (List α)) : resume [] 0 r = r := by
  cases r <;> rfl

@[simp]
theorem resume_resume (r : Except Nat (List α)) :
    resume front n (resume more m r) = resume (front ++ more) (n + m) r := by
  cases r with
  | ok rest => simp
  | error start => simp only [resume_error, Nat.add_assoc, Nat.add_comm m n]

theorem ok_of_resume {r : Except Nat (List α)} {all : List α} (h : resume front n r = .ok all) :
    ∃ rest, r = .ok rest ∧ all = front ++ rest := by
  cases r with
  | ok rest => exact ⟨rest, rfl, (Except.ok.inj h).symm⟩
  | error start => cases h

end Resume

namespace Utf8

/-! ## UTF-8 -/

section Decode

variable {a b c d n : Nat}

theorem decode_one (ha : a < 0x80) (bytes : List Nat) :
    decode (a :: bytes) = resume [Char.ofNat a] 1 (decode bytes) := by
  rw [decode.eq_def]
  simp only [ha, if_true]
  rfl

theorem decode_two (ha : 0xC2 ≤ a) (ha' : a < 0xE0) (hb : isContinuation b = true)
    (hn : (a - 0xC0) * 0x40 + (b - 0x80) = n) (bytes : List Nat) :
    decode (a :: b :: bytes) = resume [Char.ofNat n] 2 (decode bytes) := by
  have hone : ¬ a < 0x80 := by omega
  rw [decode.eq_def]
  simp only [hone, if_false, ha, ha', hb, hn, decide_true, Bool.and_self, if_true]
  rfl

theorem decode_three (ha : 0xE0 ≤ a) (ha' : a < 0xF0) (hb : isContinuation b = true)
    (hc : isContinuation c = true) (hn : (a - 0xE0) * 0x1000 + (b - 0x80) * 0x40 + (c - 0x80) = n)
    (hlow : 0x800 ≤ n) (hsurrogate : n < 0xD800 ∨ 0xE000 ≤ n) (bytes : List Nat) :
    decode (a :: b :: c :: bytes) = resume [Char.ofNat n] 3 (decode bytes) := by
  have hone : ¬ a < 0x80 := by omega
  have htwo : ¬ a < 0xE0 := by omega
  have hvalid : (!(decide (0xD800 ≤ n) && decide (n < 0xE000))) = true := by
    simpa using hsurrogate
  rw [decode.eq_def]
  simp only [hone, if_false, htwo, decide_false, Bool.and_false, Bool.false_and, Bool.false_eq_true,
    ha, ha', hb, hc, hn, hlow, hvalid, decide_true, Bool.and_self, if_true]
  rfl

theorem decode_four (ha : 0xF0 ≤ a) (ha' : a < 0xF8) (hb : isContinuation b = true)
    (hc : isContinuation c = true) (hd : isContinuation d = true)
    (hn : (a - 0xF0) * 0x40000 + (b - 0x80) * 0x1000 + (c - 0x80) * 0x40 + (d - 0x80) = n)
    (hlow : 0x10000 ≤ n) (hhigh : n < 0x110000) (bytes : List Nat) :
    decode (a :: b :: c :: d :: bytes) = resume [Char.ofNat n] 4 (decode bytes) := by
  have hone : ¬ a < 0x80 := by omega
  have htwo : ¬ a < 0xE0 := by omega
  have hthree : ¬ a < 0xF0 := by omega
  rw [decode.eq_def]
  simp only [hone, if_false, htwo, hthree, decide_false, Bool.and_false, Bool.false_and,
    Bool.false_eq_true, ha, ha', hb, hc, hd, hn, hlow, hhigh, decide_true, Bool.and_self, if_true]
  rfl

end Decode

theorem isContinuation_low (n : Nat) : isContinuation (0x80 + n % 0x40) = true := by
  simp only [isContinuation, Bool.and_eq_true, decide_eq_true_eq]
  omega

theorem toNat_valid (c : Char) : c.toNat < 0xD800 ∨ 0xDFFF < c.toNat ∧ c.toNat < 0x110000 := c.valid

theorem decode_encodeChar (c : Char) (bytes : List Nat) :
    decode (encodeChar c ++ bytes) = resume [c] (encodeChar c).length (decode bytes) := by
  have hvalid := toNat_valid c
  suffices hcode :
      decode (encodeChar c ++ bytes) = resume [Char.ofNat c.toNat] (encodeChar c).length (decode bytes) by
    rwa [Char.ofNat_toNat] at hcode
  -- The code point decides how many bytes there are.
  simp only [encodeChar]
  split
  next hone => exact decode_one hone bytes
  next hone =>
    split
    next htwo => exact decode_two (by omega) (by omega) (isContinuation_low _) (by omega) bytes
    next htwo =>
      split
      next hthree =>
        exact decode_three (by omega) (by omega) (isContinuation_low _) (isContinuation_low _)
          (by omega) (by omega) (by omega) bytes
      next hthree =>
        exact decode_four (by omega) (by omega) (isContinuation_low _) (isContinuation_low _)
          (isContinuation_low _) (by omega) (by omega) (by omega) bytes

/-- The bytes of a text are read as the text, whatever follows them. -/
theorem decode_encode_append (cs : List Char) (bytes : List Nat) :
    decode (encode cs ++ bytes) = resume cs (encode cs).length (decode bytes) := by
  induction cs with
  | nil => exact (resume_nil _).symm
  | cons c cs ih =>
    rw [encode, List.flatMap_cons, List.append_assoc, decode_encodeChar, ← encode, ih, resume_resume,
      List.length_append]
    rfl

theorem decode_encode (cs : List Char) : decode (encode cs) = .ok cs := by
  have h := decode_encode_append cs []
  rwa [List.append_nil, decode, resume_ok, List.append_nil] at h

/-- The bytes of a character are those of the library, as numbers. -/
theorem encodeChar_eq (c : Char) : encodeChar c = (String.utf8EncodeChar c).map UInt8.toNat := by
  have hvalid := toNat_valid c
  simp only [encodeChar, String.utf8EncodeChar, show c.val.toNat = c.toNat from rfl]
  rcases (show c.toNat < 0x80 ∨ 0x80 ≤ c.toNat ∧ c.toNat < 0x800 ∨ 0x800 ≤ c.toNat ∧ c.toNat < 0x10000 ∨
    0x10000 ≤ c.toNat by omega) with hone | htwo | hthree | hfour
  · rw [if_pos hone, if_pos (by omega)]
    simp
    omega
  · rw [if_neg (by omega), if_pos htwo.2, if_neg (by omega), if_pos (by omega)]
    simp
    omega
  · rw [if_neg (by omega), if_neg (by omega), if_pos hthree.2, if_neg (by omega), if_neg (by omega),
      if_pos (by omega)]
    simp
    omega
  · rw [if_neg (by omega), if_neg (by omega), if_neg (by omega), if_neg (by omega), if_neg (by omega),
      if_neg (by omega)]
    simp
    omega

theorem length_encode (cs : List Char) : (encode cs).length = (String.ofList cs).utf8ByteSize := by
  rw [← String.size_toByteArray, String.toByteArray_ofList, List.utf8Encode, List.size_toByteArray]
  simp only [encode, List.length_flatMap, encodeChar_eq, List.length_map]

theorem encodeChar_lt (c : Char) : ∀ b ∈ encodeChar c, b < 0x100 := by
  have hvalid := toNat_valid c
  intro b hb
  simp only [encodeChar] at hb
  repeat' split at hb
  all_goals
    simp only [List.mem_cons, List.not_mem_nil, or_false] at hb
    omega

theorem encode_lt (cs : List Char) : ∀ b ∈ encode cs, b < 0x100 := by
  intro b hb
  obtain ⟨c, -, hb⟩ := List.mem_flatMap.1 hb
  exact encodeChar_lt c b hb

end Utf8

namespace Literal

/-! ## Texts -/

theorem narrow_of_lt {codes : List Nat} (h : ∀ n ∈ codes, n < 0x100) : narrow codes = .ok codes := by
  induction codes with
  | nil => rfl
  | cons n codes ih =>
    rw [narrow, if_pos (h n List.mem_cons_self), ih fun m hm => h m (List.mem_cons_of_mem n hm)]
    rfl

theorem scalars_char (cs : List Char) : scalars (cs.map .char) = .ok cs := by
  induction cs with
  | nil => rfl
  | cons c cs ih =>
    rw [List.map_cons, scalars, ih]
    rfl

section Unescape

variable {named : List Char → Option Char}

/-- What belongs to an escape is passed over. -/
theorem unescapeAfter_length_append (word rest : List Char) :
    unescapeAfter named word.length (word ++ rest) =
      resume [] (Utf8.encode word).length (unescape named rest) := by
  induction word with
  | nil => exact (resume_nil _).symm
  | cons c word ih =>
    have hstep : unescapeAfter named (word.length + 1) (c :: (word ++ rest)) =
        resume [] (Utf8.encodeChar c).length (unescapeAfter named word.length (word ++ rest)) := by
      rw [unescapeAfter]
      cases unescapeAfter named word.length (word ++ rest) <;> rfl
    rw [List.length_cons, List.cons_append, hstep, ih, resume_resume, ← List.length_append]
    rfl

/-- A backslash takes along what belongs to its escape. -/
theorem unescape_escape {word rest : List Char} {e : Escape}
    (h : Escape.read? named (word ++ rest) = some e) (hlength : e.length = word.length) :
    unescape named ('\\' :: (word ++ rest)) =
      resume e.codes (Utf8.encode ('\\' :: word)).length (unescape named rest) := by
  have hstep : unescape named ('\\' :: (word ++ rest)) =
      resume e.codes 1 (unescapeAfter named e.length (word ++ rest)) := by
    simp only [unescape, unescapeAfter, if_true, h]
    rfl
  rw [hstep, hlength, unescapeAfter_length_append, resume_resume, List.append_nil, Nat.add_comm]
  rfl

theorem unescape_plain {c : Char} (hc : c ≠ '\\') (rest : List Char) :
    unescape named (c :: rest) =
      resume (Utf8.encodeChar c) (Utf8.encodeChar c).length (unescape named rest) := by
  simp only [unescape, unescapeAfter, if_neg hc]
  rfl

theorem unescape_single {c : Char} {n : Nat} (hc : singleEscape? c = some n) (rest : List Char) :
    unescape named ('\\' :: c :: rest) =
      resume [n] (Utf8.encode ['\\', c]).length (unescape named rest) := by
  have hread : Escape.read? named ([c] ++ rest) = some ⟨[n], 1⟩ := by
    simp only [List.singleton_append, Escape.read?, hc]
  exact unescape_escape hread rfl

theorem unescape_written (cs : List Char) :
    unescape named (cs.flatMap writtenChar) = .ok (Utf8.encode cs) := by
  induction cs with
  | nil => rfl
  | cons c cs ih =>
    rw [List.flatMap_cons, writtenChar]
    split
    next hc =>
      subst hc
      exact (unescape_single rfl _).trans (congrArg _ ih)
    next hslash =>
      split
      next hc =>
        subst hc
        exact (unescape_single rfl _).trans (congrArg _ ih)
      next hquote => exact (unescape_plain hslash _).trans (congrArg _ ih)

/-- A content between its quotes. -/
def quoted (content : List Char) : String := String.ofList ('"' :: (content ++ ['"']))

theorem decodeText_quoted (chars : Charset) (content : List Char) :
    decodeText chars (quoted content) =
      (decodeContent chars.named (content.map chars.code)).map String.ofList := by
  have hdrop : (quoted content).toList.drop 1 = content ++ ['"'] := by
    rw [quoted, String.toList_ofList]
    rfl
  rw [decodeText, hdrop, List.dropLast_concat]

/-- A content whose escapes give the bytes of a text stands for the text. -/
theorem decodeContent_of_unescape {content cs : List Char}
    (h : unescape named content = .ok (Utf8.encode cs)) :
    decodeContent named (content.map .char) = .ok cs := by
  rw [decodeContent, scalars_char]
  show (unescape named content).mapError _ >>= _ = _
  rw [h]
  show (narrow (Utf8.encode cs)).mapError _ >>= _ = _
  rw [narrow_of_lt (Utf8.encode_lt _)]
  show (Utf8.decode (Utf8.encode cs)).mapError _ = _
  rw [Utf8.decode_encode]
  rfl

theorem decodeText_of_unescape {content : List Char} {s : String}
    (h : unescape named content = .ok (Utf8.encode s.toList)) :
    decodeText (.plain named) (quoted content) = .ok s := by
  rw [decodeText_quoted]
  exact (congrArg (Except.map String.ofList) (decodeContent_of_unescape h)).trans
    (congrArg Except.ok String.ofList_toList)

theorem decodeText_render (s : String) : decodeText (.plain named) (render (.text s)) = .ok s :=
  decodeText_of_unescape (unescape_written s.toList)

end Unescape

/-! ## Numbers -/

theorem isDigit_of_mem_toDigits {n : Nat} {c : Char} (h : c ∈ Nat.toDigits 10 n) : isDigit c = true := by
  have := Nat.isDigit_of_mem_toDigits (by decide) (by decide) h
  simp only [Char.isDigit, Bool.and_eq_true, decide_eq_true_eq] at this
  simp only [isDigit, Bool.and_eq_true, decide_eq_true_eq]
  exact this

theorem decodeInt_decimal {n : Nat} (h : (Nat.toDigits 10 n).length ≤ maxDigits) :
    decodeInt (decimal n) = .ok n := by
  have hvalue : decimalValue (Nat.toDigits 10 n) = n := Nat.ofDigitChars_ten_toDigits
  rw [decodeInt, decimal, String.toList_ofList]
  split
  next ds hds =>
    have hminus : isDigit '-' = true := isDigit_of_mem_toDigits (hds ▸ List.mem_cons_self)
    exact absurd hminus (by decide)
  next =>
    rw [decodeNat, if_neg (by omega), hvalue]
    rfl

theorem lt_length_toDigits_iff {n k : Nat} (hk : 0 < k) :
    k < (Nat.toDigits 10 n).length ↔ Nat.pow 10 k ≤ n := by
  rw [← Nat.not_le, Nat.length_toDigits_le_iff (by decide) hk, Nat.not_lt]
  rfl

/-- The only literals that cannot be written are integers of too many digits. -/
theorem render?_eq_none_iff {v : Literal} :
    v.render? = none ↔ ∃ n, v = .int n ∧ Nat.pow 10 maxDigits ≤ n.natAbs := by
  cases v with
  | int n =>
    simp [render?, isWritable, signedDecimal?, lt_length_toDigits_iff (k := maxDigits) (by decide)]
  | text s => simp [render?, isWritable]
  | real x => simp [render?, isWritable]
  | flag b => simp [render?, isWritable]

end Literal

end DeriveKit
