import DeriveKit.Proofs.LiteralText

/-!
# Contents in pieces

The content of a text literal can be read piece by piece. Reading goes through four stages, and each of them
treats what follows a piece as if it stood alone, with its errors counted from further back
(`scalars_append`, `unescape_append`, `narrow_append`, `Utf8.decode_encode_append`). Only an octal escape may
go on into the next piece, so that must not start with an octal digit (`decode_joined`).

The stages count in different units. A surrogate is found by its index among the code points of the content, a
bad escape by its byte there, and the errors of the two later stages are counted in bytes of the text that the
first piece stands for. These are as many as the stage before has given, since decoding is the inverse of
encoding (`Utf8.encode_of_decode`).
-/
namespace DeriveKit

open DeriveKit.Text

namespace Utf8

/-! ## Decoded bytes -/

theorem encode_append (as bs : List Char) : encode (as ++ bs) = encode as ++ encode bs :=
  List.flatMap_append

theorem toNat_ofNat {n : Nat} (h : n < 0xD800 ∨ 0xDFFF < n ∧ n < 0x110000) : (Char.ofNat n).toNat = n := by
  rw [Char.ofNat, dif_pos h]
  rfl

theorem isContinuation_iff {b : Nat} : isContinuation b = true ↔ 0x80 ≤ b ∧ b < 0xC0 := by
  simp [isContinuation]

section Encode

variable {a b c d n : Nat}

theorem encodeChar_one (ha : a < 0x80) : encodeChar (Char.ofNat a) = [a] := by
  rw [encodeChar, toNat_ofNat (by omega), if_pos ha]

theorem encodeChar_two (ha : 0xC2 ≤ a ∧ a < 0xE0) (hb : 0x80 ≤ b ∧ b < 0xC0)
    (hn : (a - 0xC0) * 0x40 + (b - 0x80) = n) : encodeChar (Char.ofNat n) = [a, b] := by
  rw [encodeChar, toNat_ofNat (by omega), if_neg (by omega), if_pos (by omega)]
  simp only [List.cons.injEq, and_true]
  omega

theorem encodeChar_three (ha : 0xE0 ≤ a ∧ a < 0xF0) (hb : 0x80 ≤ b ∧ b < 0xC0) (hc : 0x80 ≤ c ∧ c < 0xC0)
    (hn : (a - 0xE0) * 0x1000 + (b - 0x80) * 0x40 + (c - 0x80) = n) (hlow : 0x800 ≤ n)
    (hsurrogate : n < 0xD800 ∨ 0xE000 ≤ n) : encodeChar (Char.ofNat n) = [a, b, c] := by
  rw [encodeChar, toNat_ofNat (by omega), if_neg (by omega), if_neg (by omega), if_pos (by omega)]
  simp only [List.cons.injEq, and_true]
  omega

theorem encodeChar_four (ha : 0xF0 ≤ a ∧ a < 0xF8) (hb : 0x80 ≤ b ∧ b < 0xC0) (hc : 0x80 ≤ c ∧ c < 0xC0)
    (hd : 0x80 ≤ d ∧ d < 0xC0)
    (hn : (a - 0xF0) * 0x40000 + (b - 0x80) * 0x1000 + (c - 0x80) * 0x40 + (d - 0x80) = n)
    (hlow : 0x10000 ≤ n) (hhigh : n < 0x110000) : encodeChar (Char.ofNat n) = [a, b, c, d] := by
  rw [encodeChar, toNat_ofNat (by omega), if_neg (by omega), if_neg (by omega), if_neg (by omega)]
  simp only [List.cons.injEq, and_true]
  omega

end Encode

/-- A character that was decoded in front of others. -/
theorem encode_of_resume {n k : Nat} {front rest : List Nat} {cs : List Char}
    (hchar : encodeChar (Char.ofNat n) = front) (ih : ∀ {cs}, decode rest = .ok cs → encode cs = rest)
    (h : resume [Char.ofNat n] k (decode rest) = .ok cs) : encode cs = front ++ rest := by
  obtain ⟨cs, hrest, rfl⟩ := ok_of_resume h
  rw [encode, List.flatMap_append, List.flatMap_singleton, hchar]
  exact congrArg _ (ih hrest)

/-- What was decoded encodes as the bytes it came from. -/
theorem encode_of_decode {bytes : List Nat} {cs : List Char} (h : decode bytes = .ok cs) : encode cs = bytes := by
  fun_induction decode bytes generalizing cs with
  | case1 =>
    cases h
    rfl
  | case2 a rest ha ih => exact encode_of_resume (encodeChar_one ha) ih h
  | case3 a _ b rest hguard ih =>
    simp only [Bool.and_eq_true, decide_eq_true_eq, isContinuation_iff] at hguard
    exact encode_of_resume (encodeChar_two hguard.1 hguard.2 rfl) ih h
  | case4 a _ b _ c rest n hguard =>
    rename_i ih
    simp only [Bool.and_eq_true, decide_eq_true_eq, isContinuation_iff, Bool.not_eq_true',
      Bool.and_eq_false_iff, decide_eq_false_iff_not, Nat.not_le, Nat.not_lt] at hguard
    obtain ⟨⟨⟨⟨ha, hb⟩, hc⟩, hlow⟩, hsurrogate⟩ := hguard
    exact encode_of_resume (encodeChar_three ha hb hc rfl hlow hsurrogate) ih h
  | case5 a _ b _ c _ _ d rest n hguard =>
    rename_i ih
    simp only [Bool.and_eq_true, decide_eq_true_eq, isContinuation_iff] at hguard
    obtain ⟨⟨⟨⟨⟨ha, hb⟩, hc⟩, hd⟩, hlow⟩, hhigh⟩ := hguard
    exact encode_of_resume (encodeChar_four ha hb hc hd rfl hlow hhigh) ih h
  | case6 | case7 | case8 | case9 => cases h

end Utf8

namespace Literal

variable {named : List Char → Option Char}

/-! ## Code points -/

theorem eq_of_scalars {content : List CodePoint} {cs : List Char} (h : scalars content = .ok cs) :
    content = cs.map .char := by
  induction content generalizing cs with
  | nil =>
    cases h
    rfl
  | cons p content ih =>
    cases p with
    | surrogate n => cases h
    | char c =>
      have hresume : resume [c] 1 (scalars content) = .ok cs := h
      obtain ⟨cs, hcs, rfl⟩ := ok_of_resume hresume
      rw [ih hcs]
      rfl

theorem scalars_append (cs : List Char) (more : List CodePoint) :
    scalars (cs.map .char ++ more) = resume cs cs.length (scalars more) := by
  induction cs with
  | nil => exact (resume_nil _).symm
  | cons c cs ih =>
    have hstep : scalars (.char c :: (cs.map .char ++ more)) =
        resume [c] 1 (scalars (cs.map .char ++ more)) := rfl
    rw [List.map_cons, List.cons_append, hstep, ih, resume_resume, Nat.add_comm]
    rfl

/-! ## Escapes -/

theorem takeHex?_append {count acc n : Nat} {cs : List Char} (h : takeHex? count acc cs = some n)
    (more : List Char) : takeHex? count acc (cs ++ more) = some n ∧ count ≤ cs.length := by
  induction count generalizing acc cs with
  | zero => exact ⟨h, Nat.zero_le _⟩
  | succ count ih =>
    cases cs with
    | nil => cases h
    | cons c cs =>
      rw [takeHex?] at h
      rw [List.cons_append, takeHex?]
      cases hc : hexValue? c with
      | none => simp [hc] at h
      | some d =>
        rw [hc] at h
        obtain ⟨hmore, hlength⟩ := ih h
        exact ⟨hmore, Nat.succ_le_succ hlength⟩

theorem octalDigits_append (cs : List Char) {more : List Char} (hmore : ∀ c ∈ more.head?, isOctal c = false) :
    octalDigits (cs ++ more) = octalDigits cs := by
  unfold octalDigits
  generalize 3 = n
  induction cs generalizing n with
  | nil =>
    cases more with
    | nil => rfl
    | cons c more => cases n <;> simp [hmore c rfl]
  | cons c cs ih => cases n <;> simp [List.takeWhile_cons, ih]

/-- A name that is closed is not changed by what follows. -/
theorem bracedName?_append {cs name : List Char} (h : bracedName? cs = some name) (more : List Char) :
    bracedName? (cs ++ more) = some name ∧ name.length + 2 ≤ cs.length := by
  unfold bracedName? at h
  split at h
  next rest =>
    dsimp only at h
    split at h
    · cases h
    next hclosed =>
      cases h
      rw [Bool.or_eq_true, not_or, decide_eq_true_eq] at hclosed
      have hlt : (rest.takeWhile (· != '\x7d')).length < rest.length :=
        Nat.lt_of_le_of_ne (List.takeWhile_sublist _).length_le hclosed.2
      have hname : (rest ++ more).takeWhile (· != '\x7d') = rest.takeWhile (· != '\x7d') := by
        rw [List.takeWhile_append, if_neg hclosed.2]
      have hmore : (rest.takeWhile (· != '\x7d')).length ≠ (rest ++ more).length := by
        rw [List.length_append]
        omega
      refine ⟨?_, Nat.succ_le_succ hlt⟩
      simp only [List.cons_append, bracedName?, hname]
      rw [if_neg]
      rw [Bool.or_eq_true, not_or, decide_eq_true_eq]
      exact ⟨hclosed.1, hmore⟩
  next => cases h

/-- An escape that is complete is not changed by what follows, unless an octal digit does. -/
theorem read?_append {cs more : List Char} {e : Escape} (h : Escape.read? named cs = some e)
    (hmore : ∀ c ∈ more.head?, isOctal c = false) :
    Escape.read? named (cs ++ more) = some e ∧ e.length ≤ cs.length := by
  revert h
  -- Only digits can go on in what follows. Those of base sixteen are counted and a name has its brace, but those
  -- of base eight are as many as there are.
  fun_cases Escape.read? named cs with
  | case1 | case8 | case9 | case11 => rintro ⟨⟩
  | case2 c rest n hsingle =>
    rintro ⟨⟩
    simp [Escape.read?, hsingle]
  | case3 c rest hsingle hoctal =>
    rintro ⟨⟩
    have hdigits := octalDigits_append (c :: rest) hmore
    rw [List.cons_append] at hdigits
    refine ⟨by simp [Escape.read?, hsingle, hoctal, hdigits], ?_⟩
    exact ((List.takeWhile_sublist _).trans (List.take_sublist _ _)).length_le
  | case4 rest hsingle hoctal =>
    rintro ⟨⟩
    simp [Escape.read?, hsingle, hoctal]
  | case5 rest hsingle hoctal | case6 rest hsingle hoctal =>
    intro h
    obtain ⟨n, hn, rfl⟩ := Option.map_eq_some_iff.1 h
    obtain ⟨hhex, hlength⟩ := takeHex?_append hn more
    simp [Escape.read?, hsingle, hoctal, hhex, hlength]
  | case7 rest n hn hlt hsingle hoctal =>
    rintro ⟨⟩
    obtain ⟨hhex, hlength⟩ := takeHex?_append hn more
    simp [Escape.read?, hsingle, hoctal, hhex, hlt, hlength]
  | case10 rest name hname hsingle hoctal =>
    intro h
    obtain ⟨c, hc, rfl⟩ := Option.map_eq_some_iff.1 h
    obtain ⟨hbraced, hlength⟩ := bracedName?_append hname more
    simp [Escape.read?, hsingle, hoctal, hbraced, hc, hlength]
  | case12 c rest hsingle hoctal hfeed hx hu hU hN =>
    rintro ⟨⟩
    simp [Escape.read?, hsingle, hoctal, hfeed, hx, hu, hU, hN]

/-- Escapes are resolved piece by piece. -/
theorem unescape_append {a b : List Char} {codes : List Nat} (ha : unescape named a = .ok codes)
    (hb : ∀ c ∈ b.head?, isOctal c = false) :
    unescape named (a ++ b) = resume codes (Utf8.encode a).length (unescape named b) := by
  induction hlen : a.length using Nat.strongRecOn generalizing a codes with
  | _ n ih =>
  cases a with
  | nil =>
    cases ha
    exact (resume_nil _).symm
  | cons c a =>
    by_cases hc : c = '\\'
    · subst hc
      cases hread : Escape.read? named a with
      | none => simp [unescape, unescapeAfter, hread] at ha
      | some e =>
        obtain ⟨hmore, hle⟩ := read?_append hread hb
        obtain ⟨word, rest, rfl, hword⟩ : ∃ word rest, a = word ++ rest ∧ e.length = word.length :=
          ⟨a.take e.length, a.drop e.length, (List.take_append_drop ..).symm, (List.length_take_of_le hle).symm⟩
        rw [unescape_escape hread hword] at ha
        obtain ⟨codes, hrest, rfl⟩ := ok_of_resume ha
        rw [List.append_assoc] at hmore
        rw [List.cons_append, List.append_assoc, unescape_escape hmore hword,
          ih rest.length (by simp at hlen; omega) hrest rfl, resume_resume, ← List.length_append,
          ← Utf8.encode_append, List.cons_append]
    · rw [unescape_plain hc] at ha
      obtain ⟨codes, hrest, rfl⟩ := ok_of_resume ha
      rw [List.cons_append, unescape_plain hc, ih a.length (by simp at hlen; omega) hrest rfl, resume_resume,
        ← List.length_append]
      rfl

/-! ## Bytes -/

theorem of_narrow {codes bytes : List Nat} (h : narrow codes = .ok bytes) :
    bytes = codes ∧ ∀ n ∈ codes, n < 0x100 := by
  induction codes generalizing bytes with
  | nil =>
    cases h
    exact ⟨rfl, by simp⟩
  | cons n codes ih =>
    rw [narrow] at h
    split at h
    next hn =>
      have hresume : resume [n] 1 (narrow codes) = .ok bytes := h
      obtain ⟨bytes, hbytes, rfl⟩ := ok_of_resume hresume
      obtain ⟨rfl, hcodes⟩ := ih hbytes
      exact ⟨rfl, List.forall_mem_cons.2 ⟨hn, hcodes⟩⟩
    next => cases h

theorem narrow_append {codes : List Nat} (h : ∀ n ∈ codes, n < 0x100) (more : List Nat) :
    narrow (codes ++ more) = resume codes codes.length (narrow more) := by
  induction codes with
  | nil => exact (resume_nil _).symm
  | cons n codes ih =>
    obtain ⟨hn, hcodes⟩ := List.forall_mem_cons.1 h
    have hstep : narrow (n :: (codes ++ more)) = resume [n] 1 (narrow (codes ++ more)) := by
      rw [narrow, if_pos hn]
      rfl
    rw [List.cons_append, hstep, ih hcodes, resume_resume, Nat.add_comm]
    rfl

/-! ## Four stages -/

/-- How reading a content ends, stage by stage. -/
inductive Outcome (named : List Char → Option Char) : List CodePoint → Except Error (List Char) → Prop where
  | surrogate {content : List CodePoint} {n : Nat} (h : scalars content = .error n) :
      Outcome named content (.error (.surrogate n))
  | escape {cs : List Char} {n : Nat} (h : unescape named cs = .error n) :
      Outcome named (cs.map .char) (.error (.escape n))
  | wide {cs : List Char} {codes : List Nat} {n : Nat} (hcodes : unescape named cs = .ok codes)
      (h : narrow codes = .error n) : Outcome named (cs.map .char) (.error (.wide n))
  | utf8 {cs : List Char} {bytes : List Nat} {n : Nat} (hbytes : unescape named cs = .ok bytes)
      (hlt : ∀ b ∈ bytes, b < 0x100) (h : Utf8.decode bytes = .error n) :
      Outcome named (cs.map .char) (.error (.utf8 n))
  | text {cs s : List Char} (h : unescape named cs = .ok (Utf8.encode s)) :
      Outcome named (cs.map .char) (.ok s)

theorem outcome_of_decodeContent (content : List CodePoint) :
    Outcome named content (decodeContent named content) := by
  rw [decodeContent]
  cases hcs : scalars content with
  | error n => exact .surrogate hcs
  | ok cs =>
    rw [eq_of_scalars hcs]
    show Outcome named _ ((unescape named cs).mapError Error.escape >>= _)
    cases hcodes : unescape named cs with
    | error n => exact .escape hcodes
    | ok codes =>
      show Outcome named _ ((narrow codes).mapError Error.wide >>= _)
      cases hbytes : narrow codes with
      | error n => exact .wide hcodes hbytes
      | ok bytes =>
        obtain ⟨rfl, hlt⟩ := of_narrow hbytes
        show Outcome named _ ((Utf8.decode bytes).mapError Error.utf8)
        cases hs : Utf8.decode bytes with
        | error n => exact .utf8 hcodes hlt hs
        | ok s =>
          refine .text ?_
          rw [hcodes, Utf8.encode_of_decode hs]

theorem decodeContent_of_outcome {content : List CodePoint} {r : Except Error (List Char)}
    (h : Outcome named content r) : decodeContent named content = r := by
  cases h with
  | surrogate h =>
    rw [decodeContent, h]
    rfl
  | escape h =>
    rw [decodeContent, scalars_char]
    show (unescape named _).mapError Error.escape >>= _ = _
    rw [h]
    rfl
  | wide hcodes h =>
    rw [decodeContent, scalars_char]
    show (unescape named _).mapError Error.escape >>= _ = _
    rw [hcodes]
    show (narrow _).mapError Error.wide >>= _ = _
    rw [h]
    rfl
  | utf8 hbytes hlt h =>
    rw [decodeContent, scalars_char]
    show (unescape named _).mapError Error.escape >>= _ = _
    rw [hbytes]
    show (narrow _).mapError Error.wide >>= _ = _
    rw [narrow_of_lt hlt]
    show (Utf8.decode _).mapError Error.utf8 = _
    rw [h]
    rfl
  | text h => exact decodeContent_of_unescape h

theorem decodeContent_eq_iff {content : List CodePoint} {r : Except Error (List Char)} :
    decodeContent named content = r ↔ Outcome named content r := by
  constructor
  · rintro rfl
    exact outcome_of_decodeContent content
  · exact decodeContent_of_outcome

/-- A content in two pieces, of which the first stands for `s` and the second does not go on with an octal
escape. The whole stands for the texts of both, or has the error of the second piece, counted from further on:
a surrogate by the code points of the first piece, a bad escape by its bytes, any other error by the bytes
of `s`. -/
theorem decode_joined (named : List Char → Option Char) {a b : List CodePoint} {s : List Char}
    (ha : decodeContent named a = .ok s) (hb : ∀ c, b.head? = some (.char c) → ¬ ('0' ≤ c ∧ c ≤ '7')) :
    ∃ cs : List Char, a = cs.map .char ∧
    (∀ t, decodeContent named b = .ok t → decodeContent named (a ++ b) = .ok (s ++ t)) ∧
    (∀ n, decodeContent named b = .error (.surrogate n) →
      decodeContent named (a ++ b) = .error (.surrogate (n + a.length))) ∧
    (∀ n, decodeContent named b = .error (.escape n) →
      decodeContent named (a ++ b) = .error (.escape (n + (String.ofList cs).utf8ByteSize))) ∧
    (∀ n, decodeContent named b = .error (.wide n) →
      decodeContent named (a ++ b) = .error (.wide (n + (String.ofList s).utf8ByteSize))) ∧
    (∀ n, decodeContent named b = .error (.utf8 n) →
      decodeContent named (a ++ b) = .error (.utf8 (n + (String.ofList s).utf8ByteSize))) ∧
    ∀ n, decodeContent named b ≠ .error (.tooManyDigits n) := by
  simp only [decodeContent_eq_iff, ne_eq, ← Utf8.length_encode] at ha ⊢
  rcases ha with _ | _ | _ | _ | @⟨cs, _, ha⟩
  have hjoined (ds : List Char) (hds : ∀ c, (ds.map CodePoint.char).head? = some (.char c) →
      ¬ ('0' ≤ c ∧ c ≤ '7')) :
      unescape named (cs ++ ds) = resume (Utf8.encode s) (Utf8.encode cs).length (unescape named ds) := by
    refine unescape_append ha fun c hc => ?_
    have hhead : (ds.map CodePoint.char).head? = some (.char c) := by simp [Option.mem_def.1 hc]
    simpa [isOctal] using hds c hhead
  refine ⟨cs, rfl, ?_, ?_, ?_, ?_, ?_, ?_⟩
  · rintro t (_ | _ | _ | _ | h)
    rw [← List.map_append]
    refine .text ?_
    rw [hjoined _ hb, h, resume_ok, Utf8.encode_append]
  · rintro n (h | _ | _ | _ | _)
    refine .surrogate ?_
    rw [scalars_append, h, resume_error, List.length_map]
  · rintro n (_ | h | _ | _ | _)
    rw [← List.map_append]
    refine .escape ?_
    rw [hjoined _ hb, h, resume_error]
  · rintro n (_ | _ | ⟨hcodes, h⟩ | _ | _)
    rw [← List.map_append]
    refine .wide ((hjoined _ hb).trans (congrArg _ hcodes)) ?_
    rw [narrow_append (Utf8.encode_lt _), h, resume_error]
  · rintro n (_ | _ | _ | ⟨hbytes, hlt, h⟩ | _)
    rw [← List.map_append]
    refine .utf8 ((hjoined _ hb).trans (congrArg _ hbytes)) ?_ ?_
    · exact List.forall_mem_append.2 ⟨Utf8.encode_lt _, hlt⟩
    · rw [Utf8.decode_encode_append, h, resume_error]
  · rintro n ⟨⟩

/-- A piece that ends in an octal escape of one digit, before pieces that start with a digit of another base:
one is read, and the others fail in each of the four stages. -/
theorem decode_joined_octal :
    let named : List Char → Option Char := fun name => if name = "DIGIT NINE".toList then some '9' else none
    let a : List CodePoint := "\\xC3\\xA9\\1".toList.map .char
    let surrogate : List CodePoint := [.char '8', .surrogate 0]
    decodeContent named a = .ok "é\x01".toList ∧
    decodeContent named (a ++ "\\N\x7bDIGIT NINE\x7d\\t".toList.map .char) =
      .ok ("é\x01".toList ++ "9\t".toList) ∧
    decodeContent named (a ++ surrogate) = .error (.surrogate (1 + 10)) ∧
    decodeContent named (a ++ "8€\\x4".toList.map .char) = .error (.escape (4 + 10)) ∧
    decodeContent named (a ++ "8€\\400".toList.map .char) = .error (.wide (4 + 3)) ∧
    decodeContent named (a ++ "8\\xE2\\x82".toList.map .char) = .error (.utf8 (1 + 3)) := by
  intro named a surrogate
  have ha : decodeContent named a = .ok "é\x01".toList := decodeContent_of_unescape rfl
  have hread : decodeContent named ("\\N\x7bDIGIT NINE\x7d\\t".toList.map .char) = .ok "9\t".toList :=
    decodeContent_of_unescape rfl
  have hsurrogate : decodeContent named surrogate = .error (.surrogate 1) := rfl
  have hescape : decodeContent named ("8€\\x4".toList.map .char) = .error (.escape 4) :=
    decodeContent_of_outcome (.escape rfl)
  have hcodes : unescape named "8€\\400".toList = .ok [0x38, 0xE2, 0x82, 0xAC, 0x100] := rfl
  have hbytes : unescape named "8\\xE2\\x82".toList = .ok [0x38, 0xE2, 0x82] := rfl
  have hwide : decodeContent named ("8€\\400".toList.map .char) = .error (.wide 4) :=
    decodeContent_of_outcome (.wide hcodes rfl)
  have hutf8 : decodeContent named ("8\\xE2\\x82".toList.map .char) = .error (.utf8 1) :=
    decodeContent_of_outcome (.utf8 hbytes (by decide) rfl)
  have hcontent : ∀ cs : List Char, a = cs.map .char → (String.ofList cs).utf8ByteSize = 10 := by
    intro cs hcs
    rw [← (List.map_inj_right fun _ _ => CodePoint.char.inj).1 hcs]
    decide +kernel
  have htext : (String.ofList "é\x01".toList).utf8ByteSize = 3 := by decide +kernel
  obtain ⟨-, -, hok, -⟩ := decode_joined named ha (b := "\\N\x7bDIGIT NINE\x7d\\t".toList.map .char) (by simp)
  obtain ⟨-, -, -, hfirst, -⟩ := decode_joined named ha (b := surrogate) (by simp [surrogate])
  obtain ⟨cs, hcs, -, -, hsecond, -⟩ := decode_joined named ha (b := "8€\\x4".toList.map .char) (by simp)
  obtain ⟨-, -, -, -, -, hthird, -⟩ := decode_joined named ha (b := "8€\\400".toList.map .char) (by simp)
  obtain ⟨-, -, -, -, -, -, hfourth, -⟩ := decode_joined named ha (b := "8\\xE2\\x82".toList.map .char) (by simp)
  rw [htext] at hthird hfourth
  rw [hcontent cs hcs] at hsecond
  exact ⟨ha, hok _ hread, hfirst _ hsurrogate, hsecond _ hescape, hthird _ hwide, hfourth _ hutf8⟩

/-- A surrogate is not found by the bytes before it: behind a character of two bytes its index is one. -/
theorem surrogate_behind_two_bytes :
    let named : List Char → Option Char := fun _ => none
    let a : List CodePoint := [.char 'é']
    let b : List CodePoint := [.surrogate 0]
    decodeContent named a = .ok ['é'] ∧ decodeContent named b = .error (.surrogate 0) ∧
      (String.ofList ['é']).utf8ByteSize = 2 ∧ decodeContent named (a ++ b) = .error (.surrogate 1) := by
  refine ⟨rfl, rfl, ?_, rfl⟩
  decide +kernel

end Literal

end DeriveKit
