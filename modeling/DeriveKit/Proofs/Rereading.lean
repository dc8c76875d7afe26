import DeriveKit.Proofs.ReadMetadata

/-!
# Metadata read again

Metadata that was read is written and read a second time. The second reading gives metadata of the same
shape exactly if every number in it is of moderate size (`reread_alike_iff`). If all are, every literal is
written as a word for a literal of its kind. If the text is read at all, the words for numbers in it are the
numbers of what was read, and they are fewer than the numbers that were written if one of those is too large
or too small.
-/
namespace DeriveKit

open DeriveKit.Grammar
open DeriveKit.Lexed (Lexes Passes Boundary)
open DeriveKit.Token (Kind)

/-! ## Shapes -/

namespace Entry

mutual

/-- Same form, same path and same kind of literal, at any depth. -/
def alike : Entry → Entry → Bool
  | path p, path p' => p == p'
  | list p es, list p' es' => p == p' && alikeAll es es'
  | literal v, literal v' => v.kind == v'.kind
  | keyValue p v, keyValue p' v' => p == p' && v.kind == v'.kind
  | _, _ => false

def alikeAll : List Entry → List Entry → Bool
  | [], [] => true
  | e :: es, e' :: es' => e.alike e' && alikeAll es es'
  | _, _ => false

end

end Entry

/-- Same form, and alike in all entries. -/
def Meta.alike : Meta → Meta → Bool
  | marker, marker => true
  | list es, list es' => Entry.alikeAll es es'
  | keyValue v, keyValue v' => v.kind == v'.kind
  | _, _ => false

namespace Entry

mutual

theorem kinds_of_alike : ∀ {e f : Entry}, e.alike f = true →
    e.literals.map Literal.kind = f.literals.map Literal.kind
  | path _, f, h => by
    cases f <;> first | rfl | cases h
  | list _ es, f, h => by
    cases f with
    | list _ fs =>
      rw [alike, Bool.and_eq_true] at h
      exact kinds_of_alikeAll h.2
    | _ => cases h
  | literal v, f, h => by
    cases f with
    | literal w =>
      rw [alike, beq_iff_eq] at h
      simp [literals, h]
    | _ => cases h
  | keyValue _ v, f, h => by
    cases f with
    | keyValue _ w =>
      rw [alike, Bool.and_eq_true, beq_iff_eq, beq_iff_eq] at h
      simp [literals, h.2]
    | _ => cases h

/-- Entries that are alike have literals of the same kinds. -/
theorem kinds_of_alikeAll : ∀ {es fs : List Entry}, alikeAll es fs = true →
    (literalsAll es).map Literal.kind = (literalsAll fs).map Literal.kind
  | [], fs, h => by
    cases fs with
    | nil => rfl
    | cons => cases h
  | e :: es, fs, h => by
    cases fs with
    | nil => cases h
    | cons f fs =>
      rw [alikeAll, Bool.and_eq_true] at h
      rw [literalsAll, literalsAll, List.map_append, List.map_append, kinds_of_alike h.1,
        kinds_of_alikeAll h.2]

end

end Entry

theorem Meta.kinds_of_alike {m n : Meta} (h : m.alike n = true) :
    m.literals.map Literal.kind = n.literals.map Literal.kind := by
  cases m <;> cases n <;> try cases h
  case list => exact Entry.kinds_of_alikeAll h
  case keyValue =>
    rw [alike, beq_iff_eq] at h
    simp [literals, h]
  case marker => rfl

/-! ## Metadata that reads as metadata alike -/

/-- Whether a literal is a number that is too large or too small to be written without an exponent. -/
def Literal.isExtreme : Literal → Bool
  | real x => !decide x.IsModerate
  | _ => false

section Reading

variable {named : List Char → Option Char}

theorem Literal.exists_readsAs {v : Literal} (h : v.Readable) (hv : v.isExtreme = false) :
    ∃ w, v.ReadsAs (.plain named) w ∧ v.kind = w.kind := by
  cases v with
  | real x =>
    obtain ⟨y, hy⟩ := readsAs_real _ h (by simpa [isExtreme] using hv)
    exact ⟨.real y, hy, rfl⟩
  | text s => exact ⟨_, readsAs_of_isPlain h, rfl⟩
  | int n => exact ⟨_, readsAs_of_isPlain h, rfl⟩
  | flag b => exact ⟨_, readsAs_of_isPlain h, rfl⟩

mutual

theorem Entry.exists_readsAs : ∀ {e : Entry}, (∀ p ∈ e.paths, p.isPlain = true) →
    (∀ v ∈ e.literals, v.Readable ∧ v.isExtreme = false) →
    ∃ f, e.ReadsAs (.plain named) f ∧ e.alike f = true
  | .path p, hp, _ => ⟨.path p, .path (hp p List.mem_cons_self), by simp [alike]⟩
  | .list p es, hp, hv => by
    obtain ⟨hp, hps⟩ := List.forall_mem_cons.1 hp
    obtain ⟨fs, hreads, halike⟩ := exists_readAllAs hps hv
    exact ⟨.list p fs, .list hp hreads, by simp [alike, halike]⟩
  | .literal v, _, hv => by
    obtain ⟨hread, hextreme⟩ := hv v List.mem_cons_self
    obtain ⟨w, hw, hkind⟩ := Literal.exists_readsAs hread hextreme
    exact ⟨.literal w, .literal hw, by simp [alike, hkind]⟩
  | .keyValue p v, hp, hv => by
    obtain ⟨hread, hextreme⟩ := hv v List.mem_cons_self
    obtain ⟨w, hw, hkind⟩ := Literal.exists_readsAs hread hextreme
    exact ⟨.keyValue p w, .keyValue (hp p List.mem_cons_self) hw, by simp [alike, hkind]⟩

theorem Entry.exists_readAllAs : ∀ {es : List Entry}, (∀ p ∈ pathsAll es, p.isPlain = true) →
    (∀ v ∈ literalsAll es, v.Readable ∧ v.isExtreme = false) →
    ∃ fs, ReadAllAs (.plain named) es fs ∧ alikeAll es fs = true
  | [], _, _ => ⟨[], .nil, rfl⟩
  | e :: es, hp, hv => by
    obtain ⟨hp, hps⟩ := List.forall_mem_append.1 hp
    obtain ⟨hv, hvs⟩ := List.forall_mem_append.1 hv
    obtain ⟨f, hreads, halike⟩ := exists_readsAs hp hv
    obtain ⟨fs, hreadsAll, halikeAll⟩ := exists_readAllAs hps hvs
    exact ⟨f :: fs, .cons hreads hreadsAll, by rw [alikeAll, halike, halikeAll]; rfl⟩

end

theorem Meta.exists_readsAs {m : Meta} (hp : ∀ p ∈ m.paths, p.isPlain = true)
    (hv : ∀ v ∈ m.literals, v.Readable ∧ v.isExtreme = false) :
    ∃ n, m.ReadsAs (.plain named) n ∧ m.alike n = true := by
  cases m with
  | marker => exact ⟨.marker, .marker, rfl⟩
  | list es =>
    obtain ⟨fs, hreads, halike⟩ := Entry.exists_readAllAs hp hv
    exact ⟨.list fs, .list hreads, halike⟩
  | keyValue v =>
    obtain ⟨hread, hextreme⟩ := hv v List.mem_cons_self
    obtain ⟨w, hw, hkind⟩ := Literal.exists_readsAs hread hextreme
    exact ⟨.keyValue w, .keyValue hw, by simp [alike, hkind]⟩

end Reading

/-! ## The words of written metadata -/

/-- The tokens have a word for every number that is not extreme, and no other words for numbers. -/
def Counts (vs : List Literal) (ts : List Token) : Prop :=
  ts.countP (·.kind == .float) + vs.countP Literal.isExtreme = vs.countP (·.kind == .real)

theorem Counts.append {vs ws : List Literal} {ts us : List Token} (h : Counts vs ts) (h' : Counts ws us) :
    Counts (vs ++ ws) (ts ++ us) := by
  simp only [Counts, List.countP_append] at *
  omega

theorem counts_nil {ts : List Token} (h : ∀ t ∈ ts, t.kind ≠ .float) : Counts [] ts := by
  simpa [Counts] using h

theorem passes_literal {v : Literal} {rest : List Char} (h : v.Readable) (hrest : Boundary rest) :
    Passes v.render.toList rest (Counts [v]) := by
  cases hv : v.isExtreme with
  | false =>
    -- Any names will do, since no name is written.
    obtain ⟨w, hw, hkind⟩ := @Literal.exists_readsAs (fun _ => none) v h hv
    refine ((hw.lexes rest hrest).mono ?_).passes
    rintro _ ⟨t, rfl, -, hitem⟩
    have hgives := Metadata.gives_leafItem (.plain fun _ => none) t
    rw [hitem] at hgives
    cases hgives with
    | literal hw => simp [Counts, List.countP_cons, hw.float_iff, hkind, hv]
  | true =>
    cases v with
    | real x =>
      refine (passes_real h (by simpa [Literal.isExtreme] using hv) hrest).mono fun ts hts => ?_
      simpa [Counts, hv, Literal.kind] using hts
    | _ => cases hv

theorem Literal.Readable.unspaced {v : Literal} (h : v.Readable) (rest : List Char) :
    Unspaced (v.render.toList ++ rest) := by
  cases v with
  | real x => exact unspaced_real h rest
  | text s => exact unspaced_literal h rest
  | int n => exact unspaced_literal h rest
  | flag b => exact unspaced_literal h rest

theorem passes_path {p : Path} {rest : List Char} (hp : p.isPlain = true) (hrest : Boundary rest) :
    Passes p.render.toList rest (Counts []) := by
  refine ((lexes_path hp hrest).mono fun ts hts => counts_nil fun t ht => ?_).passes
  rcases Metadata.kind_of_path hts t ht with hkind | hkind <;> simp [hkind]

theorem counts_single {kind : Kind} {word : List Char} {ts : List Token} (h : Lexed.Single kind word ts)
    (hkind : kind ≠ .float) : Counts [] ts := by
  obtain ⟨t, rfl, rfl, -⟩ := h
  exact counts_nil (List.forall_mem_singleton.2 hkind)

theorem Passes.counts_append {text text' rest : List Char} {vs ws : List Literal}
    (h : Passes text (text' ++ rest) (Counts vs)) (h' : Passes text' rest (Counts ws)) :
    Passes (text ++ text') rest (Counts (vs ++ ws)) := by
  refine (h.append h').mono ?_
  rintro _ ⟨us, us', rfl, hus, hus'⟩
  exact hus.append hus'

theorem passes_mark (c : Char) {kind : Kind} (h : Lexed.markKind? c = some kind) (hcolon : c ≠ ':')
    (hfloat : kind ≠ .float) (rest : List Char) : Passes [c] rest (Counts []) :=
  ((Lexed.lexes_mark c h hcolon rest).mono fun _ hts => counts_single hts hfloat).passes

theorem Passes.counts_parens {text rest : List Char} {vs : List Literal}
    (h : Passes text (')' :: rest) (Counts vs)) :
    Passes ("(".toList ++ (text ++ ")".toList)) rest (Counts vs) := by
  have hleft := passes_mark '(' rfl (by decide) (by decide) (text ++ ")".toList ++ rest)
  have hright := passes_mark ')' rfl (by decide) (by decide) rest
  have hall := Passes.counts_append hleft (Passes.counts_append h hright)
  rwa [List.nil_append, List.append_nil] at hall

/-- A value behind ` = `. -/
theorem passes_value {v : Literal} {rest : List Char} (h : v.Readable) (hrest : Boundary rest) :
    Passes (" = ".toList ++ v.render.toList) rest (Counts [v]) := by
  have hmark : Passes " = ".toList (v.render.toList ++ rest) (Counts []) :=
    ((lexes_equalsMark (h.unspaced rest)).mono fun _ hts => counts_single hts (by decide)).passes
  exact Passes.counts_append hmark (passes_literal h hrest)

theorem unspaced_readable {e : Entry} (hp : ∀ p ∈ e.paths, p.isPlain = true)
    (hv : ∀ v ∈ e.literals, v.Readable) (rest : List Char) : Unspaced (e.render.toList ++ rest) := by
  refine unspaced_entry ?_ ?_ rest
  · cases e with
    | path p | list p _ | keyValue p _ =>
      rintro _ ⟨⟩
      exact hp p List.mem_cons_self
    | literal v =>
      intro p hpath
      cases hpath
  · rintro v rest rfl
    exact (hv v List.mem_cons_self).unspaced rest

mutual

theorem passes_entry : ∀ (e : Entry) (rest : List Char), (∀ p ∈ e.paths, p.isPlain = true) →
    (∀ v ∈ e.literals, v.Readable) → Boundary rest → Passes e.render.toList rest (Counts e.literals)
  | .path p, rest, hp, _, hrest => passes_path (hp p List.mem_cons_self) hrest
  | .literal v, rest, _, hv, hrest => passes_literal (hv v List.mem_cons_self) hrest
  | .keyValue p v, rest, hp, hv, hrest => by
    rw [Entry.render, String.toList_append, String.toList_append, List.append_assoc]
    exact Passes.counts_append (passes_path (hp p List.mem_cons_self) (Lexed.boundary_cons (by decide)))
      (passes_value (hv v List.mem_cons_self) hrest)
  | .list p es, rest, hp, hv, _ => by
    obtain ⟨hp, hps⟩ := List.forall_mem_cons.1 hp
    rw [Entry.render, String.toList_append, String.toList_append, String.toList_append, List.append_assoc,
      List.append_assoc]
    exact Passes.counts_append (passes_path hp (Lexed.boundary_cons (by decide)))
      (Passes.counts_parens (passes_entries es _ hps hv (Lexed.boundary_cons (by decide))))

/-- If lexing gets through written entries, it finds a word for every number that is not extreme. -/
theorem passes_entries : ∀ (es : List Entry) (rest : List Char), (∀ p ∈ Entry.pathsAll es, p.isPlain = true) →
    (∀ v ∈ Entry.literalsAll es, v.Readable) → Boundary rest →
    Passes (Entry.renderAll es).toList rest (Counts (Entry.literalsAll es))
  | [], rest, _, _, _ => by
    refine (Lexed.Lexes.nil.mono ?_).passes
    rintro _ rfl
    rfl
  | [e], rest, hp, hv, hrest => by
    rw [Entry.literalsAll, Entry.literalsAll, List.append_nil] at *
    rw [Entry.pathsAll, Entry.pathsAll, List.append_nil] at hp
    rw [Entry.renderAll_singleton]
    exact passes_entry e rest hp hv hrest
  | e :: e' :: es, rest, hp, hv, hrest => by
    obtain ⟨hp, hps⟩ := List.forall_mem_append.1 hp
    obtain ⟨hv, hvs⟩ := List.forall_mem_append.1 hv
    have hmore := passes_entries (e' :: es) rest hps hvs hrest
    have hfirst := unspaced_readable (List.forall_mem_append.1 hps).1 (List.forall_mem_append.1 hvs).1
    have hcomma : Passes ", ".toList ((Entry.renderAll (e' :: es)).toList ++ rest) (Counts []) :=
      ((lexes_commaMark (unspaced_entries hfirst es rest)).mono
        fun _ hts => counts_single hts (by decide)).passes
    have htail := Passes.counts_append hcomma hmore
    rw [Entry.renderAll_cons_cons, String.toList_append, String.toList_append, List.append_assoc]
    exact Passes.counts_append (passes_entry e _ hp hv (Lexed.boundary_cons (by decide))) htail

end

theorem passes_meta {m : Meta} {rest : List Char} (hp : ∀ p ∈ m.paths, p.isPlain = true)
    (hv : ∀ v ∈ m.literals, v.Readable) (hrest : Boundary rest) :
    Passes m.render.toList rest (Counts m.literals) := by
  cases m with
  | marker =>
    refine (Lexed.Lexes.nil.mono ?_).passes
    rintro _ rfl
    rfl
  | list es =>
    rw [Meta.render, String.toList_append, String.toList_append, List.append_assoc]
    exact Passes.counts_parens (passes_entries es _ hp hv (Lexed.boundary_cons (by decide)))
  | keyValue v =>
    rw [Meta.render, String.toList_append]
    exact passes_value (hv v List.mem_cons_self) hrest

theorem passes_attribute {p : Path} {m : Meta} (hpath : p.isPlain = true)
    (hp : ∀ p ∈ m.paths, p.isPlain = true) (hv : ∀ v ∈ m.literals, v.Readable) (loc : Option Position) :
    Passes (Attribute.render ⟨p, .metadata m, loc⟩).toList [] (Counts m.literals) := by
  have hright := passes_mark ']' rfl (by decide) (by decide) []
  have hmeta := Passes.counts_append (passes_meta hp hv (Lexed.boundary_cons (by decide))) hright
  have hboundary : Boundary (m.render.toList ++ [']'] ++ []) := by simpa using boundary_meta m []
  have hbody := Passes.counts_append (passes_path hpath hboundary) hmeta
  have hleft := Passes.counts_append (passes_mark '[' rfl (by decide) (by decide) _) hbody
  have hall := Passes.counts_append (passes_mark '#' rfl (by decide) (by decide) _) hleft
  rw [Attribute.toList_render]
  simpa [Payload.render] using hall

theorem Meta.countP_real_of_alike {m n : Meta} (h : m.alike n = true) :
    m.literals.countP (·.kind == .real) = n.literals.countP (·.kind == .real) := by
  have hkinds := congrArg (List.countP (· == Literal.Kind.real)) (kinds_of_alike h)
  rwa [List.countP_map, List.countP_map] at hkinds

theorem Attribute.metadata_of_test {a : Attribute} {test : Meta → Bool}
    (h : (match a.payload with
      | .metadata m => test m
      | .verbatim _ => false) = true) : ∃ m, a.payload = .metadata m ∧ test m = true := by
  cases hpayload : a.payload with
  | metadata m =>
    rw [hpayload] at h
    exact ⟨m, rfl, h⟩
  | verbatim =>
    rw [hpayload] at h
    cases h

/-- An attribute with metadata that was read can be written. Read again, it is an attribute with the same
path and metadata alike if no number in it is extreme, and only then. -/
theorem reread_alike_iff (named : List Char → Option Char) (text : String) (a : Attribute) (m : Meta)
    (hread : Source.readAttribute (.plain named) text = .ok a) (hm : a.payload = .metadata m) :
    a.render? = some a.render ∧
    ((∃ b n, Source.readAttribute (.plain named) a.render = .ok b ∧ b.payload = .metadata n ∧
      b.path = a.path ∧ m.alike n = true) ↔ ∀ x, Literal.real x ∈ m.literals → x.IsModerate) := by
  obtain ⟨ts, hfrom⟩ := Source.exists_readFrom hread hm
  obtain ⟨p, payload, loc⟩ := a
  obtain rfl : payload = .metadata m := hm
  have hreadable := hfrom.readable
  have hwritable := Meta.isWritable_of_literals fun v hv => (hreadable v hv).isWritable
  refine ⟨if_pos hwritable, ?_⟩
  constructor
  · rintro ⟨b, n, hagain, hn, -, halike⟩ x hx
    obtain ⟨us, hus⟩ := Source.exists_readFrom hagain hn
    obtain ⟨vs, ws, rfl, hcounts, hend⟩ :=
      passes_attribute hfrom.plain.1 hfrom.plain.2 hreadable loc .start us (by simpa using hus.cut)
    obtain rfl : [] = ws := congrArg Lexed.tokens hend.scan_eq
    -- All numbers have words, so none is extreme.
    have hwords := hus.countP_float
    rw [List.append_nil, ← Meta.countP_real_of_alike halike] at hwords
    have hnone : m.literals.countP Literal.isExtreme = 0 := by
      rw [Counts, hwords] at hcounts
      omega
    simpa [Literal.isExtreme] using List.countP_eq_zero.1 hnone _ hx
  · intro hmoderate
    have hv : ∀ v ∈ m.literals, v.Readable ∧ v.isExtreme = false := by
      intro v hv
      refine ⟨hreadable v hv, ?_⟩
      cases v with
      | real x => simpa [Literal.isExtreme] using hmoderate x hv
      | _ => rfl
    obtain ⟨n, hreads, halike⟩ := Meta.exists_readsAs hfrom.plain.2 hv
    exact ⟨_, n, Source.readAttribute_render_of_readsAs hfrom.plain.1 hreads loc, rfl, rfl, halike⟩

/-- Numbers just inside the bounds, and literals of other kinds around them. -/
theorem reread_alike_iff_nested :
    let named : List Char → Option Char := fun name =>
      if name = "LATIN SMALL LETTER X".toList then some 'x' else none
    let text := "#[a(k = 0.0001, b(9999999999999998.0, \"\\N\x7bLATIN SMALL LETTER X\x7d\"), 7)]"
    ∃ a m, Source.readAttribute (.plain named) text = .ok a ∧ a.payload = .metadata m ∧
      a.render = "#[a(k = 0.0001, b(9999999999999998.0, \"x\"), 7)]" ∧ a.render? = some a.render ∧
      ∃ b n, Source.readAttribute (.plain named) a.render = .ok b ∧ b.payload = .metadata n ∧
        b.path = a.path ∧ m.alike n = true := by
  intro named text
  let small : Binary64 := .finite ⟨false, 7378697629483821, -66, by decide⟩
  let large : Binary64 := .finite ⟨false, 4999999999999999, 1, by decide⟩
  have htest : (Source.readAttribute (.plain named) text).toOption.any
      (fun a => a.render == "#[a(k = 0.0001, b(9999999999999998.0, \"x\"), 7)]" &&
        match a.payload with
        | .metadata m => m.literals == [.real small, .real large, .text "x", .int 7]
        | .verbatim _ => false) = true := by
    decide +kernel
  obtain ⟨a, hread, htest⟩ := ok_of_any htest
  rw [Bool.and_eq_true, beq_iff_eq] at htest
  obtain ⟨m, hm, hliterals⟩ := Attribute.metadata_of_test htest.2
  rw [beq_iff_eq] at hliterals
  obtain ⟨hrender, hagain⟩ := reread_alike_iff named text a m hread hm
  refine ⟨a, m, hread, hm, htest.1, hrender, hagain.2 ?_⟩
  rw [hliterals]
  intro x hx
  simp only [List.mem_cons, Literal.real.injEq, reduceCtorEq, List.not_mem_nil, or_false] at hx
  rcases hx with rfl | rfl
  · exact .inr ⟨by norm_num [Binary64.value], by norm_num [Binary64.value]⟩
  · exact .inr ⟨by norm_num [Binary64.value], by norm_num [Binary64.value]⟩

/-- A large number that was read is written with an exponent, and that text is not read. -/
theorem large_number_not_reread :
    let named : List Char → Option Char := fun _ => none
    ∃ a m, Source.readAttribute (.plain named) "#[a(10000000000000000.0)]" = .ok a ∧ a.payload = .metadata m ∧
      a.render = "#[a(1e+16)]" ∧ ∀ b, Source.readAttribute (.plain named) a.render ≠ .ok b := by
  intro named
  have htest : (Source.readAttribute (.plain named) "#[a(10000000000000000.0)]").toOption.any
      (fun a => a.render == "#[a(1e+16)]" &&
        match a.payload with
        | .metadata _ => true
        | .verbatim _ => false) = true := by
    decide +kernel
  have hnone : (Source.readAttribute (.plain named) "#[a(1e+16)]").toOption.isNone = true := by decide +kernel
  obtain ⟨a, hread, htest⟩ := ok_of_any htest
  rw [Bool.and_eq_true, beq_iff_eq] at htest
  obtain ⟨m, hm, -⟩ := Attribute.metadata_of_test htest.2
  refine ⟨a, m, hread, hm, htest.1, fun b hb => ?_⟩
  rw [← htest.1, hb] at hnone
  cases hnone

end DeriveKit
