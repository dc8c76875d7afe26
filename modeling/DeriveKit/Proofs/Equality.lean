import DeriveKit.Attribute

/-!
# Equality of entries

Entries are compared by form, path and literal, and literals by kind and value, where the sign of a
zero does not count and a NaN equals itself alone. Each entry equals itself, and it does not matter
which of two entries is compared with the other. So "holds an equal entry" behaves like membership.
-/
namespace DeriveKit

/-! ## Literals -/

theorem Binary64.same_refl (x : Binary64) : x.same x = true := by
  cases x <;> simp [same]

theorem Binary64.same_comm (x y : Binary64) : x.same y = y.same x := by
  cases x <;> cases y <;> simp only [same]
  case finite.finite x y =>
    -- With equal significands it does not matter whose is compared with zero.
    by_cases h : x.significand = y.significand
    · rw [h, BEq.comm (a := x.exponent), BEq.comm (a := x.negative)]
    · rw [beq_false_of_ne h, beq_false_of_ne (Ne.symm h)]
      rfl
  all_goals exact BEq.comm

theorem Literal.same_refl (v : Literal) : v.same v = true := by
  cases v <;> simp [same, Binary64.same_refl]

theorem Literal.same_comm (v w : Literal) : v.same w = w.same v := by
  cases v <;> cases w <;> simp only [same]
  case real.real x y => exact Binary64.same_comm x y
  all_goals exact BEq.comm

namespace Entry

/-! ## Entries -/

mutual
theorem same_refl (e : Entry) : e.same e = true := by
  cases e with
  | path p => simp [same]
  | list p es => simp [same, sameAll_refl es]
  | literal v => simp [same, Literal.same_refl]
  | keyValue p v => simp [same, Literal.same_refl]

theorem sameAll_refl (es : List Entry) : sameAll es es = true := by
  cases es with
  | nil => rfl
  | cons e es => simp [sameAll, same_refl e, sameAll_refl es]
end

mutual
theorem same_comm (e f : Entry) : e.same f = f.same e := by
  cases e <;> cases f <;> simp only [same]
  case path.path p q => exact BEq.comm
  case list.list p es q fs => rw [BEq.comm (a := p), sameAll_comm es fs]
  case literal.literal v w => exact Literal.same_comm v w
  case keyValue.keyValue p v q w => rw [BEq.comm (a := p), Literal.same_comm]

theorem sameAll_comm (es fs : List Entry) : sameAll es fs = sameAll fs es := by
  cases es <;> cases fs <;> simp only [sameAll]
  case cons.cons e es f fs => rw [same_comm e f, sameAll_comm es fs]
end

/-! ## Lists that hold an equal entry -/

@[simp]
theorem isIn_eq_true (e : Entry) (es : List Entry) : e.isIn es = true ↔ ∃ f ∈ es, f.same e = true := by
  simp [isIn]

@[simp]
theorem isIn_eq_false (e : Entry) (es : List Entry) : e.isIn es = false ↔ ∀ f ∈ es, f.same e = false := by
  simp [isIn]

theorem isIn_append (e : Entry) (es fs : List Entry) : e.isIn (es ++ fs) = (e.isIn es || e.isIn fs) := by
  simp [isIn]

theorem isIn_of_mem {e : Entry} {es : List Entry} (h : e ∈ es) : e.isIn es = true :=
  (isIn_eq_true e es).2 ⟨e, h, same_refl e⟩

/-- No two entries of the list are equal. -/
def Distinct (es : List Entry) : Prop := es.Pairwise fun e f => e.same f = false

instance (es : List Entry) : Decidable (Distinct es) := inferInstanceAs (Decidable (es.Pairwise _))

theorem distinct_append {es fs : List Entry} (he : Distinct es) (hf : Distinct fs)
    (hnew : ∀ f ∈ fs, f.isIn es = false) : Distinct (es ++ fs) := by
  refine List.pairwise_append.2 ⟨he, hf, ?_⟩
  intro e hes f hfs
  exact (isIn_eq_false f es).1 (hnew f hfs) e hes

end Entry

end DeriveKit
