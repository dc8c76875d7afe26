import DeriveKit.Binary64
import Mathlib.Algebra.Order.Field.Power
import Mathlib.Algebra.Order.Ring.Rat
import Mathlib.Data.Nat.Cast.Order.Field
import Mathlib.Tactic.FieldSimp
import Mathlib.Tactic.Linarith
import Mathlib.Tactic.NormNum
import Mathlib.Tactic.Positivity
import Mathlib.Tactic.Ring

/-!
# The size of a number and of its text

Rounding gives a legal number, unless its exponent is too great (`legal_rounded_iff`).

The shortest decimal of a number exists and rounds to it (`shortest_between`): among numbers of seventeen
digits there is always one so near. The text of a number has no exponent if the first digit stands from the
fourth place after the point to the sixteenth before it, and that is so for the numbers from `10 ^ -4` up to
`10 ^ 16` (`leading_iff`): the two bounds lie strictly inside of what rounds to one number each, whose text
is known, and every other number keeps clear of them with all that rounds to it.
-/
namespace DeriveKit.Binary64

/-- The number `significand · 2 ^ exponent`. -/
def value (significand : Nat) (exponent : Int) : ℚ := significand * 2 ^ exponent

/-! ## Ratios -/

theorem scale_den_pos {k : Int} {num den : Nat} (h : 0 < den) : 0 < (scale k num den).2 := by
  rw [scale]
  split
  · exact h
  · exact Nat.mul_pos h (Nat.pow_pos (by decide))

theorem scale_ratio (k : Int) (num den : Nat) :
    ((scale k num den).1 / (scale k num den).2 : ℚ) = num / den * 2 ^ k := by
  rw [scale]
  split
  next hk =>
    obtain ⟨n, rfl⟩ := Int.eq_ofNat_of_zero_le hk
    simp [mul_div_right_comm]
  next hk =>
    obtain ⟨n, rfl⟩ : ∃ n : Nat, k = -n := ⟨(-k).toNat, by omega⟩
    simp [div_eq_mul_inv, mul_assoc, mul_comm]

theorem unscaleTen_den_pos {k : Int} {num den : Nat} (h : 0 < den) : 0 < (unscaleTen k num den).2 := by
  rw [unscaleTen]
  split
  · exact Nat.mul_pos h (Nat.pow_pos (by decide))
  · exact h

theorem unscaleTen_ratio (k : Int) (num den : Nat) :
    ((unscaleTen k num den).1 / (unscaleTen k num den).2 : ℚ) = num / den / 10 ^ k := by
  rw [unscaleTen]
  split
  next hk =>
    obtain ⟨n, rfl⟩ := Int.eq_ofNat_of_zero_le hk
    simp [div_mul_eq_div_div]
  next hk =>
    obtain ⟨n, rfl⟩ : ∃ n : Nat, k = -n := ⟨(-k).toNat, by omega⟩
    simp [mul_div_right_comm]

theorem scale_le_iff {k : Int} {num den : Nat} (h : 0 < den) :
    (scale k num den).2 ≤ (scale k num den).1 ↔ (1 : ℚ) ≤ num / den * 2 ^ k := by
  have hpos : (0 : ℚ) < (scale k num den).2 := by exact_mod_cast scale_den_pos h
  rw [← scale_ratio, one_le_div hpos, Nat.cast_le]

theorem log2_spec {n : Nat} (h : 0 < n) : (2 ^ (n.log2 : ℤ) : ℚ) ≤ n ∧ (n : ℚ) < 2 ^ (n.log2 + 1 : ℤ) := by
  constructor
  · exact_mod_cast Nat.log2_self_le h.ne'
  · exact_mod_cast Nat.lt_log2_self

/-- The lengths of two numbers tell the binade of their ratio up to one. -/
theorem ratio_between {num den : Nat} (hnum : 0 < num) (hden : 0 < den) :
    (2 ^ (num.log2 - den.log2 - 1 : ℤ) : ℚ) < num / den ∧
      (num / den : ℚ) < 2 ^ (num.log2 - den.log2 + 1 : ℤ) := by
  have hpos : (0 : ℚ) < den := by exact_mod_cast hden
  obtain ⟨hlow, hhigh⟩ := log2_spec hnum
  obtain ⟨hlow', hhigh'⟩ := log2_spec hden
  constructor
  · rw [sub_sub, zpow_sub₀ two_ne_zero, div_lt_div_iff₀ (by positivity) hpos]
    calc (2 ^ (num.log2 : ℤ) * den : ℚ) < 2 ^ (num.log2 : ℤ) * 2 ^ (den.log2 + 1 : ℤ) := by gcongr
      _ ≤ num * 2 ^ (den.log2 + 1 : ℤ) := by gcongr
  · rw [sub_add_eq_add_sub, zpow_sub₀ two_ne_zero, div_lt_div_iff₀ hpos (by positivity)]
    calc (num * 2 ^ (den.log2 : ℤ) : ℚ) < 2 ^ (num.log2 + 1 : ℤ) * 2 ^ (den.log2 : ℤ) := by gcongr
      _ ≤ 2 ^ (num.log2 + 1 : ℤ) * den := by gcongr

/-- The binade of a ratio. -/
theorem floorLog2_spec {num den : Nat} (hnum : 0 < num) (hden : 0 < den) :
    (2 ^ floorLog2 num den : ℚ) ≤ num / den ∧ (num / den : ℚ) < 2 ^ (floorLog2 num den + 1) := by
  obtain ⟨hbelow, habove⟩ := ratio_between hnum hden
  have htest (k : ℤ) :
      (scale (-k) num den).2 ≤ (scale (-k) num den).1 ↔ (2 ^ k : ℚ) ≤ num / den := by
    rw [scale_le_iff hden, zpow_neg, ← div_eq_mul_inv, one_le_div (by positivity)]
  rw [floorLog2]
  dsimp only
  split
  next hle => exact ⟨(htest _).1 hle, habove⟩
  next hlt =>
    refine ⟨hbelow.le, ?_⟩
    rw [sub_add_cancel]
    exact not_le.1 fun hle => hlt ((htest _).2 hle)

/-! ## Rounding -/

theorem divNearest_bounds (a b : Nat) : a / b ≤ divNearest a b ∧ divNearest a b ≤ a / b + 1 := by
  rw [divNearest]
  split
  · exact ⟨le_rfl, Nat.le_succ _⟩
  · exact ⟨Nat.le_succ _, le_rfl⟩

/-- The quotient of a scaled ratio. -/
theorem le_quotient_iff {num den : Nat} {k : Int} {n : Nat} (hden : 0 < den) :
    n ≤ (scale (-k) num den).1 / (scale (-k) num den).2 ↔ (n * 2 ^ k : ℚ) ≤ num / den := by
  have hpos : 0 < (scale (-k) num den).2 := scale_den_pos hden
  have hpos' : (0 : ℚ) < (scale (-k) num den).2 := by exact_mod_cast hpos
  rw [Nat.le_div_iff_mul_le hpos, ← @Nat.cast_le ℚ, Nat.cast_mul, ← le_div_iff₀ hpos', scale_ratio,
    zpow_neg, ← div_eq_mul_inv, le_div_iff₀ (by positivity)]

/-- Nothing but its exponent can make a rounded ratio illegal. So rounding gives infinity only beyond
the greatest number. -/
theorem legal_rounded_iff {num den : Nat} (hnum : 0 < num) (hden : 0 < den) :
    Legal (rounded num den).1 (rounded num den).2 ↔ (rounded num den).2 ≤ maxExponent := by
  refine ⟨fun h => h.le_maxExponent, fun hmax => ?_⟩
  obtain ⟨hlow, hhigh⟩ := floorLog2_spec hnum hden
  rw [rounded] at hmax ⊢
  dsimp only at hmax ⊢
  generalize hk : max (floorLog2 num den - 52) minExponent = k at hmax ⊢
  obtain ⟨hdown, hup⟩ := divNearest_bounds (scale (-k) num den).1 (scale (-k) num den).2
  generalize divNearest (scale (-k) num den).1 (scale (-k) num den).2 = nearest at hdown hup hmax ⊢
  have hle : nearest ≤ 2 ^ 53 := by
    have hquotient : ¬ 2 ^ 53 ≤ (scale (-k) num den).1 / (scale (-k) num den).2 := by
      rw [le_quotient_iff hden, not_le]
      calc (num / den : ℚ) < 2 ^ (floorLog2 num den + 1) := hhigh
        _ ≤ 2 ^ (53 + k) := zpow_le_zpow_right₀ one_le_two (by omega)
        _ = (2 ^ 53 : ℕ) * 2 ^ k := by rw [zpow_add₀ two_ne_zero]; norm_num
    omega
  have hge : minExponent < k → 2 ^ 52 ≤ nearest := by
    intro hmin
    refine le_trans ((le_quotient_iff hden).2 ?_) hdown
    calc ((2 ^ 52 : ℕ) * 2 ^ k : ℚ) = 2 ^ (52 + k) := by rw [zpow_add₀ two_ne_zero]; norm_num
      _ = 2 ^ floorLog2 num den := by congr 1; omega
      _ ≤ num / den := hlow
  -- Rounding up may reach the next binade.
  split at hmax
  next heq =>
    rw [if_pos heq]
    have hlt : Nat.pow 2 52 < Nat.pow 2 53 := by decide
    exact ⟨hlt, by omega, hmax, fun _ => le_rfl⟩
  next hne =>
    rw [if_neg hne]
    exact ⟨lt_of_le_of_ne hle hne, by omega, hmax, hge⟩

/-! ## Numbers that are read -/

/-- What reading a number gives: a number that is not negative, or positive infinity. -/
inductive IsRead : Binary64 → Prop
  | finite {x : Finite} (h : x.negative = false) : IsRead (.finite x)
  | infinite : IsRead (.infinite false)

theorem isRead_ofRatio (num den : Nat) : IsRead (ofRatio false num den) := by
  rw [ofRatio, ofParts]
  split_ifs
  · exact .finite rfl
  · exact .finite rfl
  · exact .infinite

theorem isRead_ofDecimal (digits : Nat) (exponent : Int) : IsRead (ofDecimal false digits exponent) := by
  rw [ofDecimal]
  split_ifs
  · exact .finite rfl
  · exact .infinite
  · exact isRead_ofRatio _ _
  · exact isRead_ofRatio _ _

/-! ## The numbers that round to a number -/

theorem unscaleTen_le_iff {k : Int} {num den d : Nat} (hden : 0 < den) :
    (unscaleTen k num den).1 ≤ d * (unscaleTen k num den).2 ↔ (num / den : ℚ) ≤ d * 10 ^ k := by
  have hpos : (0 : ℚ) < (unscaleTen k num den).2 := by exact_mod_cast unscaleTen_den_pos hden
  rw [← @Nat.cast_le ℚ, Nat.cast_mul, ← div_le_iff₀ hpos, unscaleTen_ratio, div_le_iff₀ (by positivity)]

theorem le_unscaleTen_iff {k : Int} {num den d : Nat} (hden : 0 < den) :
    d * (unscaleTen k num den).2 ≤ (unscaleTen k num den).1 ↔ (d * 10 ^ k : ℚ) ≤ num / den := by
  have hpos : (0 : ℚ) < (unscaleTen k num den).2 := by exact_mod_cast unscaleTen_den_pos hden
  rw [← @Nat.cast_le ℚ, Nat.cast_mul, ← le_div_iff₀ hpos, unscaleTen_ratio, le_div_iff₀ (by positivity)]

namespace Interval

variable {i : Interval} {d : Nat} {k : Int}

theorem between_of_has (hden : 0 < i.den) (h : i.has d k = true) :
    (i.low / i.den : ℚ) ≤ d * 10 ^ k ∧ (d * 10 ^ k : ℚ) ≤ i.high / i.den := by
  rw [← unscaleTen_le_iff hden, ← le_unscaleTen_iff hden]
  rw [has] at h
  split at h <;> simp only [Bool.and_eq_true, decide_eq_true_eq] at h
  · exact h
  · exact ⟨h.1.le, h.2.le⟩

theorem has_of_between (hden : 0 < i.den) (hlow : (i.low / i.den : ℚ) < d * 10 ^ k)
    (hhigh : (d * 10 ^ k : ℚ) < i.high / i.den) : i.has d k = true := by
  rw [← not_le, ← le_unscaleTen_iff hden, not_le] at hlow
  rw [← not_le, ← unscaleTen_le_iff hden, not_le] at hhigh
  rw [has]
  split <;> simp only [Bool.and_eq_true, decide_eq_true_eq]
  · exact ⟨hlow.le, hhigh.le⟩
  · exact ⟨hlow, hhigh⟩

theorem has_of_onGrid? (h : i.onGrid? k = some d) : i.has d k = true := by
  rw [onGrid?] at h
  dsimp only at h
  split at h
  next hdown hup =>
    split at h <;> cases h
    · exact hdown
    · exact hup
  next hdown _ => cases h; exact hdown
  next _ hup => cases h; exact hup
  next => cases h

theorem onGrid?_isSome
    (h : i.has ((unscaleTen k i.value i.den).1 / (unscaleTen k i.value i.den).2) k = true ∨
      i.has ((unscaleTen k i.value i.den).1 / (unscaleTen k i.value i.den).2 + 1) k = true) :
    (i.onGrid? k).isSome = true := by
  rw [onGrid?]
  dsimp only
  split
  · split <;> rfl
  · rfl
  · rfl
  next hdown hup => simp [hdown, hup] at h

end Interval

/-- Half of the way from a number to the next below it. -/
def gap (significand : Nat) (exponent : Int) : ℚ :=
  if significand = Nat.pow 2 52 ∧ minExponent < exponent then 2 ^ exponent / 4 else 2 ^ exponent / 2

section

variable {m : Nat} {e : Int}

theorem interval_den_pos (m : Nat) (e : Int) : 0 < (interval m e).den := scale_den_pos one_pos

/-- The parts of an interval are counted in quarters of the last place. -/
theorem quarters_ratio (n : Nat) (e : Int) :
    ((n * (scale (e - 2) 1 1).1 : ℕ) / (scale (e - 2) 1 1).2 : ℚ) = n * 2 ^ e / 4 := by
  rw [Nat.cast_mul, mul_div_assoc, scale_ratio, zpow_sub₀ two_ne_zero]
  norm_num
  ring

theorem interval_value (m : Nat) (e : Int) : ((interval m e).value / (interval m e).den : ℚ) = value m e := by
  refine (quarters_ratio (4 * m) e).trans ?_
  rw [value]
  push_cast
  ring

theorem interval_high (m : Nat) (e : Int) :
    ((interval m e).high / (interval m e).den : ℚ) = value m e + 2 ^ e / 2 := by
  refine (quarters_ratio (4 * m + 2) e).trans ?_
  rw [value]
  push_cast
  ring

theorem interval_low (hm : 0 < m) (e : Int) :
    ((interval m e).low / (interval m e).den : ℚ) = value m e - gap m e := by
  refine (quarters_ratio _ e).trans ?_
  rw [value, gap]
  split_ifs
  · rw [Nat.cast_sub (by omega)]
    push_cast
    ring
  · rw [Nat.cast_sub (by omega)]
    push_cast
    ring

theorem gap_pos (m : Nat) (e : Int) : 0 < gap m e := by
  rw [gap]
  split <;> positivity

theorem gap_le (m : Nat) (e : Int) : gap m e ≤ 2 ^ e / 2 := by
  have hpos : (0 : ℚ) < 2 ^ e := by positivity
  rw [gap]
  split <;> linarith

/-! ## The shortest decimal -/

theorem value_lt (h : Legal m e) : value m e < 2 ^ 53 * 2 ^ e := by
  have hlt : (m : ℚ) < 2 ^ 53 := by exact_mod_cast h.significand_lt
  rw [value]
  gcongr

/-- The number lies between its two neighbours on a decimal grid. -/
theorem neighbours (m : Nat) (e k : Int) :
    let grid := unscaleTen k (interval m e).value (interval m e).den
    ((grid.1 / grid.2 : ℕ) * 10 ^ k : ℚ) ≤ value m e ∧ value m e < ((grid.1 / grid.2 : ℕ) + 1) * 10 ^ k := by
  intro grid
  have hden := interval_den_pos m e
  have hpos : 0 < grid.2 := unscaleTen_den_pos hden
  constructor
  · rw [← interval_value, ← le_unscaleTen_iff hden]
    exact Nat.div_mul_le_self _ _
  · rw [← Nat.cast_succ, ← interval_value, ← not_le, ← le_unscaleTen_iff hden, not_le]
    exact (Nat.div_lt_iff_lt_mul hpos).1 (Nat.lt_succ_self _)

/-- Seventeen digits are enough: a grid so fine has a point next to the number that rounds to it. -/
theorem onGrid?_isSome_of_fine (h : Legal m e) (hm : 0 < m) {k : Int} (hk : (10 : ℚ) ^ (16 + k) ≤ value m e) :
    ((interval m e).onGrid? k).isSome = true := by
  apply Interval.onGrid?_isSome
  obtain ⟨hdown, hup⟩ := neighbours m e k
  have hhas (n : Nat) (hlow : value m e - gap m e < n * 10 ^ k)
      (hhigh : (n * 10 ^ k : ℚ) < value m e + 2 ^ e / 2) : (interval m e).has n k = true :=
    Interval.has_of_between (interval_den_pos m e) (by rwa [interval_low hm]) (by rwa [interval_high])
  generalize (unscaleTen k (interval m e).value (interval m e).den).1 /
    (unscaleTen k (interval m e).value (interval m e).den).2 = down at hdown hup
  have hlt := value_lt h
  have hgap := gap_pos m e
  have hunit : (0 : ℚ) < 2 ^ e := by positivity
  rw [zpow_add₀ (by norm_num)] at hk
  norm_num at hk hlt
  by_cases hpower : m = Nat.pow 2 52 ∧ minExponent < e
  · -- The gap below is narrow, and the number is so small that the upper neighbour is near.
    have hvalue : value m e = 4503599627370496 * 2 ^ e := by rw [value, hpower.1]; norm_num
    refine .inr (hhas _ ?_ ?_) <;> push_cast <;> linarith
  · have hhalf : gap m e = 2 ^ e / 2 := if_neg hpower
    by_cases hnear : 2 * (value m e - down * 10 ^ k) ≤ 10 ^ k
    · exact .inl (hhas _ (by linarith) (by linarith))
    · exact .inr (hhas _ (by push_cast; linarith) (by push_cast; linarith))

/-- A number with `n` digits. -/
theorem decimalLength_spec {n : Nat} (hn : 0 < n) :
    10 ^ (decimalLength n - 1) ≤ n ∧ n < 10 ^ decimalLength n := by
  have hpos : 0 < decimalLength n := Nat.length_toDigits_pos
  constructor
  · by_contra hlt
    rcases Nat.eq_zero_or_pos (decimalLength n - 1) with hzero | hmore
    · rw [hzero] at hlt
      omega
    · have := (Nat.length_toDigits_le_iff (b := 10) (by decide) hmore).2 (not_le.1 hlt)
      rw [← decimalLength] at this
      omega
  · exact (Nat.length_toDigits_le_iff (by decide) hpos).1 le_rfl

theorem one_le_value_mul (h : Legal m e) (hm : 0 < m) : (1 : ℚ) ≤ value m e * 10 ^ 400 := by
  have hone : (1 : ℚ) ≤ m := by exact_mod_cast hm
  calc (1 : ℚ) ≤ 2 ^ (minExponent + (3 * 400 : ℕ)) := one_le_zpow₀ one_le_two (by decide)
    _ = 2 ^ minExponent * (2 ^ 3) ^ 400 := by rw [zpow_add₀ two_ne_zero, zpow_natCast, pow_mul]
    _ ≤ 2 ^ minExponent * 10 ^ 400 := by gcongr; norm_num
    _ ≤ 2 ^ e * 10 ^ 400 := by gcongr; exacts [one_le_two, h.minExponent_le]
    _ ≤ value m e * 10 ^ 400 := by rw [value]; gcongr; exact le_mul_of_one_le_left (by positivity) hone

/-- The decimal exponent of a number is not too high. -/
theorem magnitude_le (h : Legal m e) (hm : 0 < m) : (10 : ℚ) ^ (interval m e).magnitude ≤ value m e := by
  have hden := interval_den_pos m e
  have hratio : ((interval m e).value * Nat.pow 10 400 : ℕ) / (interval m e).den = value m e * 10 ^ 400 := by
    rw [← interval_value, Nat.cast_mul, mul_div_right_comm]
    norm_num
  rw [Interval.magnitude]
  generalize hn : (interval m e).value * Nat.pow 10 400 / (interval m e).den = n
  have hle : (n : ℚ) ≤ value m e * 10 ^ 400 := by
    rw [← hratio, ← hn]
    exact Nat.cast_div_le
  have hpos : 0 < n := by
    rw [← hn]
    refine Nat.div_pos ?_ hden
    have hone := one_le_value_mul h hm
    rw [← hratio, one_le_div (by exact_mod_cast hden)] at hone
    exact_mod_cast hone
  have hlength : 0 < decimalLength n := Nat.length_toDigits_pos
  have hpow : ((10 ^ (decimalLength n - 1) : ℕ) : ℚ) ≤ n := by exact_mod_cast (decimalLength_spec hpos).1
  have hexp : (Int.ofNat (decimalLength n) - 401 : ℤ) = (decimalLength n - 1 : ℕ) - 400 := by
    rw [Int.ofNat_eq_natCast]
    omega
  rw [hexp, zpow_sub₀ (by norm_num), div_le_iff₀ (by positivity), zpow_natCast]
  push_cast at hpow
  exact_mod_cast hpow.trans hle

/-- The shortest decimal rounds to the number. -/
theorem shortest_between (h : Legal m e) (hm : 0 < m) :
    value m e - gap m e ≤ (shortest m e).1 * 10 ^ (shortest m e).2 ∧
      ((shortest m e).1 * 10 ^ (shortest m e).2 : ℚ) ≤ value m e + 2 ^ e / 2 := by
  rw [shortest]
  dsimp only
  generalize hfind : List.findSome? _ _ = found
  cases found with
  | none =>
    have hnone := List.findSome?_eq_none_iff.1 hfind 17 (by decide)
    have hsome : ((interval m e).onGrid? ((interval m e).magnitude + 1 - Int.ofNat 17)).isSome = true := by
      refine onGrid?_isSome_of_fine h hm ?_
      rw [show 16 + ((interval m e).magnitude + 1 - Int.ofNat 17) = (interval m e).magnitude by
        rw [Int.ofNat_eq_natCast]; push_cast; ring]
      exact magnitude_le h hm
    rw [Option.map_eq_none_iff.1 hnone] at hsome
    cases hsome
  | some p =>
    obtain ⟨n, hn, hgrid⟩ := List.exists_of_findSome?_eq_some hfind
    obtain ⟨d, hd, rfl⟩ := Option.map_eq_some_iff.1 hgrid
    rw [← interval_low hm, ← interval_high]
    exact Interval.between_of_has (interval_den_pos m e) (Interval.has_of_onGrid? hd)

/-! ## The weight of the first digit -/

/-- A threshold that rounds to one number lies outside of what rounds to any other. -/
theorem clear_of_threshold {m₀ : Nat} {e₀ : Int} {t : ℚ} (h₀ : 2 ^ 52 < m₀ ∧ m₀ < 2 ^ 53)
    (he₀ : minExponent < e₀) (hlow : value m₀ e₀ - 2 ^ e₀ / 2 < t) (hhigh : t < value m₀ e₀ + 2 ^ e₀ / 2)
    (h : Legal m e) (hne : ¬ (m = m₀ ∧ e = e₀)) :
    t < value m e - gap m e ∨ value m e + 2 ^ e / 2 < t := by
  have hunit : (0 : ℚ) < 2 ^ e := by positivity
  have hunit₀ : (0 : ℚ) < 2 ^ e₀ := by positivity
  have hvalue (n n' : Nat) (k : Int) (hn : n ≤ n') : value n k ≤ value n' k := by
    rw [value, value]
    gcongr
  have hvalue₀ := hvalue (2 ^ 52 + 1) m₀ e₀ h₀.1
  have hvalue₀' := hvalue m₀ (2 ^ 53 - 1) e₀ (by omega)
  rcases lt_trichotomy e e₀ with hlt | rfl | hgt
  · right
    have hdouble : (2 : ℚ) ^ e * 2 ≤ 2 ^ e₀ := by
      rw [← zpow_add_one₀ two_ne_zero]
      exact zpow_le_zpow_right₀ one_le_two hlt
    have hmost := hvalue m (2 ^ 53 - 1) e (Nat.le_sub_one_of_lt h.significand_lt)
    norm_num [value] at hmost hvalue₀ hlow ⊢
    linarith
  · have hgap := gap_le m e
    rcases Nat.lt_or_gt_of_ne fun hm => hne ⟨hm, rfl⟩ with hm | hm
    · right
      have := hvalue (m + 1) m₀ e hm
      norm_num [value, add_mul] at this hlow ⊢
      linarith
    · left
      have := hvalue (m₀ + 1) m e hm
      norm_num [value, add_mul] at this hhigh ⊢
      linarith
  · left
    have hdouble : (2 : ℚ) ^ e₀ * 2 ≤ 2 ^ e := by
      rw [← zpow_add_one₀ two_ne_zero]
      exact zpow_le_zpow_right₀ one_le_two hgt
    have hmin : minExponent < e := he₀.trans hgt
    by_cases hpower : m = Nat.pow 2 52
    · -- The gap below a power of two is narrow enough not to reach the threshold.
      rw [gap, if_pos ⟨hpower, hmin⟩, hpower]
      norm_num [value] at hvalue₀' hhigh ⊢
      linarith
    · have hgap := gap_le m e
      have hmore := hvalue (2 ^ 52 + 1) m e (lt_of_le_of_ne (h.le_significand hmin) (Ne.symm hpower))
      norm_num [value] at hmore hvalue₀' hhigh ⊢
      linarith

/-- The shortest decimal is on the same side of the threshold as the number. -/
theorem le_shortest_iff (m₀ : Nat) (e₀ : Int) (t : ℚ) (h₀ : 2 ^ 52 < m₀ ∧ m₀ < 2 ^ 53)
    (he₀ : minExponent < e₀) (hlow : t ≤ value m₀ e₀) (hhigh : value m₀ e₀ - 2 ^ e₀ / 2 < t)
    (hshortest : ((shortest m₀ e₀).1 * 10 ^ (shortest m₀ e₀).2 : ℚ) = t) (h : Legal m e) (hm : 0 < m) :
    t ≤ (shortest m e).1 * 10 ^ (shortest m e).2 ↔ t ≤ value m e := by
  by_cases hne : m = m₀ ∧ e = e₀
  · obtain ⟨rfl, rfl⟩ := hne
    exact iff_of_true hshortest.ge hlow
  · obtain ⟨hbelow, habove⟩ := shortest_between h hm
    have hgap := gap_pos m e
    have hunit : (0 : ℚ) < 2 ^ e := by positivity
    have hunit₀ : (0 : ℚ) < 2 ^ e₀ := by positivity
    rcases clear_of_threshold h₀ he₀ hhigh (by linarith) h hne with hclear | hclear
    · exact iff_of_true (by linarith) (by linarith)
    · exact iff_of_false (by linarith) (by linarith)

/-- The weight of the first digit of the shortest decimal, as a power of ten. -/
def leading (m : Nat) (e : Int) : Int := (shortest m e).2 + Int.ofNat (decimalLength (shortest m e).1) - 1

theorem shortest_pos (h : Legal m e) (hm : 0 < m) : 0 < (shortest m e).1 := by
  have hone : (1 : ℚ) ≤ m := by exact_mod_cast hm
  have hunit : (0 : ℚ) < 2 ^ e := by positivity
  have hvalue : (2 : ℚ) ^ e ≤ value m e := le_mul_of_one_le_left hunit.le hone
  have hpos : (0 : ℚ) < (shortest m e).1 * 10 ^ (shortest m e).2 := by
    linarith [(shortest_between h hm).1, gap_le m e]
  exact_mod_cast pos_of_mul_pos_left hpos (by positivity)

theorem le_leading_iff (h : Legal m e) (hm : 0 < m) (j : Int) :
    j ≤ leading m e ↔ (10 ^ j : ℚ) ≤ (shortest m e).1 * 10 ^ (shortest m e).2 := by
  have hlength : 0 < decimalLength (shortest m e).1 := Nat.length_toDigits_pos
  obtain ⟨hlow, hhigh⟩ := decimalLength_spec (shortest_pos h hm)
  rw [leading]
  generalize decimalLength (shortest m e).1 = length at *
  generalize (shortest m e).1 = d at *
  generalize (shortest m e).2 = k
  have hlow' : ((10 : ℚ) ^ (k + Int.ofNat length - 1)) ≤ d * 10 ^ k := by
    rw [show k + Int.ofNat length - 1 = ((length - 1 : ℕ) : ℤ) + k by rw [Int.ofNat_eq_natCast]; omega,
      zpow_add₀ (by norm_num), zpow_natCast]
    gcongr
    exact_mod_cast hlow
  have hhigh' : (d * 10 ^ k : ℚ) < 10 ^ (k + Int.ofNat length) := by
    rw [add_comm k, zpow_add₀ (by norm_num), Int.ofNat_eq_natCast, zpow_natCast]
    gcongr
    exact_mod_cast hhigh
  constructor
  · intro hj
    exact (zpow_le_zpow_right₀ (by norm_num) hj).trans hlow'
  · intro hj
    have := (zpow_lt_zpow_iff_right₀ (by norm_num)).1 (hj.trans_lt hhigh')
    omega

/-- Zero, or at least `10 ^ -4` and below `10 ^ 16` in absolute value. -/
def IsModerate : Binary64 → Prop
  | finite x => x.significand = 0 ∨
    1 / 10 ^ 4 ≤ value x.significand x.exponent ∧ value x.significand x.exponent < 10 ^ 16
  | infinite _ => False
  | nan _ => False

instance : DecidablePred IsModerate
  | finite x => inferInstanceAs (Decidable (x.significand = 0 ∨
    1 / 10 ^ 4 ≤ value x.significand x.exponent ∧ value x.significand x.exponent < 10 ^ 16))
  | infinite _ => inferInstanceAs (Decidable False)
  | nan _ => inferInstanceAs (Decidable False)

/-- A number of moderate size is one whose shortest decimal has its first digit from the fourth place
after the point to the sixteenth before it. -/
theorem leading_iff (h : Legal m e) (hm : 0 < m) :
    (-4 ≤ leading m e ∧ leading m e < 16) ↔ 1 / 10 ^ 4 ≤ value m e ∧ value m e < 10 ^ 16 := by
  have hfour : -4 ≤ leading m e ↔ 1 / 10 ^ 4 ≤ value m e := by
    have hshortest : shortest 7378697629483821 (-66) = (1, -4) := by decide +kernel
    have hside := le_shortest_iff 7378697629483821 (-66) (1 / 10 ^ 4) (by norm_num) (by decide)
      (by norm_num [value]) (by norm_num [value]) (by norm_num [hshortest]) h hm
    rw [le_leading_iff h hm, ← hside]
    norm_num
  have hsixteen : 16 ≤ leading m e ↔ 10 ^ 16 ≤ value m e := by
    have hshortest : shortest 5000000000000000 1 = (1, 16) := by decide +kernel
    have hside := le_shortest_iff 5000000000000000 1 (10 ^ 16) (by norm_num) (by decide)
      (by norm_num [value]) (by norm_num [value]) (by norm_num [hshortest]) h hm
    rw [le_leading_iff h hm, ← hside]
    norm_num
  rw [hfour, ← not_le, hsixteen, not_le]

end

end DeriveKit.Binary64
