import Mathlib.Data.Nat.Cast.Order.Field
import Mathlib.Data.Rat.Cast.Order
import Mathlib.Algebra.Order.Field.Power
import Mathlib.Tactic.FieldSimp
import Mathlib.Tactic.Linarith
import Mathlib.Tactic.Positivity
import Mathlib.Tactic.NormNum
import Mathlib.Tactic.Ring
import LoxScript.Number.Shortest

/-!
Decimals that identify a double.

The decimals that round to a double lie between the midpoints to its neighbours. The intervals of
two doubles have at most an end in common, which then belongs to one of them only, so a decimal
rounds to at most one double; and an interval is wide enough to hold one of the two decimals with
seventeen digits next to the double.
-/
namespace LoxScript.Number

/-- The rational that two naturals stand for. -/
def ratio (q : Nat × Nat) : ℚ := q.1 / q.2

def Binary.value (b : Binary) : ℚ := b.mantissa * 2 ^ b.exponent

def Decimal.value (d : Decimal) : ℚ := d.coefficient * 10 ^ d.exponent

theorem cast_twoPow (n : Nat) : ((twoPow n : Nat) : ℚ) = 2 ^ (n : ℤ) := by
  rw [zpow_natCast]
  exact Nat.cast_pow 2 n

theorem cast_tenPow (n : Nat) : ((tenPow n : Nat) : ℚ) = 10 ^ (n : ℤ) := by
  rw [zpow_natCast]
  exact Nat.cast_pow 10 n

theorem twoPow_pos (n : Nat) : 0 < twoPow n := Nat.two_pow_pos n

theorem tenPow_pos (n : Nat) : 0 < tenPow n := Nat.pow_pos (by decide)

section Quotients
variable {p q : Nat × Nat}

theorem ratio_scaled {base : ℚ} {pow : Nat → Nat} (hbase : base ≠ 0)
    (hpow : ∀ n, (pow n : ℚ) = base ^ (n : ℤ)) (q : Nat × Nat) (e : Int) :
    ratio (if 0 ≤ e then (q.1 * pow e.toNat, q.2) else (q.1, q.2 * pow (-e).toNat)) =
      ratio q * base ^ e := by
  unfold ratio
  split
  next h =>
    have he : ((e.toNat : Nat) : Int) = e := Int.toNat_of_nonneg h
    push_cast
    rw [hpow, he]
    ring
  next h =>
    have he : (((-e).toNat : Nat) : Int) = -e := Int.toNat_of_nonneg (by omega)
    push_cast
    rw [hpow, he, zpow_neg]
    field_simp

theorem ratio_timesTwoPow (q : Nat × Nat) (e : Int) : ratio (timesTwoPow q e) = ratio q * 2 ^ e :=
  ratio_scaled two_ne_zero cast_twoPow q e

theorem ratio_timesTenPow (q : Nat × Nat) (e : Int) : ratio (timesTenPow q e) = ratio q * 10 ^ e :=
  ratio_scaled (by norm_num) cast_tenPow q e

theorem timesTwoPow_pos (hq : 0 < q.2) (e : Int) : 0 < (timesTwoPow q e).2 := by
  unfold timesTwoPow
  split
  · exact hq
  · exact Nat.mul_pos hq (twoPow_pos _)

theorem timesTenPow_pos (hq : 0 < q.2) (e : Int) : 0 < (timesTenPow q e).2 := by
  unfold timesTenPow
  split
  · exact hq
  · exact Nat.mul_pos hq (tenPow_pos _)

theorem quotientLe_iff (hp : 0 < p.2) (hq : 0 < q.2) : quotientLe p q ↔ ratio p ≤ ratio q := by
  have hp' : (0 : ℚ) < p.2 := Nat.cast_pos.mpr hp
  have hq' : (0 : ℚ) < q.2 := Nat.cast_pos.mpr hq
  rw [quotientLe, decide_eq_true_eq, ratio, ratio, div_le_div_iff₀ hp' hq']
  exact_mod_cast Iff.rfl

theorem quotientLt_iff (hp : 0 < p.2) (hq : 0 < q.2) : quotientLt p q ↔ ratio p < ratio q := by
  have hp' : (0 : ℚ) < p.2 := Nat.cast_pos.mpr hp
  have hq' : (0 : ℚ) < q.2 := Nat.cast_pos.mpr hq
  rw [quotientLt, decide_eq_true_eq, ratio, ratio, div_lt_div_iff₀ hp' hq']
  exact_mod_cast Iff.rfl

end Quotients

namespace Binary
variable {b c : Binary}

theorem quotient_pos (b : Binary) : 0 < b.quotient.2 := by
  unfold quotient
  split
  · exact Nat.one_pos
  · exact twoPow_pos _

theorem ratio_quotient (b : Binary) : ratio b.quotient = b.value := by
  have htimes : b.quotient = timesTwoPow (b.mantissa, 1) b.exponent := by
    unfold quotient timesTwoPow
    split <;> simp
  rw [htimes, ratio_timesTwoPow, ratio, value]
  simp

/-- Below a power of two doubles lie twice as dense. -/
def AtPower (b : Binary) : Prop := b.mantissa = 2 ^ 52 ∧ leastExponent < b.exponent

instance : Decidable b.AtPower := inferInstanceAs (Decidable (_ ∧ _))

theorem ratio_upper (b : Binary) : ratio b.upper = (2 * b.mantissa + 1) * 2 ^ (b.exponent - 1) := by
  rw [upper, ratio_timesTwoPow, ratio]
  push_cast
  ring

theorem ratio_lower (hb : 0 < b.mantissa) :
    ratio b.lower = if b.AtPower then (4 * b.mantissa - 1 : ℚ) * 2 ^ (b.exponent - 2)
      else (2 * b.mantissa - 1 : ℚ) * 2 ^ (b.exponent - 1) := by
  have hpower : (b.mantissa = twoPow 52 ∧ leastExponent < b.exponent) ↔ b.AtPower := Iff.rfl
  rw [lower]
  simp only [hpower]
  split
  · rw [ratio_timesTwoPow, ratio, Nat.cast_sub (by omega)]
    push_cast
    ring
  · rw [ratio_timesTwoPow, ratio, Nat.cast_sub (by omega)]
    push_cast
    ring

/-- The parts of a double: an implied leading bit, or the least exponent. -/
structure Canonical (b : Binary) : Prop where
  small : b.mantissa < 2 ^ 53
  least : leastExponent ≤ b.exponent
  lead : b.mantissa < 2 ^ 52 → b.exponent = leastExponent

/-- A decimal between the midpoints to the neighbours of a double. -/
theorem readsBack_iff (b : Binary) (d : Decimal) :
    b.readsBack d ↔ if b.mantissa % 2 = 0 then ratio b.lower ≤ d.value ∧ d.value ≤ ratio b.upper
      else ratio b.lower < d.value ∧ d.value < ratio b.upper := by
  have hvalue : ratio (timesTenPow (d.coefficient, 1) d.exponent) = d.value := by
    rw [ratio_timesTenPow, ratio, Decimal.value]
    simp
  have hlower : 0 < b.lower.2 := by
    unfold lower
    split <;> exact timesTwoPow_pos Nat.one_pos _
  have hupper : 0 < b.upper.2 := timesTwoPow_pos Nat.one_pos _
  have hpos : 0 < (timesTenPow (d.coefficient, 1) d.exponent).2 := timesTenPow_pos Nat.one_pos _
  unfold readsBack
  split
  · simp only [Bool.and_eq_true, quotientLe_iff hlower hpos, quotientLe_iff hpos hupper, hvalue]
  · simp only [Bool.and_eq_true, quotientLt_iff hlower hpos, quotientLt_iff hpos hupper, hvalue]

theorem lead_of_least_lt (hb : b.Canonical) (h : leastExponent < b.exponent) :
    2 ^ 52 ≤ b.mantissa :=
  Nat.le_of_not_lt fun hsmall => absurd (hb.lead hsmall) (ne_of_gt h)

/-- A double with a larger exponent is larger. -/
theorem value_lt_of_exponent_lt (hb : b.Canonical) (hc : c.Canonical)
    (h : b.exponent < c.exponent) : b.value < c.value := by
  have hlead : (2 : ℚ) ^ 52 ≤ c.mantissa := by
    exact_mod_cast lead_of_least_lt hc (Int.lt_of_le_of_lt hb.least h)
  have hsmall : (b.mantissa : ℚ) < 2 ^ 53 := by exact_mod_cast hb.small
  have hstep : (2 : ℚ) ^ (b.exponent + 1) ≤ 2 ^ c.exponent :=
    zpow_le_zpow_right₀ one_le_two (Int.add_one_le_of_lt h)
  have hpos : (0 : ℚ) < 2 ^ b.exponent := by positivity
  calc b.value = b.mantissa * 2 ^ b.exponent := rfl
    _ < 2 ^ 53 * 2 ^ b.exponent := mul_lt_mul_of_pos_right hsmall hpos
    _ = 2 ^ 52 * 2 ^ (b.exponent + 1) := by
      rw [zpow_add_one₀ two_ne_zero]
      ring
    _ ≤ c.mantissa * 2 ^ c.exponent := mul_le_mul hlead hstep (by positivity) (by positivity)

theorem value_lt_iff_of_exponent_eq (h : b.exponent = c.exponent) :
    b.value < c.value ↔ b.mantissa < c.mantissa := by
  have hpos : (0 : ℚ) < 2 ^ c.exponent := by positivity
  rw [value, value, h, mul_lt_mul_iff_left₀ hpos]
  exact Nat.cast_lt

/-- The parts of a double are fixed by its value. -/
theorem parts_of_value (hb : b.Canonical) (hc : c.Canonical) (h : b.value = c.value) :
    b.mantissa = c.mantissa ∧ b.exponent = c.exponent := by
  obtain hlt | heq | hgt := lt_trichotomy b.exponent c.exponent
  · exact absurd h (ne_of_lt (value_lt_of_exponent_lt hb hc hlt))
  · refine ⟨?_, heq⟩
    obtain hm | hm | hm := lt_trichotomy b.mantissa c.mantissa
    · exact absurd h (ne_of_lt ((value_lt_iff_of_exponent_eq heq).mpr hm))
    · exact hm
    · exact absurd h.symm (ne_of_lt ((value_lt_iff_of_exponent_eq heq.symm).mpr hm))
  · exact absurd h.symm (ne_of_lt (value_lt_of_exponent_lt hc hb hgt))

/-- How far up the interval of a double comes in front of doubles with a larger exponent. Only
that of the largest mantissa, which is odd, comes that far. -/
theorem ratio_upper_le (hb : b.Canonical) (h : b.exponent < c.exponent) :
    ratio b.upper ≤ (2 ^ 54 - 1) * 2 ^ (c.exponent - 2) ∧
      (ratio b.upper = (2 ^ 54 - 1) * 2 ^ (c.exponent - 2) → b.mantissa % 2 = 1) := by
  rw [ratio_upper]
  have hscale : (0 : ℚ) < 2 ^ (b.exponent - 1) := by positivity
  have hstep : (2 : ℚ) ^ (b.exponent - 1) ≤ 2 ^ (c.exponent - 2) :=
    zpow_le_zpow_right₀ one_le_two (by omega)
  have hsmall : (b.mantissa : ℚ) + 1 ≤ 2 ^ 53 := by exact_mod_cast hb.small
  have hbelow : (2 * b.mantissa + 1 : ℚ) * 2 ^ (b.exponent - 1) ≤
      (2 ^ 54 - 1) * 2 ^ (b.exponent - 1) :=
    mul_le_mul_of_nonneg_right (by linarith) hscale.le
  have habove : (2 ^ 54 - 1 : ℚ) * 2 ^ (b.exponent - 1) ≤ (2 ^ 54 - 1) * 2 ^ (c.exponent - 2) :=
    mul_le_mul_of_nonneg_left hstep (by norm_num)
  refine ⟨hbelow.trans habove, fun hmeet => ?_⟩
  have hlargest : (2 * b.mantissa + 1 : ℚ) = 2 ^ 54 - 1 :=
    mul_right_cancel₀ hscale.ne' (le_antisymm hbelow (hmeet ▸ habove))
  have hnat : 2 * b.mantissa + 2 = 2 ^ 54 := by
    have : (2 * b.mantissa + 2 : ℚ) = 2 ^ 54 := by linarith
    exact_mod_cast this
  omega

theorem ratio_lower_of_atPower (h : b.AtPower) :
    ratio b.lower = (2 ^ 54 - 1) * 2 ^ (b.exponent - 2) := by
  have hmantissa : (b.mantissa : ℚ) = 2 ^ 52 := by exact_mod_cast h.1
  have hpos : 0 < b.mantissa := h.1 ▸ Nat.two_pow_pos 52
  rw [ratio_lower hpos, if_pos h, hmantissa]
  norm_num

theorem lt_ratio_lower (hb : b.Canonical) (hleast : leastExponent < b.exponent)
    (hpower : ¬ b.AtPower) : (2 ^ 54 - 1) * 2 ^ (b.exponent - 2) < ratio b.lower := by
  have hlead := lead_of_least_lt hb hleast
  have hmore : (2 : ℚ) ^ 52 + 1 ≤ b.mantissa := by
    have : 2 ^ 52 ≠ b.mantissa := fun heq => hpower ⟨heq.symm, hleast⟩
    exact_mod_cast Nat.lt_of_le_of_ne hlead this
  have hdouble : (2 : ℚ) ^ (b.exponent - 1) = 2 * 2 ^ (b.exponent - 2) := by
    rw [← zpow_one_add₀ two_ne_zero]
    congr 1
    omega
  have hpositive : (0 : ℚ) < 2 ^ (b.exponent - 2) := by positivity
  rw [ratio_lower (Nat.lt_of_lt_of_le (Nat.two_pow_pos 52) hlead), if_neg hpower]
  calc (2 ^ 54 - 1 : ℚ) * 2 ^ (b.exponent - 2)
      < (2 ^ 54 + 2) * 2 ^ (b.exponent - 2) := mul_lt_mul_of_pos_right (by norm_num) hpositive
    _ ≤ (2 * b.mantissa - 1) * 2 * 2 ^ (b.exponent - 2) :=
      mul_le_mul_of_nonneg_right (by linarith) hpositive.le
    _ = (2 * b.mantissa - 1) * 2 ^ (b.exponent - 1) := by rw [hdouble, mul_assoc]

theorem upper_le_lower_of_exponent_eq (hb : b.Canonical) (heq : b.exponent = c.exponent)
    (h : b.mantissa < c.mantissa) :
    ratio b.upper ≤ ratio c.lower ∧
      (ratio b.upper = ratio c.lower → b.mantissa % 2 = 1 ∨ c.mantissa % 2 = 1) := by
  have hpower : ¬ c.AtPower := by
    rintro ⟨hc52, hleast⟩
    have := lead_of_least_lt hb (heq ▸ hleast)
    omega
  have hscale : (0 : ℚ) < 2 ^ (c.exponent - 1) := by positivity
  have hnext : (b.mantissa : ℚ) + 1 ≤ c.mantissa := by exact_mod_cast h
  rw [ratio_upper, ratio_lower (Nat.zero_lt_of_lt h), if_neg hpower, heq]
  refine ⟨mul_le_mul_of_nonneg_right (by linarith) hscale.le, fun hmeet => ?_⟩
  have hsame := mul_right_cancel₀ hscale.ne' hmeet
  have hnat : 2 * b.mantissa + 2 = 2 * c.mantissa := by
    have : (2 * b.mantissa + 2 : ℚ) = 2 * c.mantissa := by linarith
    exact_mod_cast this
  omega

/-- Of two doubles, the interval of the smaller one ends where that of the larger one starts or
before it; and if they meet, one of them does not contain its ends. -/
theorem upper_le_lower (hb : b.Canonical) (hc : c.Canonical) (h : b.value < c.value) :
    ratio b.upper ≤ ratio c.lower ∧
      (ratio b.upper = ratio c.lower → b.mantissa % 2 = 1 ∨ c.mantissa % 2 = 1) := by
  obtain hlt | heq | hgt := lt_trichotomy b.exponent c.exponent
  · obtain ⟨hupper, hodd⟩ := ratio_upper_le hb hlt
    by_cases hpower : c.AtPower
    · rw [ratio_lower_of_atPower hpower]
      exact ⟨hupper, fun hmeet => .inl (hodd hmeet)⟩
    · have hleast := Int.lt_of_le_of_lt hb.least hlt
      have hlower := hupper.trans_lt (lt_ratio_lower hc hleast hpower)
      exact ⟨hlower.le, fun hmeet => absurd hmeet hlower.ne⟩
  · exact upper_le_lower_of_exponent_eq hb heq ((value_lt_iff_of_exponent_eq heq).mp h)
  · exact absurd h (not_lt_of_gt (value_lt_of_exponent_lt hc hb hgt))

theorem not_readsBack_of_lt (hb : b.Canonical) (hc : c.Canonical) (h : b.value < c.value)
    {d : Decimal} (hd : b.readsBack d) : ¬ c.readsBack d := by
  intro hd'
  obtain ⟨hle, hmeet⟩ := upper_le_lower hb hc h
  have hbelow : d.value ≤ ratio b.upper := by
    have hbounds := (readsBack_iff b d).mp hd
    split at hbounds
    · exact hbounds.2
    · exact hbounds.2.le
  have habove : ratio c.lower ≤ d.value := by
    have hbounds := (readsBack_iff c d).mp hd'
    split at hbounds
    · exact hbounds.1
    · exact hbounds.1.le
  -- the decimal is the common end, which one of the intervals leaves out
  have hend : ratio b.upper = ratio c.lower := le_antisymm hle (habove.trans hbelow)
  obtain hodd | hodd := hmeet hend
  · have hbounds := (readsBack_iff b d).mp hd
    rw [if_neg (by omega)] at hbounds
    exact absurd (hbounds.2.trans_le (hend.le.trans habove)) (lt_irrefl _)
  · have hbounds := (readsBack_iff c d).mp hd'
    rw [if_neg (by omega)] at hbounds
    exact absurd (hbounds.1.trans_le (hbelow.trans hend.le)) (lt_irrefl _)

/-- A decimal rounds to at most one double. -/
theorem readsBack_unique (hb : b.Canonical) (hc : c.Canonical) {d : Decimal} (hd : b.readsBack d)
    (hd' : c.readsBack d) : b.mantissa = c.mantissa ∧ b.exponent = c.exponent := by
  obtain hlt | heq | hgt := lt_trichotomy b.value c.value
  · exact absurd hd' (not_readsBack_of_lt hb hc hlt hd)
  · exact parts_of_value hb hc heq
  · exact absurd hd (not_readsBack_of_lt hc hb hgt hd')

theorem lower_pos (hpos : 0 < b.mantissa) : 0 < ratio b.lower := by
  have hone : (1 : ℚ) ≤ b.mantissa := by exact_mod_cast hpos
  rw [ratio_lower hpos]
  split
  · exact mul_pos (by linarith) (by positivity)
  · exact mul_pos (by linarith) (by positivity)

theorem coefficient_pos_of_readsBack (hpos : 0 < b.mantissa) {d : Decimal} (hd : b.readsBack d) :
    0 < d.coefficient := by
  have hlower := lower_pos hpos
  have hbounds := (readsBack_iff b d).mp hd
  have hvalue : 0 < d.value := by
    split at hbounds
    · exact hlower.trans_le hbounds.1
    · exact hlower.trans hbounds.1
  by_contra hzero
  have hcoefficient : d.coefficient = 0 := by omega
  rw [Decimal.value, hcoefficient, Nat.cast_zero, zero_mul] at hvalue
  exact lt_irrefl _ hvalue

theorem nearest?_readsBack {exponent : Int} {d : Decimal} (h : b.nearest? exponent = some d) :
    b.readsBack d := by
  unfold nearest? at h
  simp only at h
  split at h
  next hbelow habove =>
    cases h
    split
    · exact hbelow
    · exact habove
  next hbelow _ =>
    cases h
    exact hbelow
  next _ habove =>
    cases h
    exact habove
  next => cases h

/-- The two parts of the interval of a double. -/
theorem value_inside (hpos : 0 < b.mantissa) :
    ratio b.upper = b.value + 2 ^ (b.exponent - 1) ∧
      ratio b.lower =
        b.value - if b.AtPower then 2 ^ (b.exponent - 2) else 2 ^ (b.exponent - 1) := by
  have hone : (2 : ℚ) ^ b.exponent = 2 * 2 ^ (b.exponent - 1) := by
    rw [← zpow_one_add₀ two_ne_zero]
    congr 1
    omega
  have htwo : (2 : ℚ) ^ b.exponent = 4 * 2 ^ (b.exponent - 2) := by
    have : (2 : ℚ) ^ (b.exponent - 1) = 2 * 2 ^ (b.exponent - 2) := by
      rw [← zpow_one_add₀ two_ne_zero]
      congr 1
      omega
    rw [hone, this]
    ring
  refine ⟨?_, ?_⟩
  · rw [ratio_upper, value, hone]
    ring
  · rw [ratio_lower hpos, value]
    split
    · rw [htwo]
      ring
    · rw [hone]
      ring

theorem lower_lt_value (hpos : 0 < b.mantissa) : ratio b.lower < b.value := by
  rw [(value_inside hpos).2]
  split
  · exact sub_lt_self _ (by positivity)
  · exact sub_lt_self _ (by positivity)

theorem value_lt_upper (hpos : 0 < b.mantissa) : b.value < ratio b.upper := by
  rw [(value_inside hpos).1]
  exact lt_add_of_pos_right _ (by positivity)

/-- The interval of a double is wider than what seventeen digits cannot tell apart. -/
theorem value_lt_width (hb : b.Canonical) (hpos : 0 < b.mantissa) :
    b.value < 10 ^ 16 * (ratio b.upper - ratio b.lower) := by
  obtain ⟨hupper, hlower⟩ := value_inside hpos
  have hone : (2 : ℚ) ^ (b.exponent - 1) = 2 * 2 ^ (b.exponent - 2) := by
    rw [← zpow_one_add₀ two_ne_zero]
    congr 1
    omega
  have hvalue : b.value = b.mantissa * 4 * 2 ^ (b.exponent - 2) := by
    rw [value, mul_assoc, ← show (2 : ℚ) ^ 2 = 4 by norm_num, ← zpow_natCast,
      ← zpow_add₀ two_ne_zero]
    congr 2
    push_cast
    omega
  have hscale : (0 : ℚ) < 2 ^ (b.exponent - 2) := by positivity
  rw [hupper, hlower, hvalue, hone]
  split
  next hpower =>
    have hmantissa : (b.mantissa : ℚ) = 2 ^ 52 := by exact_mod_cast hpower.1
    rw [hmantissa]
    nlinarith
  next =>
    have hsmall : (b.mantissa : ℚ) < 2 ^ 53 := by exact_mod_cast hb.small
    nlinarith

theorem div_le_ratio (q : Nat × Nat) : ((q.1 / q.2 : Nat) : ℚ) ≤ ratio q := Nat.cast_div_le

theorem ratio_lt_div_add_one {q : Nat × Nat} (hq : 0 < q.2) :
    ratio q < ((q.1 / q.2 : Nat) : ℚ) + 1 := by
  have hpos : (0 : ℚ) < q.2 := Nat.cast_pos.mpr hq
  have hlt : q.1 < q.2 * (q.1 / q.2 + 1) := Nat.lt_mul_div_succ q.1 hq
  rw [ratio, div_lt_iff₀ hpos, mul_comm]
  exact_mod_cast hlt

/-- A grid of decimals finer than the interval has a decimal in it next to the double. -/
theorem nearest?_isSome (hpos : 0 < b.mantissa) {exponent : Int}
    (hfine : (10 : ℚ) ^ exponent < ratio b.upper - ratio b.lower) :
    (b.nearest? exponent).isSome := by
  unfold nearest?
  simp only
  have hscaled := timesTenPow_pos b.quotient_pos (-exponent)
  have hratio : ratio (timesTenPow b.quotient (-exponent)) * 10 ^ exponent = b.value := by
    rw [ratio_timesTenPow, ratio_quotient, mul_assoc, ← zpow_add₀ (by norm_num)]
    simp
  generalize timesTenPow b.quotient (-exponent) = scaled at *
  have hgrid : (0 : ℚ) < 10 ^ exponent := by positivity
  have hbelow := mul_le_mul_of_nonneg_right (div_le_ratio scaled) hgrid.le
  have habove := mul_lt_mul_of_pos_right (ratio_lt_div_add_one hscaled) hgrid
  rw [hratio] at hbelow habove
  have hlower := lower_lt_value hpos
  have hupper := value_lt_upper hpos
  generalize scaled.1 / scaled.2 = n at *
  have hreads (k : Nat) : b.readsBack ⟨k, exponent⟩ = false →
      ¬ (ratio b.lower < k * 10 ^ exponent ∧ k * 10 ^ exponent < ratio b.upper) := by
    intro hfalse hinside
    have htrue := (readsBack_iff b ⟨k, exponent⟩).mpr (by
      split
      · exact ⟨hinside.1.le, hinside.2.le⟩
      · exact hinside)
    rw [hfalse] at htrue
    cases htrue
  split <;> try rfl
  next hfalse hfalse' =>
    -- then the interval would lie between two neighbours on the grid
    have hout : n * 10 ^ exponent ≤ ratio b.lower := by
      by_contra hlt
      exact hreads n hfalse ⟨not_le.mp hlt, hbelow.trans_lt hupper⟩
    have hout' : ratio b.upper ≤ ((n + 1 : Nat) : ℚ) * 10 ^ exponent := by
      by_contra hlt
      refine hreads (n + 1) hfalse' ⟨?_, not_le.mp hlt⟩
      push_cast
      exact hlower.trans habove
    push_cast at hout'
    linarith

theorem tenPow_length_le {n : Nat} (hn : 0 < n) :
    (10 : ℚ) ^ (((Nat.toDigits 10 n).length : Int) - 1) ≤ n := by
  obtain ⟨k, hk⟩ := Nat.exists_eq_succ_of_ne_zero (Nat.length_toDigits_pos (b := 10) (n := n)).ne'
  have hle : 10 ^ k ≤ n := by
    cases k with
    | zero => exact hn
    | succ k =>
      by_contra hlt
      have hlength := (Nat.length_toDigits_le_iff (b := 10) (by decide) (Nat.succ_pos k)).mpr
        (not_le.mp hlt)
      omega
  have hexponent : ((Nat.toDigits 10 n).length : Int) - 1 = k := by omega
  rw [hexponent, zpow_natCast]
  exact_mod_cast hle

/-- The place of the first digit is not in front of the double. -/
theorem place_le (hb : b.Canonical) (hpos : 0 < b.mantissa) :
    (10 : ℚ) ^ (b.place - 1) ≤ b.value := by
  unfold place
  simp only
  split
  next hwhole =>
    have hle := div_le_ratio b.quotient
    rw [ratio_quotient] at hle
    exact (tenPow_length_le hwhole).trans hle
  next =>
    have hscaled := timesTenPow_pos b.quotient_pos widestShift
    have hratio : ratio (timesTenPow b.quotient widestShift) = b.value * 10 ^ (widestShift : Int) :=
      (ratio_timesTenPow _ _).trans (congrArg (· * _) b.ratio_quotient)
    generalize timesTenPow b.quotient widestShift = scaled at *
    have hleast : (1 : ℚ) ≤ b.value * 10 ^ (widestShift : Int) := by
      have hone : (1 : ℚ) ≤ b.mantissa := by exact_mod_cast hpos
      have hpower : (2 : ℚ) ^ leastExponent ≤ 2 ^ b.exponent :=
        zpow_le_zpow_right₀ one_le_two hb.least
      have hshift : (2 : ℚ) ^ (1074 : Nat) ≤ 10 ^ (350 : Nat) :=
        calc (2 : ℚ) ^ (1074 : Nat) ≤ 2 ^ (13 * 83) := pow_le_pow_right₀ one_le_two (by decide)
          _ = (2 ^ 13) ^ 83 := pow_mul 2 13 83
          _ ≤ (10 ^ 4) ^ 83 := pow_le_pow_left₀ (by norm_num) (by norm_num) 83
          _ = 10 ^ (4 * 83) := (pow_mul 10 4 83).symm
          _ ≤ 10 ^ (350 : Nat) := pow_le_pow_right₀ (by norm_num) (by decide)
      calc (1 : ℚ) = 1 * 2 ^ leastExponent * 2 ^ (1074 : Nat) := by
            rw [one_mul, ← zpow_natCast, ← zpow_add₀ two_ne_zero]
            rfl
        _ ≤ b.mantissa * 2 ^ b.exponent * 10 ^ (350 : Nat) := by gcongr
        _ = b.value * 10 ^ (widestShift : Int) := by
            rw [zpow_natCast]
            rfl
    have hn : 0 < scaled.1 / scaled.2 := by
      have hlt := ratio_lt_div_add_one hscaled
      rw [hratio] at hlt
      have : (0 : ℚ) < ((scaled.1 / scaled.2 : Nat) : ℚ) := by linarith
      exact_mod_cast this
    have hle := (tenPow_length_le hn).trans (div_le_ratio _)
    rw [hratio] at hle
    have hshift : (0 : ℚ) < 10 ^ (widestShift : Int) := by positivity
    refine le_of_mul_le_mul_right ?_ hshift
    rw [← zpow_add₀ (by norm_num)]
    convert hle using 2
    omega

/-- The decimal with the fewest digits rounds to its double. -/
theorem shortest_readsBack (hb : b.Canonical) (hpos : 0 < b.mantissa) : b.readsBack b.shortest := by
  have hfine : (10 : ℚ) ^ (b.place - (16 : Nat) - 1) < ratio b.upper - ratio b.lower := by
    have hplace := place_le hb hpos
    have hwidth := value_lt_width hb hpos
    have hsplit : (10 : ℚ) ^ (b.place - 1) = 10 ^ 16 * 10 ^ (b.place - (16 : Nat) - 1) := by
      rw [← zpow_natCast, ← zpow_add₀ (by norm_num)]
      congr 1
      push_cast
      omega
    rw [hsplit] at hplace
    have := hplace.trans_lt hwidth
    exact lt_of_mul_lt_mul_left this (by norm_num)
  have hfound := nearest?_isSome hpos hfine
  cases hsome : (List.range mostDigits).findSome? fun n : Nat => b.nearest? (b.place - n - 1) with
  | none =>
    have hnone := List.findSome?_eq_none_iff.mp hsome 16 (by decide)
    rw [hnone] at hfound
    cases hfound
  | some d =>
    have hshortest : b.shortest = d := by
      unfold shortest
      simp only [hsome, Option.getD_some]
    obtain ⟨n, -, hn⟩ := List.exists_of_findSome?_eq_some hsome
    rw [hshortest]
    exact nearest?_readsBack hn

end Binary

end LoxScript.Number
