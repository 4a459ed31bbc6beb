import Mathlib.Data.List.TakeWhile
import Mathlib.Data.Nat.Cast.Field
import LoxScript.Number.Arithmetic
import LoxScript.Number.Display
import LoxScript.Proofs.Intervals

/-!
Numbers from their texts.

The text of a number is read back as a rational. The text of a whole number reads as that number,
and any other text as the shortest decimal of its double; a decimal rounds to one double only, so
the exact text tells all finite doubles without a sign apart, and number literals have none.
-/
namespace LoxScript.Number

def Digits (cs : List Char) : Prop := ∀ c ∈ cs, c.isDigit

/-- The number that digits stand for. -/
def natOf (cs : List Char) : Nat := Nat.ofDigitChars 10 cs 0

/-- The exponent that a text starts with, or zero. -/
def readExponent : List Char → Int
  | 'e' :: '+' :: cs => natOf cs
  | 'e' :: '-' :: cs => -natOf cs
  | _ => 0

/-- The number that a text stands for. -/
def read (cs : List Char) : ℚ :=
  let plain := cs.takeWhile (· != 'e')
  let whole := plain.takeWhile (· != '.')
  let fraction := (plain.dropWhile (· != '.')).drop 1
  natOf (whole ++ fraction) * 10 ^ (readExponent (cs.dropWhile (· != 'e')) - fraction.length)

/-- A text that starts with a digit and has nothing else in it than numbers do. -/
structure Numeral (cs : List Char) : Prop where
  first : ∃ c rest, c.isDigit ∧ cs = c :: rest
  letters : ∀ c ∈ cs, c.isDigit ∨ c ∈ ['.', 'e', '+', '-']

section Digits
variable {cs ds w f e : List Char}

theorem digit_ne {c d : Char} (hc : c.isDigit) (hd : d.isDigit = false) : (c != d) = true := by
  rw [bne_iff_ne]
  rintro rfl
  rw [hc] at hd
  cases hd

theorem Digits.append (hcs : Digits cs) (hds : Digits ds) : Digits (cs ++ ds) :=
  List.forall_mem_append.mpr ⟨hcs, hds⟩

theorem Digits.take (hcs : Digits cs) (n : Nat) : Digits (cs.take n) := fun c hc =>
  hcs c (List.mem_of_mem_take hc)

theorem Digits.drop (hcs : Digits cs) (n : Nat) : Digits (cs.drop n) := fun c hc =>
  hcs c (List.mem_of_mem_drop hc)

theorem digits_replicate (n : Nat) : Digits (List.replicate n '0') := by
  intro c hc
  rw [List.eq_of_mem_replicate hc]
  rfl

theorem digits_toDigits (n : Nat) : Digits (Nat.toDigits 10 n) := fun _ hc =>
  Nat.isDigit_of_mem_toDigits (by decide) (by decide) hc

theorem natOf_append (cs ds : List Char) :
    (natOf (cs ++ ds) : ℚ) = natOf cs * 10 ^ (ds.length : ℤ) + natOf ds := by
  rw [natOf, Nat.ofDigitChars_append, Nat.ofDigitChars_eq_ofDigitChars_zero]
  push_cast
  rw [zpow_natCast, natOf, natOf, mul_comm]

theorem natOf_replicate (n : Nat) : natOf (List.replicate n '0') = 0 := by
  rw [natOf, Nat.ofDigitChars_replicate_zero, Nat.mul_zero]

theorem natOf_toDigits (n : Nat) : natOf (Nat.toDigits 10 n) = n := Nat.ofDigitChars_ten_toDigits

theorem takeWhile_stop {p : Char → Bool} {c : Char} (hcs : ∀ d ∈ cs, p d) (hc : p c = false) :
    (cs ++ c :: ds).takeWhile p = cs ∧ (cs ++ c :: ds).dropWhile p = c :: ds := by
  rw [List.takeWhile_append_of_pos hcs, List.dropWhile_append_of_pos hcs]
  simp [hc]

theorem takeWhile_all {p : Char → Bool} (hcs : ∀ d ∈ cs, p d) :
    cs.takeWhile p = cs ∧ cs.dropWhile p = [] :=
  ⟨List.takeWhile_eq_self_iff.mpr hcs, List.dropWhile_eq_nil_iff.mpr hcs⟩

/-- The parts of a text at the letter for the exponent. -/
theorem cut_exponent (hcs : ∀ c ∈ cs, (c != 'e') = true) (he : e = [] ∨ e.head? = some 'e') :
    (cs ++ e).takeWhile (· != 'e') = cs ∧ (cs ++ e).dropWhile (· != 'e') = e := by
  obtain rfl | he := he
  · rw [List.append_nil]
    exact takeWhile_all hcs
  · obtain ⟨rest, rfl⟩ := List.head?_eq_some_iff.mp he
    exact takeWhile_stop hcs rfl

theorem read_point (hw : Digits w) (hf : Digits f) (he : e = [] ∨ e.head? = some 'e') :
    read (w ++ '.' :: f ++ e) = natOf (w ++ f) * 10 ^ (readExponent e - f.length) := by
  have hplain : ∀ c ∈ w ++ '.' :: f, (c != 'e') = true := by
    intro c hc
    rw [List.mem_append, List.mem_cons] at hc
    obtain hc | rfl | hc := hc
    · exact digit_ne (hw c hc) rfl
    · rfl
    · exact digit_ne (hf c hc) rfl
  obtain ⟨htake, hdrop⟩ := cut_exponent hplain he
  obtain ⟨hwhole, hfraction⟩ : (w ++ '.' :: f).takeWhile (· != '.') = w ∧
      (w ++ '.' :: f).dropWhile (· != '.') = '.' :: f :=
    takeWhile_stop (fun c hc => digit_ne (hw c hc) rfl) rfl
  simp only [read, htake, hdrop, hwhole, hfraction, List.drop_succ_cons, List.drop_zero]

theorem read_whole (hw : Digits w) (he : e = [] ∨ e.head? = some 'e') :
    read (w ++ e) = natOf w * 10 ^ readExponent e := by
  obtain ⟨htake, hdrop⟩ := cut_exponent (fun c hc => digit_ne (hw c hc) rfl) he
  obtain ⟨hwhole, hfraction⟩ : w.takeWhile (· != '.') = w ∧ w.dropWhile (· != '.') = [] :=
    takeWhile_all fun c hc => digit_ne (hw c hc) rfl
  simp only [read, htake, hdrop, hwhole, hfraction, List.drop_nil, List.append_nil,
    List.length_nil, Nat.cast_zero, sub_zero]

theorem read_toDigits (n : Nat) : read (Nat.toDigits 10 n) = n := by
  have h := read_whole (digits_toDigits n) (.inl rfl)
  rw [List.append_nil, natOf_toDigits] at h
  simpa [readExponent] using h

end Digits

section Layouts
variable {digits : List Char}

theorem readExponent_exponentText (width : Nat) (e : Int) :
    readExponent ('e' :: exponentText width e) = e := by
  have hpadded (n : Nat) :
      natOf (List.replicate (width - (Nat.toDigits 10 n).length) '0' ++ Nat.toDigits 10 n) = n := by
    have h := natOf_append (List.replicate (width - (Nat.toDigits 10 n).length) '0')
      (Nat.toDigits 10 n)
    rw [natOf_replicate, natOf_toDigits, Nat.cast_zero, zero_mul, zero_add] at h
    exact_mod_cast h
  unfold exponentText
  simp only [List.cons_append]
  split
  · rw [readExponent, hpadded]
    omega
  · rw [readExponent, hpadded]
    omega

theorem read_positional (hdigits : Digits digits) (place : Int) :
    read (positional digits place) = natOf digits * 10 ^ (place - digits.length) := by
  have hten : (10 : ℚ) ≠ 0 := by norm_num
  unfold positional
  split
  next hplace =>
    have h := read_point (w := ['0']) (e := []) (by simp [Digits])
      ((digits_replicate (-place).toNat).append hdigits) (.inl rfl)
    rw [List.append_nil] at h
    have hzeros : (natOf (['0'] ++ (List.replicate (-place).toNat '0' ++ digits)) : ℚ) =
        natOf digits := by
      rw [← List.append_assoc, natOf_append, ← List.replicate_one, List.replicate_append_replicate,
        natOf_replicate]
      simp
    rw [hzeros] at h
    refine h.trans ?_
    congr 2
    simp only [readExponent, List.length_append, List.length_replicate]
    omega
  next hplace =>
    simp only
    split
    next hnone =>
      have hlength : digits.length ≤ place.toNat :=
        List.drop_eq_nil_iff.mp (List.isEmpty_iff.mp hnone)
      have h := read_point (f := ['0']) (e := [])
        (hdigits.append (digits_replicate (place.toNat - digits.length)))
        (by simp [Digits]) (.inl rfl)
      rw [List.append_nil] at h
      rw [List.take_of_length_le hlength]
      refine h.trans ?_
      rw [List.append_assoc, natOf_append, ← List.replicate_succ', natOf_replicate, Nat.cast_zero,
        add_zero, mul_assoc, ← zpow_add₀ hten]
      congr 2
      simp only [readExponent, List.length_replicate, List.length_singleton]
      omega
    next hsome =>
      have hlength : place.toNat < digits.length := by
        by_contra hle
        exact hsome (List.isEmpty_iff.mpr (List.drop_eq_nil_of_le (not_lt.mp hle)))
      have hfull : place.toNat - (digits.take place.toNat).length = 0 := by
        rw [List.length_take]
        omega
      have h := read_point (e := []) (hdigits.take place.toNat) (hdigits.drop place.toNat)
        (.inl rfl)
      rw [List.append_nil, List.take_append_drop] at h
      rw [hfull, List.replicate_zero, List.append_nil]
      refine h.trans ?_
      congr 2
      simp only [readExponent, List.length_drop]
      omega

theorem read_scientific (width : Nat) (hdigits : Digits digits) (hne : digits ≠ []) (place : Int) :
    read (scientific width digits place) = natOf digits * 10 ^ (place - digits.length) := by
  have hlength := List.length_pos_iff.mpr hne
  unfold scientific
  split
  next hone =>
    have h := read_whole (e := 'e' :: exponentText width (place - 1)) hdigits (.inr rfl)
    rw [List.take_of_length_le hone, List.append_nil, h, readExponent_exponentText]
    congr 2
    omega
  next hmore =>
    have h := read_point (w := digits.take 1) (f := digits.drop 1)
      (e := 'e' :: exponentText width (place - 1)) (hdigits.take 1) (hdigits.drop 1) (.inr rfl)
    rw [h, readExponent_exponentText, List.take_append_drop]
    congr 2
    rw [List.length_drop]
    omega

/-- Both notations stand for the digits with the point at the place. -/
theorem read_write (layout : Layout) (hdigits : Digits digits) (hne : digits ≠ []) (place : Int) :
    read (layout.write digits place) = natOf digits * 10 ^ (place - digits.length) := by
  unfold Layout.write
  split
  · exact read_positional hdigits place
  · exact read_scientific layout.exponentWidth hdigits hne place

/-- A text with a point or an exponent is not one of digits only. -/
theorem not_digits_write (layout : Layout) (digits : List Char) (place : Int) :
    ¬ Digits (layout.write digits place) := by
  intro hall
  have hmark : '.' ∈ layout.write digits place ∨ 'e' ∈ layout.write digits place := by
    unfold Layout.write
    split
    · left
      unfold positional
      split <;> simp
    · right
      simp [scientific]
  obtain hpoint | he := hmark
  · exact absurd (hall _ hpoint) (by decide)
  · exact absurd (hall _ he) (by decide)

end Layouts

section Numerals
variable {digits : List Char}

theorem Digits.numeral (hdigits : Digits digits) (hne : digits ≠ []) : Numeral digits := by
  constructor
  · obtain ⟨c, rest, rfl⟩ := List.exists_cons_of_ne_nil hne
    exact ⟨c, rest, hdigits c List.mem_cons_self, rfl⟩
  · exact fun c hc => .inl (hdigits c hc)

theorem Numeral.append {cs ds : List Char} (hcs : Numeral cs)
    (hds : ∀ c ∈ ds, c.isDigit ∨ c ∈ ['.', 'e', '+', '-']) : Numeral (cs ++ ds) := by
  constructor
  · obtain ⟨c, rest, hc, rfl⟩ := hcs.first
    exact ⟨c, rest ++ ds, hc, rfl⟩
  · exact List.forall_mem_append.mpr ⟨hcs.letters, hds⟩

theorem positional_numeral (hdigits : Digits digits) (hne : digits ≠ []) (place : Int) :
    Numeral (positional digits place) := by
  unfold positional
  split
  next =>
    have hzero : Numeral ['0'] := Digits.numeral (by simp [Digits]) (by simp)
    apply hzero.append
    refine List.forall_mem_cons.mpr ⟨by simp, fun c hc => .inl ?_⟩
    exact (digits_replicate _).append hdigits c hc
  next hplace =>
    have hbefore : digits.take place.toNat ≠ [] := by
      intro hnil
      obtain hzero | hnone := List.take_eq_nil_iff.mp hnil
      · omega
      · exact hne hnone
    refine (((hdigits.take _).append (digits_replicate _)).numeral ?_).append ?_
    · exact fun hnil => hbefore (List.append_eq_nil_iff.mp hnil).1
    · refine List.forall_mem_cons.mpr ⟨by simp, fun c hc => .inl ?_⟩
      split at hc
      · exact digits_replicate 1 c hc
      · exact hdigits.drop _ c hc

theorem scientific_numeral (width : Nat) (hdigits : Digits digits) (hne : digits ≠ [])
    (place : Int) : Numeral (scientific width digits place) := by
  have hfirst : digits.take 1 ≠ [] := by simpa using hne
  unfold scientific
  refine (((hdigits.take 1).numeral hfirst).append ?_).append ?_
  · split
    · simp
    · exact List.forall_mem_cons.mpr ⟨by simp, fun c hc => .inl (hdigits.drop 1 c hc)⟩
  · refine List.forall_mem_cons.mpr ⟨by simp, ?_⟩
    unfold exponentText
    refine List.forall_mem_cons.mpr ⟨?_, fun c hc => .inl ?_⟩
    · split <;> simp
    · exact (digits_replicate _).append (digits_toDigits _) c hc

theorem write_numeral (layout : Layout) (hdigits : Digits digits) (hne : digits ≠ [])
    (place : Int) : Numeral (layout.write digits place) := by
  unfold Layout.write
  split
  · exact positional_numeral hdigits hne place
  · exact scientific_numeral layout.exponentWidth hdigits hne place

end Numerals

namespace Decimal
variable {d : Decimal}

theorem digits_digits (d : Decimal) : Digits d.digits.1 := by
  intro c hc
  have hall : c ∈ Nat.toDigits 10 d.coefficient :=
    List.mem_reverse.mp ((List.dropWhile_sublist _).mem (List.mem_reverse.mp hc))
  exact digits_toDigits _ c hall

/-- The digits without trailing zeros and the place of the point keep the value. -/
theorem value_digits (d : Decimal) :
    (natOf d.digits.1 : ℚ) * 10 ^ (d.digits.2 - d.digits.1.length) = d.value := by
  have hten : (10 : ℚ) ≠ 0 := by norm_num
  simp only [digits, value]
  generalize hall : Nat.toDigits 10 d.coefficient = all
  -- the zeros that are left out
  obtain ⟨n, hzeros⟩ : ∃ n, all = (all.reverse.dropWhile (· = '0')).reverse ++
      List.replicate n '0' := by
    refine ⟨(all.reverse.takeWhile (· = '0')).length, ?_⟩
    rw [← List.reverse_replicate, ← List.eq_replicate_of_mem, ← List.reverse_append,
      List.takeWhile_append_dropWhile, List.reverse_reverse]
    exact fun c hc => by simpa using List.mem_takeWhile_imp hc
  have hcoefficient : (d.coefficient : ℚ) = natOf all := by rw [← hall, natOf_toDigits]
  generalize (all.reverse.dropWhile (· = '0')).reverse = kept at hzeros
  rw [hcoefficient, hzeros, natOf_append, natOf_replicate, Nat.cast_zero, add_zero, mul_assoc,
    ← zpow_add₀ hten]
  congr 2
  simp only [List.length_append, List.length_replicate]
  push_cast
  ring

theorem digits_ne_nil (hd : 0 < d.coefficient) : d.digits.1 ≠ [] := by
  intro hnil
  have hvalue := d.value_digits
  have hpos : 0 < d.value := mul_pos (Nat.cast_pos.mpr hd) (by positivity)
  rw [hnil] at hvalue
  simp only [natOf, Nat.ofDigitChars_nil, Nat.cast_zero, zero_mul] at hvalue
  exact absurd hvalue hpos.ne

end Decimal

namespace Binary
variable {b c : Binary}

/-- The text of a number without its sign. -/
def text (b : Binary) : List Char :=
  match b.whole? with
  | some magnitude => Nat.toDigits 10 magnitude
  | none => standardLayout.write b.shortest.digits.1 b.shortest.digits.2

theorem value_of_whole? {n : Nat} (h : b.whole? = some n) : b.value = n := by
  have hpos : (b.quotient.2 : ℚ) ≠ 0 := Nat.cast_ne_zero.mpr b.quotient_pos.ne'
  unfold whole? at h
  simp only [Option.ite_none_right_eq_some, Option.some.injEq] at h
  obtain ⟨hdvd, rfl⟩ := h
  rw [← ratio_quotient, ratio, Nat.cast_div (Nat.dvd_of_mod_eq_zero hdvd) hpos]

theorem mantissa_pos_of_whole? (h : b.whole? = none) : 0 < b.mantissa := by
  by_contra hzero
  have hmantissa : b.mantissa = 0 := by omega
  by_cases hexponent : 0 ≤ b.exponent <;> simp [whole?, quotient, hmantissa, hexponent] at h

theorem readsBack_congr {d d' : Decimal} (h : d.value = d'.value) :
    b.readsBack d ↔ b.readsBack d' := by
  rw [readsBack_iff, readsBack_iff, h]

/-- The text of a number that is not whole reads as a decimal that rounds to it. -/
theorem read_text_of_whole? (hb : b.Canonical) (h : b.whole? = none) :
    read b.text = b.shortest.value ∧ b.readsBack b.shortest ∧ Numeral b.text := by
  have hpos := mantissa_pos_of_whole? h
  have hreads := shortest_readsBack hb hpos
  have hne := Decimal.digits_ne_nil (coefficient_pos_of_readsBack hpos hreads)
  unfold text
  rw [h]
  refine ⟨?_, hreads, write_numeral _ b.shortest.digits_digits hne _⟩
  rw [read_write _ b.shortest.digits_digits hne, Decimal.value_digits]

theorem text_numeral (hb : b.Canonical) : Numeral b.text := by
  cases h : b.whole? with
  | none => exact (read_text_of_whole? hb h).2.2
  | some n =>
    simp only [text, h]
    exact (digits_toDigits n).numeral Nat.toDigits_ne_nil

theorem digits_text_iff (b : Binary) : Digits b.text ↔ b.whole?.isSome := by
  unfold text
  cases b.whole? with
  | none => simpa using not_digits_write _ _ _
  | some n => simpa using digits_toDigits n

/-- The text of a number is that of no other one. -/
theorem parts_of_text (hb : b.Canonical) (hc : c.Canonical) (h : b.text = c.text) :
    b.mantissa = c.mantissa ∧ b.exponent = c.exponent := by
  have hkind : b.whole?.isSome = c.whole?.isSome := by
    rw [Bool.eq_iff_iff, ← digits_text_iff, ← digits_text_iff, h]
  cases hb? : b.whole? with
  | some n =>
    cases hc? : c.whole? with
    | none => simp [hb?, hc?] at hkind
    | some m =>
      simp only [text, hb?, hc?] at h
      apply parts_of_value hb hc
      rw [value_of_whole? hb?, value_of_whole? hc?, ← read_toDigits, h, read_toDigits]
  | none =>
    cases hc? : c.whole? with
    | some m => simp [hb?, hc?] at hkind
    | none =>
      obtain ⟨hread, hback, -⟩ := read_text_of_whole? hb hb?
      obtain ⟨hread', hback', -⟩ := read_text_of_whole? hc hc?
      have hvalue : b.shortest.value = c.shortest.value := by rw [← hread, ← hread', h]
      exact readsBack_unique hb hc hback ((readsBack_congr hvalue).mpr hback')

end Binary

section Doubles
variable {x y : Float}

theorem split_canonical (x : Float) : (split x).Canonical := by
  have hfraction : x.toBits.toNat % twoPow 52 < 2 ^ 52 := Nat.mod_lt _ (twoPow_pos 52)
  have htwo : twoPow 52 = 2 ^ 52 := rfl
  unfold split
  simp only
  split
  · exact ⟨by simp only; omega, Int.le_refl _, fun _ => rfl⟩
  next hfield =>
    refine ⟨by simp only; omega, ?_, fun hlead => ?_⟩
    · simp only [leastExponent]
      omega
    · simp only at hlead
      omega

theorem float_eq_of_toBits (h : x.toBits = y.toBits) : x = y := by
  obtain ⟨⟨bits, _⟩⟩ := x
  obtain ⟨⟨bits', _⟩⟩ := y
  cases h
  rfl

/-- A double is fixed by its parts. -/
theorem split_injective (h : split x = split y) : x = y := by
  apply float_eq_of_toBits
  apply UInt64.toNat_inj.mp
  have hx := x.toBits.toNat_lt
  have hy := y.toBits.toNat_lt
  have h52 : twoPow 52 = 2 ^ 52 := rfl
  have h11 : twoPow 11 = 2 ^ 11 := rfl
  have h63 : twoPow 63 = 2 ^ 63 := rfl
  unfold split at h
  simp only [h52, h11, h63] at h
  split at h <;> split at h <;>
    simp only [Binary.mk.injEq, decide_eq_decide, leastExponent] at h <;> omega

theorem not_special_of_isFinite (hx : x.isFinite) : x.isNaN = false ∧ x.isInf = false := by
  change x.toModel.unpack.isFinite = true at hx
  change x.toModel.unpack.isNaN = false ∧ x.toModel.unpack.isInf = false
  generalize x.toModel.unpack = u at hx ⊢
  cases u with
  | infinity _ => exact absurd hx Bool.false_ne_true
  | notANumber => exact absurd hx Bool.false_ne_true
  | zero _ => exact ⟨rfl, rfl⟩
  | finite _ _ _ _ => exact ⟨rfl, rfl⟩

/-- A finite double without a sign, written exactly. -/
theorem exact_toList (hx : x.isFinite) (hsign : (split x).negative = false) :
    (exact x).toList = (split x).text := by
  obtain ⟨hnan, hinf⟩ := not_special_of_isFinite hx
  unfold exact whole? Binary.text
  cases hwhole : (split x).whole? with
  | some n => simp [hx, hsign, wholeText, signed]
  | none =>
    have hpos := Binary.mantissa_pos_of_whole? hwhole
    simp only [hx, ↓reduceIte, Option.map_none, identify, hnan, hinf, Bool.false_eq_true, hpos.ne', hsign, signed,
      String.toList_ofList]

/-- The exact text tells finite doubles without a sign apart. -/
theorem exact_injective (hx : x.isFinite) (hy : y.isFinite) (hxs : (split x).negative = false)
    (hys : (split y).negative = false) (h : exact x = exact y) : x = y := by
  have htext : (split x).text = (split y).text := by
    rw [← exact_toList hx hxs, ← exact_toList hy hys, h]
  obtain ⟨hmantissa, hexponent⟩ :=
    Binary.parts_of_text (split_canonical x) (split_canonical y) htext
  apply split_injective
  generalize split x = b, split y = c at *
  obtain ⟨_, _, _⟩ := b
  obtain ⟨_, _, _⟩ := c
  simp_all

theorem exact_numeral (hx : x.isFinite) (hsign : (split x).negative = false) :
    Numeral (exact x).toList := by
  rw [exact_toList hx hsign]
  exact Binary.text_numeral (split_canonical x)

end Doubles

section Signs
open Float.Model (UnpackedFloat Format)
open Float.Model.UnpackedFloat

/-- An unpacked double without a minus sign. -/
def Unsigned : UnpackedFloat → Prop
  | notANumber => True
  | infinity sign => sign = .positive
  | zero sign => sign = .positive
  | finite sign _ _ _ => sign = .positive

theorem unsigned_dite {p : Prop} [Decidable p] {u : p → UnpackedFloat} {v : ¬ p → UnpackedFloat}
    (hu : ∀ h, Unsigned (u h)) (hv : ∀ h, Unsigned (v h)) : Unsigned (dite p u v) := by
  by_cases h : p
  · rw [dif_pos h]
    exact hu h
  · rw [dif_neg h]
    exact hv h

theorem unsigned_ite {p : Prop} [Decidable p] {u v : UnpackedFloat} (hu : Unsigned u)
    (hv : Unsigned v) : Unsigned (if p then u else v) :=
  unsigned_dite (fun _ => hu) fun _ => hv

theorem unsigned_round (spec : Format) (m : Nat) (e : Int) (a : Accuracy) :
    Unsigned (roundWithAccuracy spec .positive m e a) := by
  unfold roundWithAccuracy
  exact unsigned_dite (fun _ => rfl) fun _ => rfl

theorem unsigned_div (spec : Format) {u v : UnpackedFloat} (hu : Unsigned u) (hv : Unsigned v) :
    Unsigned (div spec u v) := by
  cases u <;> cases v <;> cases hu <;> cases hv <;>
    first | exact unsigned_round _ _ _ _ | trivial

theorem unsigned_ofUInt64 (spec : Format) (n : UInt64) : Unsigned (ofUInt64 spec n) := by
  unfold ofUInt64 UnpackedFloat.ofNat UnpackedFloat.ofInt UnpackedFloat.normalize
  split
  next hlt => exact absurd hlt (by simp [Int.compare_eq_lt])
  next => rfl
  next => exact unsigned_round _ _ _ _

theorem unsigned_ofScientific (spec : Format) (m k : Nat) :
    Unsigned (UnpackedFloat.ofScientific spec m (Int.negOfNat k)) := by
  unfold UnpackedFloat.ofScientific
  apply unsigned_dite
  · intro _
    rfl
  · intro _
    apply unsigned_ite
    · rfl
    apply unsigned_ite
    · rfl
    exact unsigned_ite (unsigned_round _ _ _ _) (unsigned_div spec rfl rfl)

/-- The sign bit of a number that is packed without a minus sign. -/
theorem pack_lt {u : UnpackedFloat} (hu : Unsigned u) :
    (Float.Model.pack u).toBits.toNat < 2 ^ 63 := by
  have hcomponents (e : BitVec 11) (m : BitVec 52) :
      (packComponents .binary64 .positive e m).toNat < 2 ^ 63 := by
    have hmsb : (0#1 ++ e ++ m).msb = false := by
      rw [BitVec.msb_append, BitVec.msb_append]
      rfl
    have hhalf : 2 * (0#1 ++ e ++ m).toNat < 2 ^ 64 := BitVec.msb_eq_false_iff_two_mul_lt.mp hmsb
    change (0#1 ++ e ++ m).toNat < 2 ^ 63
    omega
  change (pack .binary64 u).toNat < 2 ^ 63
  cases u with
  | notANumber => exact hcomponents _ _
  | infinity sign =>
    cases hu
    exact hcomponents _ _
  | zero sign =>
    cases hu
    exact hcomponents _ _
  | finite sign m e hm =>
    cases hu
    unfold pack
    simp only
    split
    · exact hcomponents _ _
    · split <;> exact hcomponents _ _

theorem unsigned_unpack {x : Float} (hx : x.toBits.toNat < 2 ^ 63) : Unsigned x.toModel.unpack := by
  have hsign : Sign.ofBitVec (@unpackSign .binary64 x.toBits.toBitVec) = .positive := by
    have hzero : @unpackSign .binary64 x.toBits.toBitVec = 0#1 := by
      apply BitVec.eq_of_toNat_eq
      change (x.toBits.toBitVec.extractLsb 63 63).toNat = 0
      rw [BitVec.extractLsb_toNat, Nat.shiftRight_eq_div_pow]
      change x.toBits.toNat / 2 ^ 63 % 2 ^ 1 = 0
      omega
    rw [hzero]
    rfl
  change Unsigned (unpack .binary64 x.toBits.toBitVec)
  unfold unpack
  apply unsigned_ite
  · exact unsigned_ite hsign trivial
  · exact unsigned_ite (unsigned_dite (fun _ => hsign) fun _ => hsign) hsign

theorem exactPowers_lt :
    ∀ x ∈ Float.exactlyRepresentablePowersOfTen, x.toBits.toNat < 2 ^ 63 := by
  decide +kernel

/-- A number literal has no sign. -/
theorem negative_ofDigits (whole fraction : List Char) :
    (split (ofDigits whole fraction)).negative = false := by
  have hbits : (ofDigits whole fraction).toBits.toNat < 2 ^ 63 := by
    unfold ofDigits Float.ofScientific
    simp only
    split
    · apply pack_lt
      apply unsigned_div
      · exact unsigned_unpack (pack_lt (unsigned_ofUInt64 _ _))
      · exact unsigned_unpack (exactPowers_lt _ (Array.getElem_mem _))
    · exact pack_lt (unsigned_ofScientific _ _ _)
  have hsign : (ofDigits whole fraction).toBits.toNat / twoPow 63 = 0 := Nat.div_eq_of_lt hbits
  unfold split
  simp only [hsign]
  split <;> rfl

end Signs

end LoxScript.Number
