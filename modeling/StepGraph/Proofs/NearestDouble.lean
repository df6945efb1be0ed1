/-
Decimals that are rounded once.

JSON rounds a decimal twice, first its digits and then their product with a
power of ten or the quotient.  Where the digits fit a significand and the power
is exact too, the first rounding changes nothing, so what comes out is the
double nearest to the decimal.
-/
import Mathlib.Data.Nat.Digits.Defs
import StepGraph.Proofs.SharedJson

namespace StepGraph.Double

/-! ## Ratios -/

theorem roundQuotient_mul_left {c : Nat} (hc : 0 < c) (num den : Nat) :
    roundQuotient (c * num) (c * den) = roundQuotient num den := by
  have hmod : 2 * (c * num % (c * den)) = c * (2 * (num % den)) := by
    rw [Nat.mul_mod_mul_left, Nat.mul_left_comm]
  rw [roundQuotient, roundQuotient, Nat.mul_div_mul_left num den hc, hmod]
  simp only [Nat.mul_lt_mul_left hc]

theorem scaleDown_mul_left (base c num den : Nat) (power : Int) :
    scaleDown base (c * num) (c * den) power =
      (c * (scaleDown base num den power).1, c * (scaleDown base num den power).2) := by
  rw [scaleDown, scaleDown]
  split
  · rw [Nat.mul_assoc]
  · rw [Nat.mul_assoc]

theorem log2_pow_mul (k : Nat) {n : Nat} (hn : n ≠ 0) : (2 ^ k * n).log2 = k + n.log2 := by
  induction k with
  | zero => rw [Nat.pow_zero, Nat.one_mul, Nat.zero_add]
  | succ k ih =>
      have hne : 2 ^ k * n ≠ 0 := Nat.mul_ne_zero (Nat.ne_of_gt (Nat.two_pow_pos k)) hn
      rw [Nat.pow_succ, Nat.mul_comm (2 ^ k) 2, Nat.mul_assoc, Nat.log2_two_mul hne, ih]
      omega

theorem floorLog2_pow_mul (k : Nat) {num den : Nat} (hnum : num ≠ 0) (hden : den ≠ 0) :
    floorLog2 (2 ^ k * num) (2 ^ k * den) = floorLog2 num den := by
  have hguess : ((2 ^ k * num).log2 : Int) - ((2 ^ k * den).log2 : Int) =
      (num.log2 : Int) - (den.log2 : Int) := by
    rw [log2_pow_mul k hnum, log2_pow_mul k hden]
    omega
  rw [floorLog2, floorLog2, hguess, scaleDown_mul_left]
  simp only [Nat.mul_le_mul_left_iff (Nat.two_pow_pos k)]

/-- Rounding depends on the ratio only. -/
theorem ofRatio_pow_mul (negative : Bool) (k num : Nat) {den : Nat} (hden : den ≠ 0) :
    ofRatio negative (2 ^ k * num) (2 ^ k * den) = ofRatio negative num den := by
  have hpow := Nat.two_pow_pos k
  by_cases hnum : num = 0
  · rw [hnum, Nat.mul_zero, ofRatio, ofRatio, if_pos rfl, if_pos rfl]
  · have hne : 2 ^ k * num ≠ 0 := Nat.mul_ne_zero (Nat.ne_of_gt hpow) hnum
    rw [ofRatio, ofRatio, if_neg hnum, if_neg hne, floorLog2_pow_mul k hnum hden]
    simp only [scaleDown_mul_left, roundQuotient_mul_left hpow]

theorem withSign_ofRatio (negative : Bool) (num den : Nat) :
    (ofRatio false num den).map (withSign negative) = ofRatio negative num den := by
  rw [ofRatio, ofRatio]
  split
  · rfl
  · simp only [apply_ite (Option.map (withSign negative))]
    rfl

/-! ## Naturals that are doubles -/

/-- The double is the natural itself. -/
def IsNatural (x : Double) (n : Nat) : Prop := x.negative = false ∧ x.ratio.1 = x.ratio.2 * n

instance (x : Double) (n : Nat) : Decidable (x.IsNatural n) := inferInstanceAs (Decidable (_ ∧ _))

theorem exists_ratio_eq (x : Double) : ∃ k, x.ratio.2 = 2 ^ k := by
  rw [ratio]
  split
  · exact ⟨_, rfl⟩
  · exact ⟨0, rfl⟩

variable {x y : Double} {n m : Nat}

/-- A product of naturals is rounded once. -/
theorem IsNatural.mul (hx : x.IsNatural n) (hy : y.IsNatural m) :
    x.mul y = ofRatio false (n * m) 1 := by
  obtain ⟨k, hk⟩ := exists_ratio_eq x
  obtain ⟨j, hj⟩ := exists_ratio_eq y
  have hnum : x.ratio.1 * y.ratio.1 = 2 ^ (k + j) * (n * m) := by
    rw [hx.2, hy.2, hk, hj, Nat.pow_add]
    ring
  have hden : x.ratio.2 * y.ratio.2 = 2 ^ (k + j) * 1 := by
    rw [hk, hj, Nat.pow_add, Nat.mul_one]
  rw [Double.mul, hx.1, hy.1, hnum, hden, ofRatio_pow_mul _ _ _ Nat.one_ne_zero]
  rfl

/-- A quotient of naturals is rounded once. -/
theorem IsNatural.div (hx : x.IsNatural n) (hy : y.IsNatural m) (hm : m ≠ 0) :
    x.div y = ofRatio false n m := by
  obtain ⟨k, hk⟩ := exists_ratio_eq x
  obtain ⟨j, hj⟩ := exists_ratio_eq y
  have hnum : x.ratio.1 * y.ratio.2 = 2 ^ (k + j) * n := by
    rw [hx.2, hk, hj, Nat.pow_add]
    ring
  have hden : x.ratio.2 * y.ratio.1 = 2 ^ (k + j) * m := by
    rw [hy.2, hk, hj, Nat.pow_add]
    ring
  rw [Double.div, hx.1, hy.1, hnum, hden, ofRatio_pow_mul _ _ _ hm]
  rfl

theorem floorLog2_one (hn : n ≠ 0) : floorLog2 n 1 = n.log2 := by
  have hone : Nat.log2 1 = 0 := by decide
  have hle := Nat.log2_self_le hn
  have hscaled : scaleDown 2 n 1 (n.log2 : Int) = (n, 2 ^ n.log2) := by
    rw [scaleDown, if_neg (by omega), Nat.one_mul]
    rfl
  rw [floorLog2, hone]
  simp only [Int.natCast_zero, Int.sub_zero, hscaled]
  rw [if_pos hle]

theorem scaleDown_neg (n k : Nat) : scaleDown 2 n 1 (-(k : Int)) = (n * 2 ^ k, 1) := by
  have habs : (-(k : Int)).natAbs = k := by omega
  rw [scaleDown, habs]
  split
  · rfl
  · obtain rfl : k = 0 := by omega
    show (n, 1) = (n * 1, 1)
    rw [Nat.mul_one]

theorem roundQuotient_one (n : Nat) : roundQuotient n 1 = n := by
  rw [roundQuotient, Nat.mod_one, Nat.div_one]
  rfl

theorem ratio_neg (negative : Bool) (significand k : Nat) :
    ratio ⟨negative, significand, -(k : Int)⟩ = (significand, 2 ^ k) := by
  have habs : (-(k : Int)).natAbs = k := by omega
  rw [ratio]
  simp only [habs]
  split
  · rfl
  · obtain rfl : k = 0 := by omega
    show (significand * 1, 1) = (significand, 1)
    rw [Nat.mul_one]

/-- A natural that fits a significand is a double. -/
theorem isNatural_ofNat? (hn : n ≤ 2 ^ 53) : ∃ x, ofNat? n = some x ∧ x.IsNatural n := by
  by_cases hzero : n = 0
  · subst hzero
    exact ⟨zero false, rfl, rfl, (Nat.mul_zero _).symm⟩
  · by_cases hlast : n = 2 ^ 53
    · subst hlast
      exact ⟨⟨false, 2 ^ 52, 1⟩, by decide +kernel, by decide⟩
    · have hlog : n.log2 < 53 := (Nat.log2_lt hzero).mpr (Nat.lt_of_le_of_ne hn hlast)
      obtain ⟨k, hk⟩ : ∃ k, n.log2 + k = 52 := ⟨52 - n.log2, by omega⟩
      have hexponent : max (floorLog2 n 1 - 52) minExponent = -(k : Int) := by
        rw [floorLog2_one hzero, minExponent]
        omega
      have hfits : n * 2 ^ k < 2 ^ 53 := by
        calc
          n * 2 ^ k < 2 ^ (n.log2 + 1) * 2 ^ k :=
            Nat.mul_lt_mul_of_pos_right Nat.lt_log2_self (Nat.two_pow_pos k)
          _ = 2 ^ 53 := by
            rw [← Nat.pow_add, show n.log2 + 1 + k = 53 by omega]
      refine ⟨⟨false, n * 2 ^ k, -(k : Int)⟩, ?_, rfl, ?_⟩
      · rw [ofNat?, ofRatio, if_neg hzero, hexponent]
        have hsignificand : n * 2 ^ k ≠ Nat.pow 2 53 := Nat.ne_of_lt hfits
        have hrange : ¬ maxExponent < -(k : Int) := by
          show ¬ (971 : Int) < -(k : Int)
          omega
        simp only [scaleDown_neg, roundQuotient_one, if_neg hsignificand, if_neg hrange]
      · rw [ratio_neg]
        exact Nat.mul_comm n _

/-- The powers of ten up to `10 ^ 22` are doubles. -/
theorem isNatural_powerOfTen {power : Nat} (h : power ≤ 22) :
    ∃ x, ofNat? (Nat.pow 10 power) = some x ∧ x.IsNatural (10 ^ power) := by
  have hall : ∀ k < 23, (ofNat? (Nat.pow 10 k)).any fun x => x.IsNatural (10 ^ k) := by
    decide +kernel
  have hpower := hall power (Nat.lt_succ_of_le h)
  cases hx : ofNat? (Nat.pow 10 power) with
  | none =>
      rw [hx] at hpower
      cases hpower
  | some x =>
      rw [hx] at hpower
      exact ⟨x, rfl, of_decide_eq_true hpower⟩

/-! ## Decimals -/

theorem digitCount_le (hn : n ≤ 2 ^ 53) : digitCount n ≤ 16 :=
  Nat.toDigits_length 10 n 16 (by decide) (Nat.lt_of_le_of_lt hn (by decide))

/-- A decimal well inside the range of doubles is one ratio. -/
theorem ofDecimal_eq {exponent : Int} (negative : Bool) (hn : n ≤ 2 ^ 53)
    (he : exponent.natAbs ≤ 22) :
    ofDecimal negative n exponent =
      ofRatio negative (scaleDown 10 n 1 (-exponent)).1 (scaleDown 10 n 1 (-exponent)).2 := by
  have hcount := digitCount_le hn
  rw [ofDecimal]
  by_cases hzero : n = 0
  · subst hzero
    rw [if_pos (.inl rfl), scaleDown]
    split
    · simp only [Nat.zero_mul]
      rw [ofRatio, if_pos rfl]
    · rw [ofRatio, if_pos rfl]
  · rw [if_neg (by omega), if_neg (by omega)]

theorem IsNatural.isZero (h : x.IsNatural n) (hn : n ≠ 0) : x.isZero = false := by
  rw [Double.isZero, decide_eq_false_iff_not]
  intro hzero
  obtain ⟨k, hk⟩ := exists_ratio_eq x
  have hratio : x.ratio.1 = 0 := by
    rw [ratio]
    split
    · exact hzero
    · show x.significand * _ = 0
      rw [hzero, Nat.zero_mul]
  have hproduct := h.2
  rw [hratio, hk] at hproduct
  exact Nat.mul_ne_zero (Nat.ne_of_gt (Nat.two_pow_pos k)) hn hproduct.symm

theorem shiftDown_small (rounds : Nat) (x : Double) {places : Nat} (h : places ≤ 308) :
    Json.shiftDown rounds x places = (ofNat? (Nat.pow 10 places)).bind x.div := by
  rw [Json.shiftDown.eq_def]
  exact if_pos h

/-- With exact digits and an exact power of ten the decimal is rounded once. -/
theorem scale_eq_ofDecimal {power : Int} (negative : Bool) (hn : n ≤ 2 ^ 53)
    (hp : power.natAbs ≤ 22) :
    (Json.scale n power).map (withSign negative) = ofDecimal negative n power := by
  obtain ⟨x, hx, hnatural⟩ := isNatural_ofNat? hn
  obtain ⟨y, hy, hpower⟩ := isNatural_powerOfTen hp
  have hten : 10 ^ power.natAbs ≠ 0 := Nat.ne_of_gt (Nat.pow_pos (by decide))
  rw [ofDecimal_eq negative hn hp, ← withSign_ofRatio, Json.scale, hx]
  congr 1
  show (if power < 0 then _ else _) = _
  by_cases hneg : power < 0
  · have hscaled : scaleDown 10 n 1 (-power) = (n, 10 ^ power.natAbs) := by
      rw [scaleDown, if_neg (by omega), Int.natAbs_neg, Nat.one_mul]
      rfl
    rw [if_pos hneg, shiftDown_small 3 x (by omega), hy, Option.bind_some, hnatural.div hpower hten,
      hscaled]
  · have hscaled : scaleDown 10 n 1 (-power) = (n * 10 ^ power.natAbs, 1) := by
      rw [scaleDown, Int.natAbs_neg]
      split
      · rfl
      · obtain rfl : power = 0 := by omega
        show (n, 1) = (n * 1, 1)
        rw [Nat.mul_one]
    rw [if_neg hneg, hscaled]
    by_cases hzero : n = 0
    · subst hzero
      obtain rfl : zero false = x := Option.some.inj hx
      rw [if_pos (show (zero false).isZero = true from rfl), Nat.zero_mul, ofRatio, if_pos rfl]
    · rw [if_neg (by rw [hnatural.isZero hzero]; exact Bool.false_ne_true), if_neg (by omega)]
      show (ofNat? (Nat.pow 10 power.natAbs)).bind x.mul = _
      rw [hy, Option.bind_some, hnatural.mul hpower]

end StepGraph.Double

namespace StepGraph.Json

open StepGraph.Text (isDigit digitValue)

/-! ## Numbers -/

theorem le_foldl_digits (ds : List Char) (value : Nat) :
    value ≤ ds.foldl (fun value c => value * 10 + digitValue c) value := by
  induction ds generalizing value with
  | nil => exact Nat.le_refl value
  | cons c ds ih =>
      have hrest := ih (value * 10 + digitValue c)
      rw [List.foldl_cons]
      omega

/-- Digits in front of the point that fit 64 bits are all kept. -/
theorem foldl_whole (ds : List Char) (s : Scanned) (hs : s.full = false)
    (h : ds.foldl (fun value c => value * 10 + digitValue c) s.digits ≤ maxNatural) :
    ds.foldl (fun s c => Scanned.whole s (digitValue c)) s =
      { s with digits := ds.foldl (fun value c => value * 10 + digitValue c) s.digits } := by
  induction ds generalizing s with
  | nil => rfl
  | cons c ds ih =>
      rw [List.foldl_cons] at h
      have hfits := Nat.le_trans (le_foldl_digits ds _) h
      have hstep : Scanned.whole s (digitValue c) =
          { s with digits := s.digits * 10 + digitValue c } := by
        rw [Scanned.whole, if_neg]
        rw [hs, not_or, Nat.not_lt]
        exact ⟨Bool.false_ne_true, hfits⟩
      rw [List.foldl_cons, List.foldl_cons, hstep,
        ih { s with digits := s.digits * 10 + digitValue c } hs h]

/-- Digits behind the point that fit 64 bits are all kept, and each lowers the power. -/
theorem foldl_part (ds : List Char) (s : Scanned) (hs : s.full = false)
    (h : ds.foldl (fun value c => value * 10 + digitValue c) s.digits ≤ maxNatural) :
    ds.foldl (fun s c => Scanned.part s (digitValue c)) s =
      { s with
        digits := ds.foldl (fun value c => value * 10 + digitValue c) s.digits
        power := s.power - ds.length } := by
  induction ds generalizing s with
  | nil =>
      rw [List.length_nil, Int.natCast_zero, Int.sub_zero]
      rfl
  | cons c ds ih =>
      rw [List.foldl_cons] at h
      have hfits := Nat.le_trans (le_foldl_digits ds _) h
      have hstep : Scanned.part s (digitValue c) =
          { s with digits := s.digits * 10 + digitValue c, power := s.power - 1 } := by
        rw [Scanned.part, if_neg]
        rw [hs, not_or, Nat.not_lt]
        exact ⟨Bool.false_ne_true, hfits⟩
      have hpower : s.power - 1 - (ds.length : Int) = s.power - ((c :: ds).length : Nat) := by
        rw [List.length_cons]
        omega
      rw [List.foldl_cons, List.foldl_cons, hstep,
        ih { s with digits := s.digits * 10 + digitValue c, power := s.power - 1 } hs h]
      simp only [hpower]

theorem natural_append (ds others : List Char) :
    natural (ds ++ others) =
      others.foldl (fun value c => value * 10 + digitValue c) (natural ds) := List.foldl_append

/-- What a number is with digits that fit 64 bits. -/
theorem assemble_of_fits {negative : Bool} {whole : List Char} {part : Option (List Char)}
    {exponent : Option Int} (h : natural (whole ++ part.getD []) ≤ maxNatural) :
    assemble negative whole part exponent =
      if (part.isNone && exponent.isNone) = true ∧ negative = false then
        some (.int (natural whole))
      else if (part.isNone && exponent.isNone) = true ∧ 0 < natural whole ∧
          natural whole ≤ Nat.pow 2 63 then
        some (.int (-natural whole))
      else
        (scale (natural (whole ++ part.getD []))
            (exponent.getD 0 - (part.getD []).length)).map fun x =>
          .double (x.withSign negative) := by
  rw [natural_append] at h ⊢
  have hwhole : natural whole ≤ maxNatural := Nat.le_trans (le_foldl_digits _ _) h
  have hscanned := foldl_whole whole ⟨0, 0, false⟩ rfl hwhole
  have hpart := foldl_part (part.getD []) ⟨natural whole, 0, false⟩ rfl h
  have hpower : (0 : Int) - (part.getD []).length + exponent.getD 0 =
      exponent.getD 0 - (part.getD []).length := by omega
  have hnatural : whole.foldl (fun value c => value * 10 + digitValue c) 0 = natural whole := rfl
  rw [assemble, hscanned]
  simp only [hnatural, hpart, hpower, Bool.not_false, Bool.and_true, Bool.and_eq_true,
    Bool.not_eq_true', decide_eq_true_eq, and_assoc]

/-- A number with at most `2 ^ 53` in its digits, shifted by at most 22 places, that is no negative
zero written as an integer. -/
structure NumberText.Small (n : NumberText) : Prop where
  digits : natural n.allDigits ≤ 2 ^ 53
  power : n.power.natAbs ≤ 22
  nonzero : n.part = none → n.exponent = none → n.negative = true → natural n.whole.chars ≠ 0

instance (n : NumberText) : Decidable n.Small :=
  decidable_of_iff
    (natural n.allDigits ≤ 2 ^ 53 ∧ n.power.natAbs ≤ 22 ∧
      (n.part.isNone → n.exponent.isNone → n.negative = true → natural n.whole.chars ≠ 0))
    ⟨fun h => ⟨h.1, h.2.1, fun hp he => h.2.2 (by rw [hp]; rfl) (by rw [he]; rfl)⟩,
      fun h => ⟨h.digits, h.power, fun hp he =>
        h.nonzero (Option.isNone_iff_eq_none.mp hp) (Option.isNone_iff_eq_none.mp he)⟩⟩

theorem NumberText.Small.fits {n : NumberText} (h : n.Small) : natural n.allDigits ≤ maxNatural :=
  Nat.le_trans h.digits (by decide)

theorem NumberText.Small.whole_le {n : NumberText} (h : n.Small) :
    natural n.whole.chars ≤ 2 ^ 53 := by
  have hdigits := h.digits
  rw [NumberText.allDigits, natural_append] at hdigits
  exact Nat.le_trans (le_foldl_digits _ _) hdigits

/-- A small number that is written as an integer is one. -/
theorem NumberText.Small.exists_int {n : NumberText} (h : n.Small) (hi : n.isIntegral) :
    ∃ i, n.value = .int i := by
  have hnone : ((n.part.map Digits.chars).isNone &&
      (n.exponent.map Exponent.value).isNone) = true := by
    rw [hi.1, hi.2]
    rfl
  have hassembled := n.assembled
  rw [assemble_of_fits h.fits] at hassembled
  cases hnegative : n.negative with
  | false =>
      rw [if_pos ⟨hnone, hnegative⟩] at hassembled
      exact ⟨_, (Option.some.inj hassembled).symm⟩
  | true =>
      have hpositive := Nat.pos_of_ne_zero (h.nonzero hi.1 hi.2 hnegative)
      have hlast : natural n.whole.chars ≤ Nat.pow 2 63 := Nat.le_trans h.whole_le (by decide)
      rw [if_neg (by rw [hnegative]; exact fun hfalse => nomatch hfalse.2),
        if_pos ⟨hnone, hpositive, hlast⟩] at hassembled
      exact ⟨_, (Option.some.inj hassembled).symm⟩

/-- A small number is read alike. -/
theorem NumberText.shared_of_small {n : NumberText} (h : n.Small) : n.Shared := by
  rw [NumberText.Shared]
  cases hvalue : n.value with
  | int i => trivial
  | double x =>
      have hassembled := n.assembled
      rw [assemble_of_fits h.fits, hvalue] at hassembled
      -- the integers among the results are no doubles
      split at hassembled
      · cases hassembled
      · split at hassembled
        · cases hassembled
        · constructor
          · rw [NumberText.nearest?, ← Double.scale_eq_ofDecimal n.negative h.digits h.power]
            obtain ⟨y, hy, hx⟩ := Option.map_eq_some_iff.mp hassembled
            obtain rfl := Number.double.inj hx
            rw [Option.map_eq_some_iff]
            exact ⟨y, hy, rfl⟩
          · intro hpart hexponent
            obtain ⟨i, hint⟩ := h.exists_int ⟨hpart, hexponent⟩
            cases hvalue.symm.trans hint

/-- In a text with small numbers these are read alike. -/
theorem WrittenText.shared_of_small {w : WrittenText} (h : w.SharedIf NumberText.Small) :
    w.Shared :=
  ⟨h.root.mono fun _ => NumberText.shared_of_small, h.before, h.after⟩

end StepGraph.Json
