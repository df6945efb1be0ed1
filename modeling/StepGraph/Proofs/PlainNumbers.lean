/-
Numbers of JSON, read as plain scalars.

Both readers make the same integer of an integer that fits 64 bits.  Of any
other number YAML makes the nearest double, unless it has no fraction and no
exponent: then it must be too large even for 128 bits.  So the readers agree
where JSON, which rounds twice, comes out at the nearest double too.
-/
import StepGraph.Proofs.JsonReading
import StepGraph.Yaml.Scalar

namespace StepGraph.Json.NumberText

/-- The digits in front of the decimal point and behind it. -/
def allDigits (n : NumberText) : List Char := n.whole.chars ++ (n.part.map Digits.chars).getD []

/-- The power of ten of the last digit. -/
def power (n : NumberText) : Int :=
  (n.exponent.map Exponent.value).getD 0 - ((n.part.map Digits.chars).getD []).length

/-- The double nearest to the number. -/
def nearest? (n : NumberText) : Option Double :=
  Double.ofDecimal n.negative (natural n.allDigits) n.power

/-- The digits in front of the decimal point as an integer. -/
def integer (n : NumberText) : Int :=
  if n.negative then -(natural n.whole.chars : Int) else natural n.whole.chars

/-- Whether YAML makes a value of the number: an integer of 64 bits; or the double nearest to what
is written, and if that looks like an integer it is none of up to 128 bits. -/
def ReadsAs (n : NumberText) : Number → Prop
  | .int _ => True
  | .double x =>
      n.nearest? = some x ∧
        (n.part = none → n.exponent = none → Yaml.Scalar.width n.integer = .beyond)

/-- A number that YAML reads alike. -/
def Shared (n : NumberText) : Prop := n.ReadsAs n.value

instance (n : NumberText) : (value : Number) → Decidable (n.ReadsAs value)
  | .int _ => isTrue trivial
  | .double _ => inferInstanceAs (Decidable (_ ∧ _))

instance (n : NumberText) : Decidable n.Shared := inferInstanceAs (Decidable (n.ReadsAs n.value))

/-- The number without its sign. -/
def size (n : NumberText) : List Char := n.whole.chars ++ (n.partChars ++ n.exponentChars)

/-- Whether the number is written as an integer. -/
def isIntegral (n : NumberText) : Prop := n.part = none ∧ n.exponent = none

end StepGraph.Json.NumberText

namespace StepGraph.Yaml.Scalar

open StepGraph.Text (isDigit digitValue hexValue?)
open StepGraph.Json (NumberText Digits natural Stops)

/-! ## Digits -/

theorem digitOf?_of_isDigit {c : Char} (h : isDigit c = true) :
    digitOf? 10 c = some (digitValue c) := by
  have hlt : digitValue c < 10 := by
    have hle : c ≤ '9' := by
      simp only [isDigit, Bool.and_eq_true, decide_eq_true_eq] at h
      exact h.2
    have : c.toNat ≤ 57 := hle
    rw [digitValue]
    omega
  rw [digitOf?, hexValue?, if_pos h]
  simp [hlt]

theorem foldlM_digits : ∀ {ds : List Char} (value : Nat), (∀ c ∈ ds, isDigit c = true) →
    ds.foldlM (fun value c => (digitOf? 10 c).map (value * 10 + ·)) value =
      some (ds.foldl (fun value c => value * 10 + digitValue c) value)
  | [], _, _ => rfl
  | c :: ds, value, h => by
      rw [List.foldlM_cons, digitOf?_of_isDigit (h c List.mem_cons_self)]
      exact foldlM_digits _ fun d hd => h d (List.mem_cons_of_mem _ hd)

theorem natural?_digits {ds : List Char} (hne : ds ≠ []) (h : ∀ c ∈ ds, isDigit c = true) :
    natural? 10 ds = some (natural ds) := by
  rw [natural?]
  · exact foldlM_digits 0 h
  · exact hne

/-- Digits with something else behind them are no natural. -/
theorem natural?_append {ds rest : List Char} {c : Char} (h : ∀ d ∈ ds, isDigit d = true)
    (hc : digitOf? 10 c = none) : natural? 10 (ds ++ c :: rest) = none := by
  rw [natural?]
  · rw [List.foldlM_append, foldlM_digits 0 h]
    simp [hc]
  · simp

/-! ## Integers of 64 bits -/

/-- As long as the digits fit, they are those that were read. -/
theorem scanned_digits : ∀ (ds : List Char) (s : Json.Scanned), s.digits ≤ Json.maxNatural →
    (ds.foldl (fun s c => Json.Scanned.whole s (digitValue c)) s).full = false →
    (ds.foldl (fun s c => Json.Scanned.whole s (digitValue c)) s).digits =
        ds.foldl (fun value c => value * 10 + digitValue c) s.digits ∧
      ds.foldl (fun value c => value * 10 + digitValue c) s.digits ≤ Json.maxNatural ∧
      s.full = false
  | [], s, hs, h => ⟨rfl, hs, h⟩
  | c :: ds, s, hs, h => by
      rw [List.foldl_cons] at h ⊢
      by_cases hfull : s.full = true ∨ Json.maxNatural < s.digits * 10 + digitValue c
      · rw [Json.Scanned.whole, if_pos hfull] at h ⊢
        obtain ⟨-, -, hnot⟩ := scanned_digits ds _ (by exact hs) h
        cases hnot
      · rw [Json.Scanned.whole, if_neg hfull] at h ⊢
        rw [not_or, Bool.not_eq_true, Nat.not_lt] at hfull
        obtain ⟨hdigits, hle, -⟩ := scanned_digits ds _ (by exact hfull.2) h
        exact ⟨hdigits, hle, hfull.1⟩

theorem width_eq_fits {value : Int} (hlow : -9223372036854775808 ≤ value)
    (hhigh : value < 18446744073709551616) : width value = .fits := by
  have hlowest : ((Nat.pow 2 63 : Nat) : Int) = 9223372036854775808 := rfl
  have hhighest : ((Nat.pow 2 64 : Nat) : Int) = 18446744073709551616 := rfl
  rw [width, hlowest, hhighest, if_pos ⟨hlow, hhigh⟩]

/-- An integer stays one if it is written as one and fits 64 bits. -/
theorem integral_of_int {n : NumberText} {i : Int} (h : n.value = .int i) :
    n.isIntegral ∧ i = n.integer ∧ width i = .fits := by
  have hn := n.assembled
  have hall := scanned_digits n.whole.chars ⟨0, 0, false⟩ (Nat.zero_le _)
  rw [h] at hn
  unfold Json.assemble at hn
  simp only at hn hall
  generalize n.whole.chars.foldl (fun s c => Json.Scanned.whole s (digitValue c)) ⟨0, 0, false⟩ =
    scanned at hn hall
  have hshape : ((n.part.map Digits.chars).isNone && (n.exponent.map Json.Exponent.value).isNone &&
      !scanned.full) = true → n.isIntegral ∧ scanned.digits = natural n.whole.chars ∧
        scanned.digits < 2 ^ 64 := by
    intro hs
    simp only [Bool.and_eq_true, Option.isNone_iff_eq_none, Option.map_eq_none_iff,
      Bool.not_eq_true'] at hs
    obtain ⟨hdigits, hle, -⟩ := hall hs.2
    refine ⟨hs.1, hdigits, ?_⟩
    rw [hdigits]
    exact Nat.lt_of_le_of_lt hle (by decide)
  split at hn
  · rename_i hs
    rw [Bool.and_eq_true, Bool.not_eq_true'] at hs
    obtain ⟨hintegral, hdigits, hlt⟩ := hshape hs.1
    obtain rfl := Number.int.inj (Option.some.inj hn)
    refine ⟨hintegral, ?_, width_eq_fits (by omega) (by omega)⟩
    rw [NumberText.integer, hs.2, hdigits]
    rfl
  · rename_i hs
    split at hn
    · rename_i hs'
      rw [Bool.and_eq_true, Bool.and_eq_true, decide_eq_true_eq, decide_eq_true_eq] at hs'
      obtain ⟨⟨hintegers, hpositive⟩, hle⟩ := hs'
      obtain ⟨hintegral, hdigits, hlt⟩ := hshape hintegers
      have hnegative : n.negative = true := by
        rw [hintegers, Bool.true_and] at hs
        simpa using hs
      have hbound : scanned.digits ≤ 2 ^ 63 := hle
      obtain rfl := Number.int.inj (Option.some.inj hn)
      refine ⟨hintegral, ?_, width_eq_fits (by omega) (by omega)⟩
      rw [NumberText.integer, hnegative, hdigits]
      rfl
    · obtain ⟨x, -, hx⟩ := Option.map_eq_some_iff.mp hn
      cases hx

/-! ## The shape of a number -/

variable (n : NumberText)

theorem chars_eq : n.chars = n.signChars ++ n.size := rfl

theorem exists_size : ∃ c rest, n.size = c :: rest ∧ isDigit c = true := by
  obtain ⟨c, rest, hc, hd⟩ := n.whole.exists_cons
  exact ⟨c, rest ++ (n.partChars ++ n.exponentChars), by rw [NumberText.size, hc]; rfl, hd⟩

theorem splitSign_of_isDigit {c : Char} {rest : List Char} (h : isDigit c = true) :
    splitSign (c :: rest) = (false, c :: rest) := by
  unfold splitSign
  split
  · rename_i heq
    obtain ⟨rfl, -⟩ := List.cons.inj heq
    exact absurd h (by decide)
  · rename_i heq
    obtain ⟨rfl, -⟩ := List.cons.inj heq
    exact absurd h (by decide)
  · rfl

theorem splitSign_chars : splitSign n.chars = (n.negative, n.size) := by
  obtain ⟨c, rest, hc, hd⟩ := exists_size n
  rw [chars_eq, NumberText.signChars]
  cases n.negative with
  | true => rfl
  | false => rw [hc]; exact splitSign_of_isDigit hd

/-- Behind the digits of what is not written as an integer there is a point or the mark of an
exponent. -/
theorem size_of_not_integral (h : ¬ n.isIntegral) :
    ∃ c rest, n.size = n.whole.chars ++ c :: rest ∧ (c = '.' ∨ c = 'e' ∨ c = 'E') := by
  rw [NumberText.size, NumberText.partChars, NumberText.exponentChars]
  cases hp : n.part with
  | some part => exact ⟨'.', _, rfl, .inl rfl⟩
  | none =>
      cases he : n.exponent with
      | some e => exact ⟨e.mark, _, rfl, .inr e.marks⟩
      | none => exact absurd ⟨hp, he⟩ h

theorem size_of_integral (h : n.isIntegral) : n.size = n.whole.chars := by
  rw [NumberText.size, NumberText.partChars, NumberText.exponentChars, h.1, h.2]
  exact List.append_nil _

theorem int?_of_integral (h : n.isIntegral) : int? n.chars = some n.integer := by
  have hnatural := natural?_digits n.whole.nonempty n.whole.digit
  have hmagnitude : magnitude? n.size = some (natural n.whole.chars) := by
    rw [size_of_integral n h]
    unfold magnitude?
    split
    · rename_i heq
      exact absurd (n.unpadded _ heq) (List.cons_ne_nil _ _)
    · exact hnatural
  rw [int?, splitSign_chars]
  simp only [hmagnitude]
  rfl

theorem int?_of_not_integral (h : ¬ n.isIntegral) : int? n.chars = none := by
  obtain ⟨c, rest, hsize, hc⟩ := size_of_not_integral n h
  have hdigit : digitOf? 10 c = none := by rcases hc with rfl | rfl | rfl <;> decide
  have hnatural : natural? 10 (n.whole.chars ++ c :: rest) = none :=
    natural?_append n.whole.digit hdigit
  have hmagnitude : magnitude? n.size = none := by
    rw [hsize]
    unfold magnitude?
    split
    · rename_i d more heq
      obtain ⟨first, others, hwhole, -⟩ := n.whole.exists_cons
      rw [hwhole, List.cons_append] at heq
      obtain ⟨rfl, hbehind⟩ := List.cons.inj heq
      obtain rfl := n.unpadded _ hwhole
      obtain ⟨rfl, rfl⟩ := List.cons.inj hbehind
      have hbase : base? c = none := by rcases hc with rfl | rfl | rfl <;> decide
      rw [hbase]
    · exact hnatural
  rw [int?, splitSign_chars]
  simp only [hmagnitude]
  rfl

theorem isPaddedDigits_chars : isPaddedDigits n.chars = false := by
  rw [isPaddedDigits, splitSign_chars]
  by_cases h : n.isIntegral
  · rw [size_of_integral n h]
    split
    · rename_i heq
      exact absurd (n.unpadded _ heq) (List.cons_ne_nil _ _)
    · rfl
  · obtain ⟨c, rest, hsize, hc⟩ := size_of_not_integral n h
    have hdigit : isDigit c = false := by rcases hc with rfl | rfl | rfl <;> decide
    rw [hsize]
    split
    · rename_i d more heq
      have hmem : c ∈ d :: more := by
        obtain ⟨first, others, hwhole, -⟩ := n.whole.exists_cons
        rw [hwhole, List.cons_append] at heq
        obtain ⟨-, hbehind⟩ := List.cons.inj heq
        rw [← hbehind]
        exact List.mem_append_right _ List.mem_cons_self
      rw [List.all_eq_false]
      exact ⟨c, hmem, by simp [hdigit]⟩
    · rfl

/-! ## Doubles -/

theorem readMantissa_size :
    readMantissa n.size =
      some (n.whole.chars, (n.part.map Digits.chars).getD [], n.exponentChars) := by
  have hexponent : Stops (fun c => isDigit c || c = '.') (n.exponentChars ++ []) :=
    Json.stops_exponentChars n .nil
  rw [List.append_nil] at hexponent
  have hdigit : Stops isDigit n.exponentChars := hexponent.imp fun c hc => by simp [hc]
  have hpart : Stops isDigit (n.partChars ++ (n.exponentChars ++ [])) :=
    Json.stops_partChars n .nil
  rw [List.append_nil] at hpart
  have hwhole : n.whole.chars.isEmpty = false := by simpa using n.whole.nonempty
  rw [readMantissa, NumberText.size, Json.takeWhile_run n.whole.digit hpart,
    Json.dropWhile_run n.whole.digit hpart, NumberText.partChars]
  cases hp : n.part with
  | none =>
      simp only [Option.map_none, Option.getD_none, List.nil_append, hwhole]
      split
      · rename_i rest heq
        have hpoint := hexponent '.' (by rw [heq]; rfl)
        simp at hpoint
      · simp
  | some part =>
      simp only [Option.map_some, Option.getD_some, List.cons_append,
        Json.takeWhile_run part.digit hdigit, Json.dropWhile_run part.digit hdigit, hwhole]
      simp

theorem exponent?_chars :
    exponent? n.exponentChars = some ((n.exponent.map Json.Exponent.value).getD 0) := by
  rw [NumberText.exponentChars]
  cases he : n.exponent with
  | none => rfl
  | some e =>
      have hmark : (decide (e.mark = 'e') || decide (e.mark = 'E')) = true := by
        rcases e.marks with h | h <;> simp [h]
      have hsign : splitSign (e.sign.chars ++ e.digits.chars) =
          (e.sign.isMinus, e.digits.chars) := by
        obtain ⟨c, rest, hc, hd⟩ := e.digits.exists_cons
        cases e.sign with
        | none =>
            rw [hc]
            exact splitSign_of_isDigit hd
        | plus => rfl
        | minus => rfl
      have hnatural := natural?_digits e.digits.nonempty e.digits.digit
      simp only [Option.map_some, Option.getD_some, Json.Exponent.chars, exponent?]
      rw [if_pos hmark, hsign]
      simp only [hnatural]
      rw [Json.Exponent.value]
      cases e.sign with
      | none => rfl
      | plus => rfl
      | minus => rfl

theorem decimal?_size : decimal? n.negative n.size = n.nearest? := by
  have hdigits : ∀ c ∈ n.allDigits, isDigit c = true := by
    intro c hc
    rcases List.mem_append.mp hc with hc | hc
    · exact n.whole.digit c hc
    · cases hp : n.part with
      | none =>
          rw [hp] at hc
          cases hc
      | some part =>
          rw [hp] at hc
          exact part.digit c hc
  have hne : n.allDigits ≠ [] := by
    intro h
    exact n.whole.nonempty (List.append_eq_nil_iff.mp h).1
  have hnatural := natural?_digits hne hdigits
  rw [NumberText.allDigits] at hnatural
  rw [decimal?, readMantissa_size]
  simp only [Option.bind_eq_bind, Option.bind_some, exponent?_chars, hnatural]
  rfl

theorem chars_ne {text : String} {c : Char} {rest : List Char} (ht : text.toList = c :: rest)
    (hc : c ≠ '-') (hd : isDigit c = false) : String.ofList n.chars ≠ text := by
  intro h
  obtain ⟨d, more, hchars, hstart⟩ := n.exists_cons
  have heq := congrArg String.toList h
  rw [String.toList_ofList, ht, hchars] at heq
  obtain ⟨rfl, -⟩ := List.cons.inj heq
  rcases hstart with hminus | hdigit
  · exact hc hminus
  · rw [hd] at hdigit
    cases hdigit

theorem size_ne {text : String} {c : Char} {rest : List Char} (ht : text.toList = c :: rest)
    (hd : isDigit c = false) : String.ofList n.size ≠ text := by
  intro h
  obtain ⟨d, more, hsize, hdigit⟩ := exists_size n
  have heq := congrArg String.toList h
  rw [String.toList_ofList, ht, hsize] at heq
  obtain ⟨rfl, -⟩ := List.cons.inj heq
  rw [hd] at hdigit
  cases hdigit

theorem float?_chars :
    float? (String.ofList n.chars) = n.nearest?.map fun x => .finite (.double x) := by
  have hnan : isNan (String.ofList n.chars) = false := by
    simp only [isNan, Bool.or_eq_false_iff, decide_eq_false_iff_not]
    refine ⟨⟨?_, ?_⟩, ?_⟩
    all_goals exact chars_ne n rfl (by decide) (by decide)
  have hinfinity : isInfinity n.size = false := by
    simp only [isInfinity, Bool.or_eq_false_iff, decide_eq_false_iff_not]
    refine ⟨⟨?_, ?_⟩, ?_⟩
    all_goals exact size_ne n rfl (by decide)
  rw [float?, String.toList_ofList, splitSign_chars]
  simp only [hnan, hinfinity, decimal?_size]
  rfl

theorem number?_chars (h : n.Shared) :
    number? (String.ofList n.chars) = some (some (.finite n.value)) := by
  rw [number?, String.toList_ofList, isPaddedDigits_chars, float?_chars]
  rw [NumberText.Shared] at h
  cases hvalue : n.value with
  | int i =>
      obtain ⟨hintegral, rfl, hwidth⟩ := integral_of_int hvalue
      rw [int?_of_integral n hintegral]
      simp only [hwidth]
  | double x =>
      rw [hvalue] at h
      obtain ⟨hnearest, hbeyond⟩ := h
      by_cases hintegral : n.isIntegral
      · rw [int?_of_integral n hintegral, hnearest]
        simp only [hbeyond hintegral.1 hintegral.2]
        rfl
      · rw [int?_of_not_integral n hintegral, hnearest]
        rfl

/-- A shared number is read as the number that it is in JSON. -/
theorem plain?_number (h : n.Shared) :
    plain? (String.ofList n.chars) = some (.number (.finite n.value)) := by
  have hnull : isNull (String.ofList n.chars) = false := by
    simp only [isNull, Bool.or_eq_false_iff, decide_eq_false_iff_not]
    refine ⟨⟨⟨?_, ?_⟩, ?_⟩, ?_⟩
    all_goals exact chars_ne n rfl (by decide) (by decide)
  have hempty : String.ofList n.chars ≠ "" := by
    intro hempty
    obtain ⟨c, more, hc, -⟩ := n.exists_cons
    have heq := congrArg String.toList hempty
    rw [String.toList_ofList, hc] at heq
    cases heq
  have hbool : bool? (String.ofList n.chars) = none := by
    rw [bool?, if_neg, if_neg]
    all_goals
      simp only [Bool.or_eq_true, decide_eq_true_eq, not_or]
      refine ⟨⟨?_, ?_⟩, ?_⟩
      all_goals exact chars_ne n rfl (by decide) (by decide)
  rw [plain?, if_neg (by simp [hempty, hnull]), hbool]
  simp only [number?_chars n h]
  rfl

end StepGraph.Yaml.Scalar
