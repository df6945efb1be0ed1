/-
What the reader of JSON makes of a text that a tree writes: the tree's document.

The parts of a text are read one by one, each with anything behind it that
does not prolong it.  Only a number can be prolonged, so only there it matters
what follows.
-/
import Mathlib.Data.List.TakeWhile
import StepGraph.Proofs.WrittenJson

namespace StepGraph.Json

open StepGraph.Text (isDigit hexValue?)

/-! ## Where a run of characters ends -/

/-- The list does not go on with something of the class. -/
def Stops {α : Type} (p : α → Bool) (rest : List α) : Prop :=
  ∀ a, rest.head? = some a → p a = false

section Stops

variable {α : Type} {p q : α → Bool} {run rest : List α}

theorem Stops.nil : Stops p [] := by
  rintro a ha
  cases ha

theorem Stops.cons {a : α} (h : p a = false) : Stops p (a :: rest) := by
  rintro b hb
  obtain rfl := Option.some.inj hb
  exact h

theorem Stops.imp (h : Stops q rest) (hpq : ∀ a, p a = true → q a = true) : Stops p rest := by
  intro a ha
  have hq := h a ha
  cases hp : p a with
  | false => rfl
  | true => exact absurd (hpq a hp) (by simp [hq])

theorem takeWhile_run (hp : ∀ a ∈ run, p a = true) (h : Stops p rest) :
    (run ++ rest).takeWhile p = run := by
  rw [List.takeWhile_append_of_pos hp]
  cases rest with
  | nil => exact List.append_nil run
  | cons a rest => rw [List.takeWhile_cons_of_neg (by simp [h a rfl]), List.append_nil]

theorem dropWhile_run (hp : ∀ a ∈ run, p a = true) (h : Stops p rest) :
    (run ++ rest).dropWhile p = rest := by
  rw [List.dropWhile_append_of_pos hp]
  cases rest with
  | nil => rfl
  | cons a rest => rw [List.dropWhile_cons_of_neg (by simp [h a rfl])]

theorem stops_dropWhile (l : List α) : Stops p (l.dropWhile p) := by
  intro a ha
  have h := List.head?_dropWhile_not p l
  rw [ha] at h
  simpa using h

/-- Every list is a run of the class and what stops it. -/
theorem exists_run (p : α → Bool) (l : List α) :
    ∃ run rest, l = run ++ rest ∧ (∀ a ∈ run, p a = true) ∧ Stops p rest :=
  ⟨l.takeWhile p, l.dropWhile p, List.takeWhile_append_dropWhile.symm,
    fun _ ha => List.mem_takeWhile_imp ha, stops_dropWhile l⟩

end Stops

theorem skipBlanks_append (gap : Blanks) (text : List Char) :
    skipBlanks (gap.chars ++ text) = skipBlanks text :=
  List.dropWhile_append_of_pos gap.blank

theorem skipBlanks_of_stops {text : List Char} (h : Stops isBlank text) : skipBlanks text = text := by
  have hrun : ([] ++ text).dropWhile isBlank = text := dropWhile_run (List.forall_mem_nil _) h
  exact hrun

theorem skipBlanks_cons {c : Char} (text : List Char) (h : isBlank c = false) :
    skipBlanks (c :: text) = c :: text :=
  skipBlanks_of_stops (.cons h)

/-! ## Numbers -/

theorem digits_append (ds : Digits) {rest : List Char} (h : Stops isDigit rest) :
    digits (ds.chars ++ rest) = (ds.chars, rest) := by
  rw [digits, takeWhile_run ds.digit h, dropWhile_run ds.digit h]

/-- Characters that a number may go on with. -/
def continuesNumber (c : Char) : Bool := isDigit c || c = '.' || c = 'e' || c = 'E'

theorem Digits.exists_cons (ds : Digits) :
    ∃ c rest, ds.chars = c :: rest ∧ isDigit c = true := by
  obtain ⟨c, rest, h⟩ := List.exists_cons_of_ne_nil ds.nonempty
  exact ⟨c, rest, h, ds.digit c (h ▸ List.mem_cons_self)⟩

theorem wholePart_append (n : NumberText) {rest : List Char} (h : Stops isDigit rest) :
    wholePart (n.whole.chars ++ rest) = some (n.whole.chars, rest) := by
  rw [wholePart, digits_append n.whole h]
  split
  · rename_i heq
    exact absurd (Prod.mk.inj heq).1 n.whole.nonempty
  · rename_i heq
    exact absurd (n.unpadded _ (Prod.mk.inj heq).1) (List.cons_ne_nil _ _)
  · rename_i heq
    obtain ⟨rfl, rfl⟩ := Prod.mk.inj heq
    rfl

theorem fractionPart_append (n : NumberText) {rest : List Char}
    (h : Stops (fun c => isDigit c || c = '.') rest) :
    fractionPart (n.partChars ++ rest) = some (n.part.map Digits.chars, rest) := by
  have hdigit : Stops isDigit rest := h.imp fun c hc => by simp [hc]
  cases hp : n.part with
  | none =>
      rw [NumberText.partChars, hp]
      cases rest with
      | nil => rfl
      | cons c rest =>
          have hc := h c rfl
          show fractionPart (c :: rest) = _
          unfold fractionPart
          split
          · rename_i heq
            obtain ⟨rfl, -⟩ := List.cons.inj heq
            simp at hc
          · rfl
  | some part =>
      rw [NumberText.partChars, hp]
      show fractionPart ('.' :: (part.chars ++ rest)) = _
      rw [fractionPart, digits_append part hdigit]
      split
      · rename_i heq
        exact absurd (Prod.mk.inj heq).1 part.nonempty
      · rename_i heq
        obtain ⟨rfl, rfl⟩ := Prod.mk.inj heq
        rfl

theorem exponentSign_append (e : Exponent) (rest : List Char) :
    exponentSign (e.sign.chars ++ (e.digits.chars ++ rest)) =
      (e.sign.isMinus, e.digits.chars ++ rest) := by
  obtain ⟨c, more, hc, hd⟩ := e.digits.exists_cons
  cases e.sign with
  | plus => rfl
  | minus => rfl
  | none =>
      show exponentSign (e.digits.chars ++ rest) = _
      rw [hc]
      unfold exponentSign
      split
      · rename_i heq
        obtain ⟨rfl, -⟩ := List.cons.inj heq
        exact absurd hd (by decide)
      · rename_i heq
        obtain ⟨rfl, -⟩ := List.cons.inj heq
        exact absurd hd (by decide)
      · rfl

theorem exponentPart_append (n : NumberText) {rest : List Char} (h : Stops continuesNumber rest) :
    exponentPart (n.exponentChars ++ rest) = some (n.exponent.map Exponent.value, rest) := by
  have hdigit : Stops isDigit rest := h.imp fun c hc => by simp [continuesNumber, hc]
  cases he : n.exponent with
  | none =>
      rw [NumberText.exponentChars, he]
      cases rest with
      | nil => rfl
      | cons c rest =>
          have hc := h c rfl
          simp only [continuesNumber, Bool.or_eq_false_iff, decide_eq_false_iff_not] at hc
          show exponentPart (c :: rest) = _
          rw [exponentPart, if_neg (by simp [hc])]
          rfl
  | some e =>
      have hmark : (decide (e.mark = 'e') || decide (e.mark = 'E')) = true := by
        rcases e.marks with h | h
        · simp [h]
        · simp [h]
      have hchars : n.exponentChars ++ rest =
          e.mark :: (e.sign.chars ++ (e.digits.chars ++ rest)) := by
        simp [NumberText.exponentChars, he, Exponent.chars]
      rw [hchars, exponentPart, if_pos hmark, exponentSign_append e rest]
      simp only [digits_append e.digits hdigit]
      split
      · rename_i heq
        exact absurd (Prod.mk.inj heq).1 e.digits.nonempty
      · rename_i heq
        obtain ⟨rfl, rfl⟩ := Prod.mk.inj heq
        rw [Option.map_some, Exponent.value]
        cases e.sign with
        | none => rfl
        | plus => rfl
        | minus => rfl

theorem stops_exponentChars (n : NumberText) {rest : List Char} (h : Stops continuesNumber rest) :
    Stops (fun c => isDigit c || c = '.') (n.exponentChars ++ rest) := by
  rw [NumberText.exponentChars]
  cases n.exponent with
  | none =>
      refine h.imp fun c hc => ?_
      simp only [continuesNumber, Bool.or_assoc] at hc ⊢
      rw [← Bool.or_assoc, hc, Bool.true_or]
  | some e =>
      refine .cons ?_
      rcases e.marks with hm | hm
      · rw [hm]
        decide
      · rw [hm]
        decide

theorem stops_partChars (n : NumberText) {rest : List Char} (h : Stops continuesNumber rest) :
    Stops isDigit (n.partChars ++ (n.exponentChars ++ rest)) := by
  rw [NumberText.partChars]
  cases n.part with
  | none => exact (stops_exponentChars n h).imp fun c hc => by simp [hc]
  | some part => exact .cons (by decide)

/-- Reads a number behind its sign. -/
def readSize (negative : Bool) (text : List Char) : Option (Number × List Char) := do
  let (whole, text) ← wholePart text
  let (part, text) ← fractionPart text
  let (exponent, text) ← exponentPart text
  return (← assemble negative whole part exponent, text)

theorem readNumber_minus (text : List Char) : readNumber ('-' :: text) = readSize true text := rfl

theorem readNumber_of_ne {text : List Char} (h : text.head? ≠ some '-') :
    readNumber text = readSize false text := by
  rw [readNumber]
  · rfl
  · rintro rest rfl
    exact h rfl

theorem readSize_append (n : NumberText) {rest : List Char} (h : Stops continuesNumber rest) :
    readSize n.negative (n.whole.chars ++ (n.partChars ++ (n.exponentChars ++ rest))) =
      some (n.value, rest) := by
  simp only [readSize, wholePart_append n (stops_partChars n h),
    fractionPart_append n (stops_exponentChars n h), exponentPart_append n h, n.assembled,
    Option.bind_eq_bind, Option.bind_some, pure]

theorem readNumber_append (n : NumberText) {rest : List Char} (h : Stops continuesNumber rest) :
    readNumber (n.chars ++ rest) = some (n.value, rest) := by
  have hsize := readSize_append n h
  rw [NumberText.chars, NumberText.signChars]
  simp only [List.append_assoc]
  cases hn : n.negative with
  | true =>
      rw [hn] at hsize
      exact hsize
  | false =>
      rw [hn] at hsize
      obtain ⟨c, more, hc, hd⟩ := n.whole.exists_cons
      refine (readNumber_of_ne ?_).trans hsize
      rw [hc]
      rintro hminus
      obtain rfl := Option.some.inj hminus
      exact absurd hd (by decide)

/-! ## Text -/

theorem hexFour_append {digits : List Char} {code : Nat} (h : hexFour digits = some (code, []))
    (rest : List Char) : hexFour (digits ++ rest) = some (code, rest) := by
  match digits, h with
  | a :: b :: c :: d :: more, h =>
      simp only [hexFour, Option.bind_eq_bind, Option.bind_eq_some_iff, pure, Option.some.injEq,
        Prod.mk.injEq, List.cons_append] at h ⊢
      obtain ⟨x, hx, y, hy, z, hz, w, hw, rfl, rfl⟩ := h
      exact ⟨x, hx, y, hy, z, hz, w, hw, rfl, rfl⟩

theorem readUnicode_unit (four : CodeUnit)
    (h : isHighSurrogate four.code = false ∧ isLowSurrogate four.code = false)
    (rest : List Char) :
    readUnicode (four.digits ++ rest) = some (Char.ofNat four.code, rest) := by
  simp only [isHighSurrogate, isLowSurrogate, Bool.and_eq_false_iff, decide_eq_false_iff_not] at h
  rw [readUnicode, hexFour_append four.reads]
  simp only [Option.bind_eq_bind, Option.bind_some]
  rw [if_neg (by omega), if_neg (by omega)]

theorem readUnicode_pair (high low : CodeUnit)
    (h : isHighSurrogate high.code = true ∧ isLowSurrogate low.code = true) (rest : List Char) :
    readUnicode (high.digits ++ '\\' :: 'u' :: (low.digits ++ rest)) =
      some (Char.ofNat (0x10000 + (high.code - 0xD800) * 0x400 + (low.code - 0xDC00)), rest) := by
  simp only [isHighSurrogate, isLowSurrogate, Bool.and_eq_true, decide_eq_true_eq] at h
  rw [readUnicode, hexFour_append high.reads]
  simp only [Option.bind_eq_bind, Option.bind_some]
  rw [if_neg (by omega), if_pos (by omega)]
  simp only [hexFour_append low.reads, Option.bind_some]
  rw [if_pos (by omega)]

theorem shortEscape?_ne {letter c : Char} (h : shortEscape? letter = some c) : letter ≠ 'u' := by
  rintro rfl
  have hnone : shortEscape? 'u' = none := by decide
  rw [hnone] at h
  cases h

/-- Reads one character between quotes. -/
def readLetter (c : Char) (text : List Char) : Option (Char × List Char) :=
  if c = '\\' then
    match text with
    | 'u' :: text => readUnicode text
    | letter :: text => (shortEscape? letter).map (·, text)
    | [] => none
  else some (c, text)

theorem readLetter_short {letter : Char} (h : letter ≠ 'u') (text : List Char) :
    readLetter '\\' (letter :: text) = (shortEscape? letter).map (·, text) := by
  rw [readLetter.eq_def, if_pos rfl]
  split
  · rename_i heq
    exact absurd (List.cons.inj heq).1 h
  · rename_i heq
    obtain ⟨rfl, rfl⟩ := List.cons.inj heq
    rfl
  · rename_i heq
    exact absurd heq (List.cons_ne_nil _ _)

theorem readChars_cons {c : Char} (hquote : c ≠ '"') (hcontrol : ¬ c.toNat < 32) (fuel : Nat)
    (text : List Char) :
    readChars (fuel + 1) (c :: text) = do
      let (c, text) ← readLetter c text
      let (cs, text) ← readChars fuel text
      return (c :: cs, text) := by
  rw [readChars, if_neg hquote, if_neg hcontrol]
  by_cases hslash : c = '\\'
  · subst hslash
    rw [if_pos rfl]
    split
    · rfl
    · rename_i hne
      rw [readLetter_short hne]
    · rfl
  · rw [if_neg hslash, readLetter.eq_def, if_neg hslash]

theorem readChars_letter (letter : Letter) (fuel : Nat) (rest : List Char) :
    readChars (fuel + 1) (letter.chars ++ rest) = do
      let (cs, text) ← readChars fuel rest
      return (letter.char :: cs, text) := by
  cases letter with
  | plain c free =>
      obtain ⟨hquote, hslash, hcontrol⟩ := free
      show readChars (fuel + 1) (c :: rest) = _
      have hletter : readLetter c rest = some (c, rest) := if_neg hslash
      rw [readChars_cons hquote (by omega), hletter]
      rfl
  | short letter c stands =>
      show readChars (fuel + 1) ('\\' :: letter :: rest) = _
      have hletter : readLetter '\\' (letter :: rest) = some (c, rest) := by
        unfold readLetter
        rw [if_pos rfl]
        split
        · rename_i heq
          exact absurd (List.cons.inj heq).1 (shortEscape?_ne stands)
        · rename_i heq
          obtain ⟨rfl, rfl⟩ := List.cons.inj heq
          rw [stands]
          rfl
        · rename_i heq
          exact absurd heq (List.cons_ne_nil _ _)
      rw [readChars_cons (by decide) (by decide), hletter]
      rfl
  | unit four single =>
      show readChars (fuel + 1) ('\\' :: 'u' :: (four.digits ++ rest)) = _
      have hletter : readLetter '\\' ('u' :: (four.digits ++ rest)) = _ :=
        readUnicode_unit four single rest
      rw [readChars_cons (by decide) (by decide), hletter]
      rfl
  | pair high low paired =>
      have hchars : (Letter.pair high low paired).chars ++ rest =
          '\\' :: 'u' :: (high.digits ++ '\\' :: 'u' :: (low.digits ++ rest)) := by
        simp [Letter.chars]
      have hletter : readLetter '\\' ('u' :: (high.digits ++ '\\' :: 'u' :: (low.digits ++ rest))) =
          _ := readUnicode_pair high low paired rest
      rw [hchars, readChars_cons (by decide) (by decide), hletter]
      rfl

theorem readChars_letters : ∀ (letters : Letters) {fuel : Nat} (rest : List Char),
    letters.length < fuel →
    readChars fuel (letters.chars ++ '"' :: rest) = some (letters.map Letter.char, rest)
  | [], fuel + 1, rest, _ => by
      show readChars (fuel + 1) ('"' :: rest) = _
      rw [readChars, if_pos rfl]
      rfl
  | letter :: letters, fuel + 1, rest, h => by
      have hchars : Letters.chars (letter :: letters) ++ '"' :: rest =
          letter.chars ++ (Letters.chars letters ++ '"' :: rest) := by
        simp [Letters.chars]
      rw [hchars, readChars_letter, readChars_letters letters rest (Nat.lt_of_succ_lt_succ h)]
      rfl

theorem Letters.length_le (letters : Letters) : letters.length ≤ letters.chars.length := by
  induction letters with
  | nil => exact Nat.zero_le _
  | cons letter letters ih =>
      have hone : 0 < letter.chars.length := by
        cases letter with
        | plain c free => exact Nat.one_pos
        | short letter c stands => exact Nat.two_pos
        | unit four single => exact Nat.succ_pos _
        | pair high low paired => exact Nat.succ_pos _
      simp only [Letters.chars, List.flatMap_cons, List.length_append, List.length_cons] at ih ⊢
      omega

theorem readText_append (letters : Letters) (rest : List Char) :
    readText (letters.chars ++ '"' :: rest) = some (letters.text, rest) := by
  have hfuel : letters.length < (letters.chars ++ '"' :: rest).length + 1 := by
    have := letters.length_le
    simp only [List.length_append, List.length_cons]
    omega
  rw [readText, readChars_letters letters rest hfuel]
  rfl

/-! ## Documents -/

/-- A character that a document starts with. -/
def startsDocument (c : Char) : Bool :=
  c = '"' || c = '[' || c = '{' || c = '-' || isDigit c || c = 'n' || c = 't' || c = 'f'

theorem isBlank_of_startsDocument {c : Char} (h : startsDocument c = true) : isBlank c = false := by
  rw [Bool.eq_false_iff]
  intro hb
  simp only [isBlank, Bool.or_eq_true, decide_eq_true_eq] at hb
  rcases hb with ((rfl | rfl) | rfl) | rfl
  all_goals exact absurd h (by decide)

theorem startsDocument_of_isDigit {c : Char} (h : isDigit c = true) : startsDocument c = true := by
  simp [startsDocument, h]

theorem NumberText.exists_cons (n : NumberText) :
    ∃ c more, n.chars = c :: more ∧ (c = '-' ∨ isDigit c = true) := by
  obtain ⟨c, more, hc, hd⟩ := n.whole.exists_cons
  rw [NumberText.chars, NumberText.signChars, hc]
  cases n.negative with
  | true => exact ⟨'-', _, rfl, .inl rfl⟩
  | false => exact ⟨c, _, rfl, .inr hd⟩

theorem Written.exists_cons (w : Written) :
    ∃ c more, w.chars = c :: more ∧ startsDocument c = true := by
  cases w with
  | null => exact ⟨_, _, rfl, by decide⟩
  | bool value =>
      cases value with
      | true => exact ⟨_, _, rfl, by decide⟩
      | false => exact ⟨_, _, rfl, by decide⟩
  | number n =>
      obtain ⟨c, more, hc, h⟩ := n.exists_cons
      refine ⟨c, more, by rw [Written.chars, hc], ?_⟩
      rcases h with rfl | hd
      · decide
      · exact startsDocument_of_isDigit hd
  | _ =>
      rw [Written.chars]
      exact ⟨_, _, rfl, by decide⟩

theorem Items.exists_cons (items : Items) :
    ∃ c more, items.chars = c :: more ∧ startsDocument c = true := by
  cases items with
  | last item after =>
      obtain ⟨c, more, hc, h⟩ := item.exists_cons
      rw [Items.chars, hc]
      exact ⟨c, _, rfl, h⟩
  | more item after before rest =>
      obtain ⟨c, more, hc, h⟩ := item.exists_cons
      rw [Items.chars, hc]
      exact ⟨c, _, rfl, h⟩

theorem Members.exists_cons (members : Members) : ∃ more, members.chars = '"' :: more := by
  cases members with
  | last name before value after => exact ⟨_, rfl⟩
  | more name before value after gap rest => exact ⟨_, rfl⟩

theorem Written.skipBlanks_chars (gap : Blanks) (w : Written) (rest : List Char) :
    skipBlanks (gap.chars ++ (w.chars ++ rest)) = w.chars ++ rest := by
  obtain ⟨c, more, hc, h⟩ := w.exists_cons
  rw [skipBlanks_append, hc, List.cons_append]
  exact skipBlanks_cons _ (isBlank_of_startsDocument h)

theorem Blanks.stops (gap : Blanks) {rest : List Char} (h : Stops continuesNumber rest) :
    Stops continuesNumber (gap.chars ++ rest) := by
  have hblank : ∀ d, isBlank d = true → continuesNumber d = false := by
    intro d hd
    simp only [isBlank, Bool.or_eq_true, decide_eq_true_eq] at hd
    rcases hd with ((rfl | rfl) | rfl) | rfl
    all_goals decide
  rcases hg : gap.chars with _ | ⟨first, more⟩
  · exact h
  · exact .cons (hblank first (gap.blank first (hg ▸ List.mem_cons_self)))

theorem readName_append (gap : Blanks) (name : Name) (rest : List Char) :
    readName (gap.chars ++ (name.chars ++ ':' :: rest)) = some (name.letters.text, rest) := by
  have hname : name.chars ++ ':' :: rest =
      '"' :: (name.letters.chars ++ '"' :: (name.behind.chars ++ ':' :: rest)) := by
    simp [Name.chars, Letters.quoted]
  rw [readName, skipBlanks_append, hname, skipBlanks_cons _ (by decide)]
  simp only [readText_append, Option.bind_eq_bind, Option.bind_some]
  rw [skipBlanks_append, skipBlanks_cons _ (by decide)]
  rfl

theorem readScalar_number (n : NumberText) {rest : List Char} (h : Stops continuesNumber rest) :
    readScalar (n.chars ++ rest) = some (.number n.value, rest) := by
  have hread := readNumber_append n h
  obtain ⟨c, more, hc, hstart⟩ := n.exists_cons
  have hne : ∀ d : Char, (d = '"' ∨ d = 'n' ∨ d = 't' ∨ d = 'f') → c ≠ d := by
    rintro d hd rfl
    rcases hstart with rfl | hdigit
    · exact absurd hd (by decide)
    · rcases hd with rfl | rfl | rfl | rfl
      all_goals exact absurd hdigit (by decide)
  rw [hc, List.cons_append] at hread ⊢
  rw [readScalar, hread]
  · rfl
  all_goals
    intro text heq
    refine hne _ ?_ (List.cons.inj heq).1
    decide

theorem readDocument_scalar {w : Written} {document : Document} {rest : List Char}
    (hd : ∀ room, w.document? room = some document)
    (hs : ∀ c more, w.chars = c :: more → c ≠ '[' ∧ c ≠ '{')
    (h : readScalar (w.chars ++ rest) = some (document, rest)) (fuel room : Nat) (gap : Blanks) :
    readDocument (fuel + 1) room (gap.chars ++ (w.chars ++ rest)) =
      (w.document? room).map (·, rest) := by
  obtain ⟨c, more, hc, hstart⟩ := w.exists_cons
  obtain ⟨hlist, hobject⟩ := hs c more hc
  unfold readDocument
  rw [Written.skipBlanks_chars, hd room]
  rw [hc, List.cons_append] at h ⊢
  simp only
  split
  · rename_i heq
    exact absurd (List.cons.inj heq).1 hlist
  · rename_i heq
    exact absurd (List.cons.inj heq).1 hobject
  · rename_i heq
    exact absurd (List.cons.inj heq).1 hlist
  · rename_i heq
    exact absurd (List.cons.inj heq).1 hobject
  · exact h

mutual

/-- Fuel for two steps a character is enough. -/
theorem readDocument_written : ∀ (w : Written) (fuel room : Nat) (gap : Blanks)
    (rest : List Char), 2 * w.chars.length ≤ fuel → Stops continuesNumber rest →
    readDocument fuel room (gap.chars ++ (w.chars ++ rest)) = (w.document? room).map (·, rest)
  | w, 0, room, gap, rest, hf, _ => by
      obtain ⟨c, more, hc, -⟩ := w.exists_cons
      rw [hc, List.length_cons] at hf
      omega
  | .null, fuel + 1, room, gap, rest, _, _ =>
      readDocument_scalar (fun _ => rfl)
        (fun c more h => by obtain ⟨rfl, -⟩ := List.cons.inj h; decide) rfl fuel room gap
  | .bool true, fuel + 1, room, gap, rest, _, _ =>
      readDocument_scalar (fun _ => rfl)
        (fun c more h => by obtain ⟨rfl, -⟩ := List.cons.inj h; decide) rfl fuel room gap
  | .bool false, fuel + 1, room, gap, rest, _, _ =>
      readDocument_scalar (fun _ => rfl)
        (fun c more h => by obtain ⟨rfl, -⟩ := List.cons.inj h; decide) rfl fuel room gap
  | .string letters, fuel + 1, room, gap, rest, _, _ => by
      refine readDocument_scalar (fun _ => rfl)
        (fun c more h => by obtain ⟨rfl, -⟩ := List.cons.inj h; decide) ?_ fuel room gap
      have hchars : (Written.string letters).chars ++ rest =
          '"' :: (letters.chars ++ '"' :: rest) := by
        simp [Written.chars, Letters.quoted]
      rw [hchars, readScalar, readText_append]
      rfl
  | .number n, fuel + 1, room, gap, rest, _, hr => by
      refine readDocument_scalar (fun _ => rfl) ?_ (readScalar_number n hr) fuel room gap
      intro c more h
      obtain ⟨d, _, hd, hstart⟩ := n.exists_cons
      rw [Written.chars, hd] at h
      obtain ⟨rfl, -⟩ := List.cons.inj h
      rcases hstart with rfl | hdigit
      · decide
      · constructor
        all_goals
          rintro rfl
          exact absurd hdigit (by decide)
  | .emptyList inner, fuel + 1, room, gap, rest, _, _ => by
      unfold readDocument
      rw [Written.skipBlanks_chars, Written.chars]
      cases room with
      | zero => rfl
      | succ room =>
          simp only [List.cons_append, List.append_assoc, List.nil_append]
          rw [skipBlanks_append, skipBlanks_cons _ (by decide)]
          rfl
  | .list inner items, fuel + 1, room, gap, rest, hf, _ => by
      unfold readDocument
      rw [Written.skipBlanks_chars, Written.chars]
      rw [Written.chars] at hf
      simp only [List.length_cons, List.length_append] at hf
      cases room with
      | zero => rfl
      | succ room =>
          obtain ⟨c, more, hc, hstart⟩ := items.exists_cons
          have hskip : skipBlanks (inner.chars ++ (items.chars ++ ']' :: rest)) =
              items.chars ++ ']' :: rest := by
            rw [skipBlanks_append, hc]
            exact skipBlanks_cons _ (isBlank_of_startsDocument hstart)
          have hread := readItems_written items fuel room .none rest (by omega)
          simp only [Blanks.chars_none, List.cons_append, List.append_assoc, List.nil_append]
            at hread ⊢
          rw [hskip, Written.document?]
          rw [hc, List.cons_append] at hread ⊢
          split
          · rename_i heq
            obtain ⟨rfl, -⟩ := List.cons.inj heq
            exact absurd hstart (by decide)
          · rw [hread]
            cases items.documents? room with
            | none => rfl
            | some documents => rfl
  | .emptyObject inner, fuel + 1, room, gap, rest, _, _ => by
      unfold readDocument
      rw [Written.skipBlanks_chars, Written.chars]
      cases room with
      | zero => rfl
      | succ room =>
          simp only [List.cons_append, List.append_assoc, List.nil_append]
          rw [skipBlanks_append, skipBlanks_cons _ (by decide)]
          rfl
  | .object inner members, fuel + 1, room, gap, rest, hf, _ => by
      unfold readDocument
      rw [Written.skipBlanks_chars, Written.chars]
      rw [Written.chars] at hf
      simp only [List.length_cons, List.length_append] at hf
      cases room with
      | zero => rfl
      | succ room =>
          obtain ⟨more, hc⟩ := members.exists_cons
          have hskip : skipBlanks (inner.chars ++ (members.chars ++ '}' :: rest)) =
              members.chars ++ '}' :: rest := by
            rw [skipBlanks_append, hc]
            exact skipBlanks_cons _ (by decide)
          have hread := readFields_written members fuel room [] .none rest (by omega)
          simp only [Blanks.chars_none, List.cons_append, List.append_assoc, List.nil_append]
            at hread ⊢
          rw [hskip, Written.document?]
          rw [hc, List.cons_append] at hread ⊢
          show (readFields fuel room [] _).map _ = _
          rw [hread]
          cases members.fields? room [] with
          | none => rfl
          | some fields => rfl

theorem readItems_written : ∀ (items : Items) (fuel room : Nat) (gap : Blanks)
    (rest : List Char), 2 * items.chars.length + 1 ≤ fuel →
    readItems fuel room (gap.chars ++ (items.chars ++ ']' :: rest)) =
      (items.documents? room).map (·, rest)
  | .last item after, fuel + 1, room, gap, rest, hf => by
      simp only [Items.chars, List.length_append] at hf
      have hitem := readDocument_written item fuel room gap (after.chars ++ ']' :: rest) (by omega)
        (after.stops (.cons (by decide)))
      unfold readItems
      simp only [Items.chars, List.append_assoc, hitem, Items.documents?]
      cases item.document? room with
      | none => rfl
      | some document =>
          simp only [Option.map_some, Option.bind_eq_bind, Option.bind_some]
          rw [skipBlanks_append, skipBlanks_cons _ (by decide)]
          rfl
  | .more item after before more, fuel + 1, room, gap, rest, hf => by
      simp only [Items.chars, List.length_append, List.length_cons] at hf
      have hitem := readDocument_written item fuel room gap
        (after.chars ++ ',' :: (before.chars ++ (more.chars ++ ']' :: rest))) (by omega)
        (after.stops (.cons (by decide)))
      have hmore := readItems_written more fuel room before rest (by omega)
      unfold readItems
      simp only [Items.chars, List.append_assoc, List.cons_append, hitem, Items.documents?]
      cases item.document? room with
      | none => rfl
      | some document =>
          simp only [Option.map_some, Option.bind_eq_bind, Option.bind_some]
          rw [skipBlanks_append, skipBlanks_cons _ (by decide)]
          simp only [hmore]
          cases more.documents? room with
          | none => rfl
          | some documents => rfl

theorem readFields_written : ∀ (members : Members) (fuel room : Nat) (read : Fields Document)
    (gap : Blanks) (rest : List Char),
    2 * members.chars.length + 1 ≤ fuel →
    readFields fuel room read (gap.chars ++ (members.chars ++ '}' :: rest)) =
      (members.fields? room read).map (·, rest)
  | .last name before value after, fuel + 1, room, read, gap, rest, hf => by
      simp only [Members.chars, List.length_append, List.length_cons] at hf
      have hname := readName_append gap name (before.chars ++ (value.chars ++ (after.chars ++
        '}' :: rest)))
      have hvalue := readDocument_written value fuel room before (after.chars ++ '}' :: rest) (by omega)
        (after.stops (.cons (by decide)))
      unfold readFields
      simp only [Members.chars, List.append_assoc, List.cons_append, hname, Option.bind_eq_bind,
        Option.bind_some, hvalue, Members.fields?]
      cases value.document? room with
      | none => rfl
      | some document =>
          simp only [Option.map_some, Option.bind_some]
          rw [skipBlanks_append, skipBlanks_cons _ (by decide)]
          rfl
  | .more name before value after behind more, fuel + 1, room, read, gap, rest, hf => by
      simp only [Members.chars, List.length_append, List.length_cons] at hf
      have hname := readName_append gap name (before.chars ++ (value.chars ++ (after.chars ++
        ',' :: (behind.chars ++ (more.chars ++ '}' :: rest)))))
      have hvalue := readDocument_written value fuel room before
        (after.chars ++ ',' :: (behind.chars ++ (more.chars ++ '}' :: rest))) (by omega)
        (after.stops (.cons (by decide)))
      unfold readFields
      simp only [Members.chars, List.append_assoc, List.cons_append, hname, Option.bind_eq_bind,
        Option.bind_some, hvalue, Members.fields?]
      cases value.document? room with
      | none => rfl
      | some document =>
          have hmore := readFields_written more fuel room (read.insert name.letters.text document)
            behind rest (by omega)
          simp only [Option.map_some, Option.bind_some]
          rw [skipBlanks_append, skipBlanks_cons _ (by decide)]
          exact hmore

end

/-- A text that a tree writes is read as the tree's document. -/
theorem parse?_written {w : WrittenText} {text : String} (h : w.chars = text.toList) :
    parse? text = w.root.document? maxNesting := by
  have hafter : Stops continuesNumber w.after.chars := by
    have := w.after.stops Stops.nil
    rwa [List.append_nil] at this
  have hfuel : 2 * w.root.chars.length ≤ 2 * text.toList.length + 2 := by
    simp only [← h, WrittenText.chars, List.length_append]
    omega
  have hread := readDocument_written w.root _ maxNesting w.before _ hfuel hafter
  rw [parse?]
  rw [← h, WrittenText.chars] at hread ⊢
  rw [hread]
  cases w.root.document? maxNesting with
  | none => rfl
  | some document =>
      have hskip : skipBlanks w.after.chars = [] := by
        have := skipBlanks_append w.after []
        rwa [List.append_nil] at this
      simp [hskip]

end StepGraph.Json
