/-
Scalars of JSON, read as YAML.

Text between quotes has no line breaks in JSON, so its spaces stand for
themselves; its escapes are among those of YAML, but for characters written by
two surrogates, at which YAML gives up.  A word or a number is a plain scalar,
and reading that takes the blanks behind it too, as further lines might follow.
-/
import StepGraph.Proofs.FlowGaps

namespace StepGraph.Yaml

open StepGraph.Text (hexValue?)

/-! ## Gaps in scalars -/

namespace Gap

/-- A gap of blanks of JSON is read up to its end. -/
theorem read_blanks : ∀ (fuel : Nat) {floor : Int} (gap : Gap) {pos : Cursor}
    {blanks tail : List Char}, floor ≤ 0 → pos.rest = blanks ++ tail →
    (∀ c ∈ blanks, Json.isBlank c = true) →
    Json.Stops (fun c => isBlank c || isBreak c) tail → blanks.length ≤ fuel →
    ∃ final behind, read floor fuel gap pos = some (final, behind) ∧ behind.rest = tail
  | 0, floor, gap, pos, blanks, tail, _, hr, _, _, hf => by
      obtain rfl := List.length_eq_zero_iff.mp (Nat.le_zero.mp hf)
      exact ⟨gap, pos, rfl, hr⟩
  | fuel + 1, floor, gap, pos, [], tail, _, hr, _, ht, _ => by
      refine ⟨gap, pos, ?_, hr⟩
      rw [read, hr]
      cases tail with
      | nil => rfl
      | cons c tail =>
          have hc := ht c rfl
          simp only [Bool.or_eq_false_iff] at hc
          simp only [List.nil_append]
          rw [if_neg (by simp [hc]), if_neg (by simp [hc])]
  | fuel + 1, floor, gap, pos, c :: blanks, tail, hfloor, hr, hb, ht, hf => by
      have hcolumn : ¬ (pos.column : Int) < floor := by omega
      have hrest := Cursor.rest_advance_one hr
      have hmem : ∀ d ∈ blanks, Json.isBlank d = true := fun d hd => hb d (List.mem_cons_of_mem _ hd)
      have hlength : blanks.length ≤ fuel := Nat.le_of_succ_le_succ hf
      rw [read, hr]
      simp only [List.cons_append]
      split
      · rw [if_neg (by simp [hcolumn])]
        split
        · exact read_blanks fuel _ hfloor hrest hmem ht hlength
        · exact read_blanks fuel _ hfloor hrest hmem ht hlength
      · rename_i hblank
        have hbreak : isBreak c = true := by
          have hc := isBlank_or_isBreak (hb c List.mem_cons_self)
          rw [Bool.or_eq_true] at hc
          exact hc.resolve_left hblank
        have hfeed : tail.head? ≠ some '\n' := fun h => absurd (ht _ h) (by decide)
        obtain ⟨more, hrest, hmore⟩ := Cursor.takeBreak_gap hr hbreak hfeed
        have hblanks : (∀ d ∈ more, Json.isBlank d = true) ∧ more.length ≤ fuel := by
          rcases hmore with rfl | rfl
          · exact ⟨hmem, hlength⟩
          · exact ⟨fun d hd => hmem d (List.mem_cons_of_mem _ hd), Nat.le_of_succ_le hlength⟩
        rw [if_pos hbreak]
        split
        · exact read_blanks fuel _ hfloor hrest hblanks.1 ht hblanks.2
        · exact read_blanks fuel _ hfloor hrest hblanks.1 ht hblanks.2

/-- Spaces within a line stand for themselves. -/
theorem read_spaces : ∀ (fuel : Nat) (floor : Int) (gap : Gap) {pos : Cursor}
    {spaces tail : List Char}, gap.broken = false → pos.rest = spaces ++ tail →
    (∀ c ∈ spaces, c = ' ') → Json.Stops (fun c => isBlank c || isBreak c) tail →
    spaces.length ≤ fuel →
    read floor fuel gap pos =
      some ({ gap with blanks := gap.blanks ++ spaces }, pos.advance spaces.length)
  | 0, floor, gap, pos, spaces, tail, _, _, _, _, hf => by
      obtain rfl := List.length_eq_zero_iff.mp (Nat.le_zero.mp hf)
      rw [List.append_nil]
      rfl
  | fuel + 1, floor, gap, pos, [], tail, _, hr, _, ht, _ => by
      rw [List.append_nil, read, hr]
      cases tail with
      | nil => rfl
      | cons c tail =>
          have hc := ht c rfl
          simp only [Bool.or_eq_false_iff] at hc
          simp only [List.nil_append]
          rw [if_neg (by simp [hc]), if_neg (by simp [hc])]
          rfl
  | fuel + 1, floor, gap, pos, c :: spaces, tail, hu, hr, hs, ht, hf => by
      obtain rfl := hs c List.mem_cons_self
      rw [read, hr]
      simp only [List.cons_append]
      have hmore := read_spaces fuel floor { gap with blanks := gap.blanks ++ [' '] } hu
        (Cursor.rest_advance_one hr) (fun d hd => hs d (List.mem_cons_of_mem _ hd)) ht
        (Nat.le_of_succ_le_succ hf)
      rw [if_pos (by decide), if_neg (by simp [hu]), if_neg (by simp [hu]), hmore]
      simp only [List.append_assoc, List.singleton_append, Cursor.advance_advance, List.length_cons,
        Nat.add_comm]

end Gap

/-! ## Plain scalars -/

/-- A text behind a plain scalar that ends it: blanks and then nothing, or inside a flow
collection the end of an item. -/
def EndsItem (flow : Bool) (text : List Char) : Prop :=
  Json.skipBlanks text = [] ∨
    flow = true ∧ ∃ c rest, Json.skipBlanks text = c :: rest ∧ (c = ',' ∨ c = ']' ∨ c = '}')

theorem EndsItem.skipBlanks {flow : Bool} {text : List Char} (h : EndsItem flow text) :
    EndsItem flow (Json.skipBlanks text) := by
  have hidem : Json.skipBlanks (Json.skipBlanks text) = Json.skipBlanks text :=
    Json.skipBlanks_of_stops (Json.stops_dropWhile text)
  rw [EndsItem, hidem]
  exact h

theorem EndsItem.stops {flow : Bool} {text : List Char} (h : EndsItem flow text) :
    Json.Stops (fun c => isBlank c || isBreak c) (Json.skipBlanks text) := by
  rcases h with h | ⟨-, c, more, h, hc⟩
  · rw [h]
    exact .nil
  · rw [h]
    refine .cons ?_
    rcases hc with rfl | rfl | rfl
    all_goals decide

/-- Characters that a plain scalar may hold anywhere. -/
def isInner (c : Char) : Bool := !isBlank c && !isBreak c && !isFlowIndicator c && c ≠ ':' && c ≠ '#'

namespace PlainScalar

/-- A character that the scalar goes on with, whatever follows. -/
theorem readRun_inner {flow : Bool} {c : Char} (h : isInner c = true) (rest : List Char) :
    readRun flow (c :: rest) = (readRun flow rest).map (c :: ·) := by
  simp only [isInner, Bool.and_eq_true, Bool.not_eq_true', decide_eq_true_eq] at h
  obtain ⟨⟨⟨⟨hblank, hbreak⟩, hflow⟩, hcolon⟩, -⟩ := h
  rw [readRun.eq_def]
  simp only
  rw [if_neg (by simp [hblank, hbreak]), if_neg (by simp [hcolon]), if_neg (by simp [hcolon, hflow])]

theorem readRun_gap {flow : Bool} {c : Char} (h : (isBlank c || isBreak c) = true)
    (rest : List Char) : readRun flow (c :: rest) = some [] := by
  rw [readRun.eq_def]
  exact if_pos h

theorem readRun_end {c : Char} (h : c = ',' ∨ c = ']' ∨ c = '}') (rest : List Char) :
    readRun true (c :: rest) = some [] := by
  rw [readRun.eq_def]
  rcases h with rfl | rfl | rfl
  all_goals rfl

theorem readRun_append {flow : Bool} : ∀ {run rest : List Char},
    (∀ c ∈ run, isInner c = true) → readRun flow rest = some [] →
    readRun flow (run ++ rest) = some run
  | [], rest, _, hr => hr
  | c :: run, rest, h, hr => by
      rw [List.cons_append, readRun_inner (h c List.mem_cons_self),
        readRun_append (fun d hd => h d (List.mem_cons_of_mem _ hd)) hr]
      rfl

theorem readRun_of_skipBlanks {flow : Bool} {text : List Char} (h : EndsItem flow text) :
    readRun flow text = some [] := by
  cases text with
  | nil => rfl
  | cons c rest =>
      by_cases hb : Json.isBlank c = true
      · exact readRun_gap (isBlank_or_isBreak hb) rest
      · have hskip := Json.skipBlanks_cons rest (Bool.eq_false_iff.mpr hb)
        rcases h with h | ⟨rfl, d, more, h, hd⟩
        · rw [hskip] at h
          cases h
        · rw [hskip] at h
          obtain ⟨rfl, rfl⟩ := List.cons.inj h
          exact readRun_end hd rest

/-- The end of an item is no part of a scalar. -/
theorem readLines_end {flow : Bool} {indent : Int} (fuel : Nat) (gap : Gap) {pos : Cursor}
    {rest : List Char} (hr : pos.rest = Json.skipBlanks rest) (he : EndsItem flow rest) :
    readLines flow indent (fuel + 1) gap pos = some ([], gap.broken, pos) := by
  have hrun : readRun flow pos.rest = some [] := hr ▸ readRun_of_skipBlanks he.skipBlanks
  have hplain : atDocumentMarker pos.rest = false ∧ pos.rest.head? ≠ some '#' := by
    rw [hr]
    rcases he with h | ⟨-, c, more, h, rfl | rfl | rfl⟩
    all_goals
      rw [h]
      exact ⟨rfl, by simp⟩
  rw [readLines, if_neg (by simp [hplain]), if_neg hplain.2, hrun]
  rfl

/-- Behind a run the scalar is read up to the end of the blanks behind it. -/
theorem readLines_run {flow : Bool} {indent : Int} {pos : Cursor} {run rest : List Char}
    {fuel : Nat} (hindent : indent ≤ 0) (hr : pos.rest = run ++ rest)
    (hrun : ∀ c ∈ run, isInner c = true) (hne : run ≠ []) (he : EndsItem flow rest)
    (hmarker : atDocumentMarker (run ++ rest) = false) (hf : rest.length < fuel) :
    ∃ broken behind, readLines flow indent (fuel + 1) {} pos = some (run, broken, behind) ∧
      behind.rest = Json.skipBlanks rest := by
  have hcomment : (run ++ rest).head? ≠ some '#' := by
    obtain ⟨c, more, rfl⟩ := List.exists_cons_of_ne_nil hne
    have hc := hrun c List.mem_cons_self
    rintro h
    obtain rfl := Option.some.inj h
    exact absurd hc (by decide)
  have hread := readRun_append hrun (readRun_of_skipBlanks he)
  have hbehind : (pos.advance run.length).rest = rest := by rw [Cursor.advance_append hr]
  rw [readLines, hr, if_neg (by simp [hmarker]), if_neg hcomment, hread]
  simp only [Option.bind_eq_bind, Option.bind_some]
  rw [if_neg (by simpa using hne), hbehind]
  cases rest with
  | nil => exact ⟨false, pos.advance run.length, rfl, hbehind⟩
  | cons c more =>
      simp only
      split
      · rename_i hgap
        obtain ⟨blanks, hblanks⟩ := Json.exists_blanks (c :: more)
        have hlength : blanks.chars.length ≤ fuel := by
          have := congrArg List.length hblanks
          rw [List.length_append] at this
          omega
        obtain ⟨final, behind, hfinal, hrest⟩ := Gap.read_blanks fuel {} hindent
          (hbehind.trans hblanks) blanks.blank he.stops hlength
        obtain ⟨fuel, rfl⟩ := Nat.exists_eq_succ_of_ne_zero (Nat.ne_zero_of_lt hf)
        rw [hfinal]
        simp only [Option.bind_some]
        rw [if_neg (by simp; omega), readLines_end fuel final hrest he]
        exact ⟨final.broken, behind, by simp [Gap.text], hrest⟩
      · rename_i hgap
        have hskip : Json.skipBlanks (c :: more) = c :: more := by
          refine Json.skipBlanks_cons more ?_
          rw [Bool.eq_false_iff]
          exact fun h => hgap (isBlank_or_isBreak h)
        exact ⟨false, pos.advance run.length, rfl, hbehind.trans hskip.symm⟩

theorem read_run {flow : Bool} {indent : Int} {pos : Cursor} {run rest : List Char}
    (hindent : indent ≤ 0) (hr : pos.rest = run ++ rest)
    (hrun : ∀ c ∈ run, isInner c = true) (hne : run ≠ []) (he : EndsItem flow rest)
    (hmarker : atDocumentMarker (run ++ rest) = false) :
    ∃ broken behind, read flow indent pos = some (run, broken, behind) ∧
      behind.rest = Json.skipBlanks rest := by
  have hf : rest.length < pos.rest.length := by
    have := List.length_pos_iff.mpr hne
    rw [hr, List.length_append]
    omega
  exact readLines_run hindent hr hrun hne he hmarker hf

end PlainScalar

/-! ## Text in quotes -/

end StepGraph.Yaml

namespace StepGraph.Json

/-- A character that breaks no line of YAML where it stands for itself. -/
def Letter.Shared : Letter → Prop
  | .plain c _ => Yaml.isBreak c = false
  | .short _ _ _ | .unit _ _ | .pair _ _ _ => True

instance Letter.decidableShared : (letter : Letter) → Decidable letter.Shared
  | .plain _ _ => inferInstanceAs (Decidable (_ = _))
  | .short _ _ _ | .unit _ _ | .pair _ _ _ => isTrue trivial

/-- Whether a character is written by two surrogates. -/
def Letter.isPair : Letter → Bool
  | .pair _ _ _ => true
  | _ => false

/-- Whether no character is written by two surrogates. -/
def Letters.unpaired (letters : Letters) : Bool := letters.all fun letter => !letter.isPair

def Letter.isSpace : Letter → Bool
  | .plain c _ => c = ' '
  | _ => false

end StepGraph.Json

namespace StepGraph.Yaml.QuotedScalar

open StepGraph.Json (Letter Letters CodeUnit)
open StepGraph.Text (hexValue? isDigit digitValue)

theorem hexNumber?_of_hexFour {digits : List Char} {code : Nat}
    (h : Json.hexFour digits = some (code, [])) (rest : List Char) :
    hexNumber? 4 0 (digits ++ rest) = some code := by
  match digits, h with
  | a :: b :: c :: d :: more, h =>
      simp only [Json.hexFour, Option.bind_eq_bind, Option.bind_eq_some_iff, pure,
        Option.some.injEq, Prod.mk.injEq] at h
      obtain ⟨x, hx, y, hy, z, hz, w, hw, rfl, rfl⟩ := h
      simp [hexNumber?, hx, hy, hz, hw]

theorem hexValue?_lt {c : Char} {value : Nat} (h : hexValue? c = some value) : value < 16 := by
  have hle : ∀ d e : Char, d ≤ e ↔ d.toNat ≤ e.toNat := fun d e => Iff.rfl
  simp only [hexValue?, isDigit, Bool.and_eq_true, decide_eq_true_eq, hle] at h
  split at h
  · rename_i hc
    obtain rfl := Option.some.inj h
    have : c.toNat ≤ 57 := hc.2
    rw [digitValue]
    omega
  · split at h
    · rename_i hc
      obtain rfl := Option.some.inj h
      have : c.toNat ≤ 102 := hc.2
      omega
    · split at h
      · rename_i hc
        obtain rfl := Option.some.inj h
        have : c.toNat ≤ 70 := hc.2
        omega
      · cases h

theorem length_of_hexFour {digits : List Char} {code : Nat}
    (h : Json.hexFour digits = some (code, [])) : digits.length = 4 ∧ code < 65536 := by
  match digits, h with
  | a :: b :: c :: d :: more, h =>
      simp only [Json.hexFour, Option.bind_eq_bind, Option.bind_eq_some_iff, pure,
        Option.some.injEq, Prod.mk.injEq] at h
      obtain ⟨x, hx, y, hy, z, hz, w, hw, rfl, rfl⟩ := h
      have := hexValue?_lt hx
      have := hexValue?_lt hy
      have := hexValue?_lt hz
      have := hexValue?_lt hw
      exact ⟨rfl, by omega⟩

/-- The short escapes of JSON mean the same in YAML. -/
theorem shortEscape?_of_json {letter c : Char} (h : Json.shortEscape? letter = some c) :
    escapeWidth? letter = none ∧ shortEscape? letter = some c ∧ isBreak letter = false := by
  have hletter : letter = '"' ∨ letter = '\\' ∨ letter = '/' ∨ letter = 'b' ∨ letter = 'f' ∨
      letter = 'n' ∨ letter = 'r' ∨ letter = 't' := by
    by_contra hne
    simp only [not_or] at hne
    obtain ⟨h1, h2, h3, h4, h5, h6, h7, h8⟩ := hne
    simp [Json.shortEscape?, h1, h2, h3, h4, h5, h6, h7, h8] at h
  rcases hletter with rfl | rfl | rfl | rfl | rfl | rfl | rfl | rfl
  all_goals
    obtain rfl := Option.some.inj h
    decide

theorem readEscape_short {letter c : Char} (h : Json.shortEscape? letter = some c) {pos : Cursor}
    {rest : List Char} (hr : pos.rest = letter :: rest) :
    readEscape pos = some (c, pos.advance 1) := by
  obtain ⟨hwidth, hshort, -⟩ := shortEscape?_of_json h
  rw [readEscape, hr]
  simp only [hwidth, hshort, Option.map_some]

theorem readEscape_unit (four : CodeUnit)
    (h : Json.isHighSurrogate four.code = false ∧ Json.isLowSurrogate four.code = false)
    {pos : Cursor} {rest : List Char} (hr : pos.rest = 'u' :: (four.digits ++ rest)) :
    readEscape pos = some (Char.ofNat four.code, pos.advance 5) := by
  obtain ⟨-, hcode⟩ := length_of_hexFour four.reads
  simp only [Json.isHighSurrogate, Json.isLowSurrogate, Bool.and_eq_false_iff,
    decide_eq_false_iff_not] at h
  have hchar : charOf? four.code = some (Char.ofNat four.code) := if_neg (by omega)
  have hwidth : escapeWidth? 'u' = some 4 := by decide
  rw [readEscape, hr]
  simp only [hwidth, hexNumber?_of_hexFour four.reads, Option.bind_eq_bind, Option.bind_some, hchar]
  rfl

/-- A surrogate is no character of YAML, though another one may follow. -/
theorem readEscape_surrogate (four : CodeUnit) (h : Json.isHighSurrogate four.code = true)
    {pos : Cursor} {rest : List Char} (hr : pos.rest = 'u' :: (four.digits ++ rest)) :
    readEscape pos = none := by
  simp only [Json.isHighSurrogate, Bool.and_eq_true, decide_eq_true_eq] at h
  have hchar : charOf? four.code = none := if_pos (by omega)
  have hwidth : escapeWidth? 'u' = some 4 := by decide
  rw [readEscape, hr]
  simp only [hwidth, hexNumber?_of_hexFour four.reads, Option.bind_eq_bind, Option.bind_some, hchar]
  rfl

/-! ### Letters -/

variable {fuel : Nat} {pos : Cursor} {rest : List Char}

/-- What a letter starts with that is no space is no gap. -/
theorem exists_head {letter : Letter} (hs : letter.Shared) (hspace : letter.isSpace = false) :
    ∃ c cs, letter.chars = c :: cs ∧ (isBlank c || isBreak c) = false := by
  cases letter with
  | plain c free =>
      have hbreak : isBreak c = false := hs
      have htab : c ≠ '\t' := by
        rintro rfl
        exact absurd free.2.2 (by decide)
      have hne : c ≠ ' ' := by simpa [Letter.isSpace] using hspace
      exact ⟨c, [], rfl, by simp [isBlank, hne, htab, hbreak]⟩
  | short letter c stands => exact ⟨'\\', _, rfl, by decide⟩
  | unit four single => exact ⟨'\\', _, rfl, by decide⟩
  | pair high low paired => exact ⟨'\\', _, rfl, by decide⟩

/-- A letter within a run takes one round. -/
theorem readRun_letter {letter : Letter} (hs : letter.Shared) (hspace : letter.isSpace = false)
    (hpair : letter.isPair = false) (hr : pos.rest = letter.chars ++ rest) :
    readRun .double (fuel + 1) pos =
      (readRun .double fuel (pos.advance letter.chars.length)).map
        fun (cs, escaped, stop) => (letter.char :: cs, escaped, stop) := by
  cases letter with
  | plain c free =>
      have hgap : (isBlank c || isBreak c) = false := by
        obtain ⟨_, _, hc, hgap⟩ := exists_head hs hspace
        obtain ⟨rfl, -⟩ := List.cons.inj hc
        exact hgap
      have hrest : pos.rest = c :: rest := hr
      have hclose : c ≠ Quote.double.char := free.1
      have hslash : c ≠ '\\' := free.2.1
      rw [readRun, hrest]
      simp only
      rw [if_neg (by rw [hgap]; exact Bool.false_ne_true)]
      split
      · rename_i heq
        cases heq
      · exact absurd rfl hslash
      · exact absurd rfl hslash
      · rw [if_neg hclose]
        show _ = (readRun .double fuel (pos.advance 1)).map _
        cases readRun .double fuel (pos.advance 1) with
        | none => rfl
        | some run => rfl
  | short letter c stands =>
      obtain ⟨-, -, hbreak⟩ := shortEscape?_of_json stands
      have hrest : pos.rest = '\\' :: letter :: rest := hr
      rw [readRun, hrest]
      simp only
      rw [if_neg (by decide), if_neg (by simp [hbreak]),
        readEscape_short stands (Cursor.rest_advance_one hrest), Cursor.advance_advance]
      simp only [Option.bind_eq_bind, Option.bind_some]
      show _ = (readRun .double fuel (pos.advance 2)).map _
      cases readRun .double fuel (pos.advance 2) with
      | none => rfl
      | some run => rfl
  | unit four single =>
      have hrest : pos.rest = '\\' :: 'u' :: (four.digits ++ rest) := hr
      have hlength : (Letter.unit four single).chars.length = 1 + 5 := by
        rw [Letter.chars, List.length_cons, List.length_cons, (length_of_hexFour four.reads).1]
      rw [hlength, readRun, hrest]
      simp only
      rw [if_neg (by decide), if_neg (by decide),
        readEscape_unit four single (Cursor.rest_advance_one hrest), Cursor.advance_advance]
      simp only [Option.bind_eq_bind, Option.bind_some]
      cases readRun .double fuel (pos.advance (1 + 5)) with
      | none => rfl
      | some run => rfl
  | pair high low paired => cases hpair

/-- A run does not get past two surrogates. -/
theorem readRun_pair {letter : Letter} (h : letter.isPair = true)
    (hr : pos.rest = letter.chars ++ rest) : readRun .double (fuel + 1) pos = none := by
  cases letter with
  | pair high low paired =>
      have hrest : pos.rest = '\\' :: 'u' :: (high.digits ++ ('\\' :: 'u' :: low.digits ++ rest)) := by
        rw [hr]
        simp [Letter.chars]
      rw [readRun, hrest]
      simp only
      rw [if_neg (by decide), if_neg (by decide),
        readEscape_surrogate high paired.1 (Cursor.rest_advance_one hrest)]
      rfl
  | _ => cases h

/-- A run ends at a space or at the closing quote. -/
theorem readRun_end {c : Char} (hr : pos.rest = c :: rest) (hc : c = ' ' ∨ c = '"') :
    readRun .double (fuel + 1) pos = some ([], false, pos) := by
  rw [readRun, hr]
  rcases hc with rfl | rfl
  · rfl
  · rfl

theorem readRun_letters : ∀ (run : Letters) {fuel : Nat} {pos : Cursor} {c : Char}
    {rest : List Char}, (∀ letter ∈ run, letter.Shared ∧ letter.isSpace = false) →
    pos.rest = run.chars ++ c :: rest → c = ' ' ∨ c = '"' → run.length < fuel →
    readRun .double fuel pos =
      if Letters.unpaired run then some (run.map Letter.char, false, pos.advance run.chars.length)
      else none
  | [], fuel + 1, pos, c, rest, _, hr, hc, _ => readRun_end hr hc
  | letter :: run, fuel + 1, pos, c, rest, hs, hr, hc, hf => by
      obtain ⟨hshared, hspace⟩ := hs letter List.mem_cons_self
      have hchars : Letters.chars (letter :: run) = letter.chars ++ Letters.chars run := by
        simp [Letters.chars]
      have hunpaired : Letters.unpaired (letter :: run) = (!letter.isPair && Letters.unpaired run) :=
        List.all_cons
      rw [hchars, List.append_assoc] at hr
      rw [hunpaired]
      cases hpair : letter.isPair with
      | true => exact readRun_pair hpair hr
      | false =>
          rw [readRun_letter hshared hspace hpair hr,
            readRun_letters run (fun other ho => hs other (List.mem_cons_of_mem _ ho))
              (by rw [Cursor.advance_append hr]) hc (Nat.lt_of_succ_lt_succ hf),
            hchars, List.length_append, ← Cursor.advance_advance]
          cases Letters.unpaired run with
          | true => rfl
          | false => rfl

theorem spaces_chars {spaces : Letters} (h : ∀ letter ∈ spaces, letter.isSpace = true) :
    spaces.chars = spaces.map Letter.char ∧ ∀ c ∈ spaces.chars, c = ' ' := by
  induction spaces with
  | nil => exact ⟨rfl, List.forall_mem_nil _⟩
  | cons letter spaces ih =>
      obtain ⟨hchars, hspaces⟩ := ih fun other ho => h other (List.mem_cons_of_mem _ ho)
      have hletter : letter.chars = [letter.char] ∧ letter.char = ' ' := by
        have hspace := h letter List.mem_cons_self
        cases letter with
        | plain c free =>
            have hc : c = ' ' := by simpa [Letter.isSpace] using hspace
            exact ⟨rfl, hc⟩
        | _ => cases hspace
      have hcons : Letters.chars (letter :: spaces) = letter.char :: Letters.chars spaces := by
        rw [Letters.chars, List.flatMap_cons, hletter.1]
        rfl
      rw [hcons]
      refine ⟨by rw [hchars]; rfl, ?_⟩
      rintro c hc
      rcases List.mem_cons.mp hc with rfl | hc
      · exact hletter.2
      · exact hspaces c hc

theorem unpaired_append (letters others : Letters) :
    Letters.unpaired (letters ++ others) = (letters.unpaired && others.unpaired) := List.all_append

theorem unpaired_spaces {spaces : Letters} (h : ∀ letter ∈ spaces, letter.isSpace = true) :
    spaces.unpaired = true := by
  refine List.all_eq_true.mpr fun letter hl => ?_
  have hspace := h letter hl
  cases letter with
  | pair high low paired => cases hspace
  | _ => rfl

theorem chars_append (letters others : Letters) :
    Letters.chars (letters ++ others) = letters.chars ++ others.chars := List.flatMap_append

theorem stops_letters {letters : Letters} (hs : ∀ letter ∈ letters, letter.Shared)
    (h : Json.Stops Letter.isSpace letters) (rest : List Char) :
    Json.Stops (fun c => isBlank c || isBreak c) (letters.chars ++ '"' :: rest) := by
  cases letters with
  | nil => exact .cons (by decide)
  | cons letter letters =>
      obtain ⟨c, cs, hc, hgap⟩ := exists_head (hs letter List.mem_cons_self) (h letter rfl)
      have hchars : Letters.chars (letter :: letters) = c :: (cs ++ Letters.chars letters) := by
        rw [Letters.chars, List.flatMap_cons, hc]
        rfl
      rw [hchars]
      exact .cons hgap

/-- A run up to the closing quote ends the scalar. -/
theorem readLines_run {run : Letters}
    (hrun : ∀ letter ∈ run, letter.Shared ∧ letter.isSpace = false)
    (hr : pos.rest = run.chars ++ '"' :: rest) (hcolumn : pos.column ≠ 0) (hf : run.length < fuel) :
    readLines .double (fuel + 1) pos =
      if Letters.unpaired run then some (run.map Letter.char, pos.advance (run.chars.length + 1))
      else none := by
  have hquote : (pos.advance (Letters.chars run).length).rest = '"' :: rest := by
    rw [Cursor.advance_append hr]
  rw [readLines, if_neg (by simp [hcolumn]), readRun_letters run hrun hr (.inr rfl) hf]
  cases Letters.unpaired run with
  | false => rfl
  | true =>
      simp only [if_true, Option.bind_eq_bind, Option.bind_some, hquote]
      rw [if_pos (show '"' = Quote.double.char from rfl), Cursor.advance_advance]
      rfl

/-- Behind a run and spaces the scalar goes on. -/
theorem readLines_spaces {run spaces : Letters} {tail : List Char}
    (hrun : ∀ letter ∈ run, letter.Shared ∧ letter.isSpace = false)
    (hspaces : ∀ letter ∈ spaces, letter.isSpace = true) (hne : spaces ≠ [])
    (hr : pos.rest = run.chars ++ (spaces.chars ++ tail))
    (ht : Json.Stops (fun c => isBlank c || isBreak c) tail) (hcolumn : pos.column ≠ 0)
    (hf : run.length < fuel) (hf' : spaces.chars.length ≤ fuel) :
    readLines .double (fuel + 1) pos =
      if Letters.unpaired run then
        (readLines .double fuel ((pos.advance run.chars.length).advance spaces.chars.length)).map
          fun (more, stop) => (run.map Letter.char ++ spaces.map Letter.char ++ more, stop)
      else none := by
  obtain ⟨htext, hblank⟩ := spaces_chars hspaces
  obtain ⟨others, hothers⟩ : ∃ others, Letters.chars spaces = ' ' :: others := by
    obtain ⟨space, behind, rfl⟩ := List.exists_cons_of_ne_nil hne
    rw [htext, List.map_cons] at hblank
    exact ⟨behind.map Letter.char, by rw [htext, List.map_cons, hblank _ List.mem_cons_self]⟩
  have hrest : (pos.advance (Letters.chars run).length).rest = Letters.chars spaces ++ tail := by
    rw [Cursor.advance_append hr]
  have hstart : (pos.advance (Letters.chars run).length).rest = ' ' :: (others ++ tail) := by
    rw [hrest, hothers]
    rfl
  have hspace : pos.rest = Letters.chars run ++ ' ' :: (others ++ tail) := by
    rw [hr, hothers]
    rfl
  have hgap : Gap.text { broken := false, blanks := [] ++ Letters.chars spaces } =
      spaces.map Letter.char := htext
  rw [readLines, if_neg (by simp [hcolumn]), readRun_letters run hrun hspace (.inl rfl) hf]
  cases Letters.unpaired run with
  | false => rfl
  | true =>
      simp only [if_true, Option.bind_eq_bind, Option.bind_some, hstart]
      rw [if_neg (show ¬ ' ' = Quote.double.char by decide),
        Gap.read_spaces fuel (-1) { broken := false } rfl hrest hblank ht hf']
      simp only [Option.bind_some, hgap]
      cases readLines .double fuel _ with
      | none => rfl
      | some found => rfl

theorem readLines_letters : ∀ (fuel : Nat) {letters : Letters} {pos : Cursor} {rest : List Char},
    (∀ letter ∈ letters, letter.Shared) → pos.rest = letters.chars ++ '"' :: rest →
    pos.column ≠ 0 → pos.rest.length < fuel →
    readLines .double fuel pos =
      if Letters.unpaired letters then
        some (letters.map Letter.char, pos.advance (letters.chars.length + 1))
      else none
  | fuel + 1, letters, pos, rest, hs, hr, hcolumn, hf => by
      obtain ⟨run, behind, rfl, hrun, hbehind⟩ :=
        Json.exists_run (fun letter => !letter.isSpace) letters
      have hrunShared : ∀ letter ∈ run, letter.Shared ∧ letter.isSpace = false := fun letter hl =>
        ⟨hs letter (List.mem_append_left _ hl), by simpa using hrun letter hl⟩
      have hlength : run.length < fuel := by
        have := Letters.length_le run
        rw [hr, chars_append, List.length_append, List.length_append, List.length_cons] at hf
        omega
      cases behind with
      | nil =>
          rw [List.append_nil] at hr ⊢
          exact readLines_run hrunShared hr hcolumn hlength
      | cons space behind =>
          obtain ⟨spaces, more, rfl, hspaces, hmore⟩ := Json.exists_run Letter.isSpace behind
          have hall : ∀ letter ∈ space :: spaces, letter.isSpace = true :=
            List.forall_mem_cons.mpr ⟨by simpa using hbehind space rfl, hspaces⟩
          have hmoreShared : ∀ letter ∈ more, letter.Shared := fun letter hl =>
            hs letter (List.mem_append_right _ (List.mem_cons_of_mem _ (List.mem_append_right _ hl)))
          rw [← List.cons_append] at hr ⊢
          rw [chars_append, chars_append, List.append_assoc, List.append_assoc] at hr
          have hmoreRest : ((pos.advance (Letters.chars run).length).advance
              (Letters.chars (space :: spaces)).length).rest = Letters.chars more ++ '"' :: rest := by
            rw [Cursor.advance_append hr, Cursor.advance_append rfl]
          have hlengths : (Letters.chars (space :: spaces)).length ≤ fuel ∧
              (Letters.chars more ++ '"' :: rest).length < fuel := by
            have hspace := Letters.length_le (space :: spaces)
            rw [hr, List.length_append, List.length_append] at hf
            rw [List.length_cons] at hspace
            omega
          have hread := readLines_letters fuel hmoreShared hmoreRest
            (by simp only [Cursor.advance]; omega) (by rw [hmoreRest]; exact hlengths.2)
          rw [readLines_spaces hrunShared hall (List.cons_ne_nil _ _) hr
            (stops_letters hmoreShared hmore rest) hcolumn hlength hlengths.1, hread,
            unpaired_append, unpaired_append, unpaired_spaces hall, Bool.true_and]
          cases Letters.unpaired run with
          | false => rfl
          | true =>
              cases Letters.unpaired more with
              | false => rfl
              | true =>
                  simp only [if_true, Option.map_some, Bool.true_and, chars_append, List.map_append,
                    List.append_assoc, List.length_append, Cursor.advance_advance, Nat.add_assoc]

/-- Text of JSON is read as the same text, if no surrogates are in it. -/
theorem read_letters {letters : Letters} {pos : Cursor} {rest : List Char}
    (hs : ∀ letter ∈ letters, letter.Shared) (hr : pos.rest = letters.quoted ++ rest) :
    read .double pos =
      if Letters.unpaired letters then
        some (letters.map Letter.char, pos.advance letters.quoted.length)
      else none := by
  have hquoted : pos.rest = '"' :: (letters.chars ++ '"' :: rest) := by
    rw [hr]
    simp [Letters.quoted]
  have hrest := Cursor.rest_advance_one hquoted
  have hread := readLines_letters (pos.rest.length + 1) hs hrest (by simp [Cursor.advance])
    (by rw [hrest, hquoted, List.length_cons]; omega)
  have hlength : letters.quoted.length = 1 + (letters.chars.length + 1) := by
    simp only [Letters.quoted, List.length_cons, List.length_append, List.length_nil]
    omega
  rw [read, hread, Cursor.advance_advance, hlength]

end StepGraph.Yaml.QuotedScalar
