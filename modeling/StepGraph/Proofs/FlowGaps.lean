/-
Moving over blanks between the tokens of YAML text.

Inside a flow collection all blanks that JSON knows are passed over.  Outside
of any, a tab is passed over only where no key may start: behind the document,
on the line on which that ends.
-/
import StepGraph.Proofs.JsonGrammar
import StepGraph.Yaml.Lexer

namespace StepGraph.Yaml

/-- The blanks of JSON are blanks and line breaks of YAML. -/
theorem isBlank_or_isBreak {c : Char} (h : Json.isBlank c = true) :
    (isBlank c || isBreak c) = true := by
  simp only [Json.isBlank, Bool.or_eq_true, decide_eq_true_eq] at h
  rcases h with ((rfl | rfl) | rfl) | rfl
  all_goals decide

/-! ## Places -/

theorem byteCount_append (cs ds : List Char) :
    byteCount (cs ++ ds) = byteCount cs + byteCount ds := by
  induction cs with
  | nil => exact (Nat.zero_add _).symm
  | cons c cs ih =>
      show c.utf8Size + byteCount (cs ++ ds) = c.utf8Size + byteCount cs + byteCount ds
      rw [ih, Nat.add_assoc]

namespace Cursor

theorem advance_append {pos : Cursor} {run rest : List Char} (h : pos.rest = run ++ rest) :
    pos.advance run.length =
      { rest := rest, offset := pos.offset + byteCount run, line := pos.line,
        column := pos.column + run.length } := by
  rw [advance, offsetBehind, h, List.drop_left, List.take_left]

theorem rest_advance_one {pos : Cursor} {c : Char} {rest : List Char} (h : pos.rest = c :: rest) :
    (pos.advance 1).rest = rest := by
  rw [advance, h]
  rfl

theorem advance_advance (pos : Cursor) (count more : Nat) :
    (pos.advance count).advance more = pos.advance (count + more) := by
  have hsplit : pos.rest.take (count + more) = pos.rest.take count ++ (pos.rest.drop count).take more :=
    List.take_add
  simp only [advance, offsetBehind, List.drop_drop, hsplit, byteCount_append, Nat.add_assoc]

@[simp] theorem advance_zero (pos : Cursor) : pos.advance 0 = pos := rfl

theorem skipWhile_cons {pos : Cursor} {p : Char → Bool} {c : Char} {rest : List Char}
    (h : pos.rest = c :: rest) (hc : p c = true) :
    pos.skipWhile p = (pos.advance 1).skipWhile p := by
  rw [skipWhile, skipWhile, rest_advance_one h, h, List.takeWhile_cons_of_pos hc, advance_advance,
    List.length_cons, Nat.add_comm]

theorem skipWhile_of_stops {pos : Cursor} {p : Char → Bool} (h : Json.Stops p pos.rest) :
    pos.skipWhile p = pos := by
  rw [skipWhile, ← List.nil_append pos.rest, Json.takeWhile_run (fun _ hc => absurd hc List.not_mem_nil) h]
  exact advance_zero pos

/-- Behind a line break the gap goes on, or it goes on behind the other half of that break. -/
theorem takeBreak_gap {pos : Cursor} {c : Char} {gap tail : List Char}
    (h : pos.rest = c :: gap ++ tail) (hc : isBreak c = true) (ht : tail.head? ≠ some '\n') :
    ∃ more, pos.takeBreak.2.rest = more ++ tail ∧ (more = gap ∨ gap = '\n' :: more) := by
  have hsingle : (pos.nextLine 1).rest = gap ++ tail := by
    rw [nextLine, h]
    rfl
  rw [takeBreak, h]
  split
  · rename_i heq
    obtain ⟨rfl, hpair⟩ := List.cons.inj heq
    cases gap with
    | nil =>
        have hfeed : tail.head? = some '\n' := congrArg List.head? hpair
        exact absurd hfeed ht
    | cons d more =>
        obtain ⟨rfl, rfl⟩ := List.cons.inj hpair
        refine ⟨more, ?_, .inr rfl⟩
        show (pos.rest.drop 2) = _
        rw [h]
        rfl
  · rename_i heq
    obtain ⟨rfl, rfl⟩ := List.cons.inj heq
    rw [apply_ite Prod.snd, if_pos hc, ite_self]
    exact ⟨gap, hsingle, .inl rfl⟩
  · rename_i heq
    exact absurd heq (List.cons_ne_nil _ _)

end Cursor

/-! ## Moving on to a token -/

namespace Lexer

/-- Whether the lexer passes over the character when it moves on to the next token. -/
def passesOver (l : Lexer) (c : Char) : Bool := c = ' ' || ((l.inFlow || !l.keyAllowed) && c = '\t')

/-- A character that no gap holds and no comment starts with. -/
def isSolid (c : Char) : Bool := !isBlank c && !isBreak c && c ≠ '#' && c ≠ byteOrderMark

/-- The place behind blanks and a comment. -/
def behindBlanks (l : Lexer) (pos : Cursor) : Cursor :=
  let pos := pos.skipWhile l.passesOver
  match pos.rest with
  | '#' :: _ => pos.skipWhile fun c => !isBreak c
  | _ => pos

theorem toNextToken_succ {l : Lexer}
    (h : ¬ (l.pos.column = 0 ∧ l.pos.rest.head? = some byteOrderMark)) (fuel : Nat) :
    toNextToken (fuel + 1) l =
      match (l.behindBlanks l.pos).rest with
      | c :: _ =>
          if isBreak c then
            toNextToken fuel
              { l with
                pos := (l.behindBlanks l.pos).takeBreak.2, keyAllowed := l.keyAllowed || !l.inFlow }
          else { l with pos := l.behindBlanks l.pos }
      | [] => { l with pos := l.behindBlanks l.pos } := by
  rw [toNextToken, if_neg h]
  rfl

variable {l : Lexer} {c : Char} {rest : List Char}

theorem toNextToken_blank (h : l.pos.rest = c :: rest) (hc : l.passesOver c = true) (fuel : Nat) :
    toNextToken (fuel + 1) l = toNextToken (fuel + 1) { l with pos := l.pos.advance 1 } := by
  have hmark : c ≠ byteOrderMark := by
    rintro rfl
    simp [passesOver, byteOrderMark] at hc
  rw [toNextToken_succ (by rw [h]; simp [hmark]), toNextToken_succ (by simp [Cursor.advance])]
  have hpos : l.behindBlanks l.pos = l.behindBlanks (l.pos.advance 1) := by
    rw [behindBlanks, behindBlanks, Cursor.skipWhile_cons h hc]
  rw [hpos]
  rfl

theorem behindBlanks_of_stops (h : Json.Stops l.passesOver l.pos.rest)
    (hcomment : l.pos.rest.head? ≠ some '#') : l.behindBlanks l.pos = l.pos := by
  rw [behindBlanks, Cursor.skipWhile_of_stops h]
  split
  · rename_i heq
    rw [heq] at hcomment
    exact absurd rfl hcomment
  · rfl

theorem toNextToken_break (h : l.pos.rest = c :: rest) (hc : isBreak c = true) (fuel : Nat) :
    toNextToken (fuel + 1) l =
      toNextToken fuel
        { l with pos := l.pos.takeBreak.2, keyAllowed := l.keyAllowed || !l.inFlow } := by
  have hne : ∀ d, isBreak d = false → c ≠ d := by
    rintro d hd rfl
    rw [hc] at hd
    cases hd
  have hpos : l.behindBlanks l.pos = l.pos := by
    refine behindBlanks_of_stops ?_ ?_
    · rw [h]
      refine .cons ?_
      simp [passesOver, hne ' ' (by decide), hne '\t' (by decide)]
    · rw [h]
      simp [hne '#' (by decide)]
  rw [toNextToken_succ (by rw [h]; simp [hne byteOrderMark (by decide)]), hpos, h]
  exact if_pos hc

theorem toNextToken_solid (h : Json.Stops (fun c => !isSolid c) l.pos.rest) (fuel : Nat) :
    toNextToken (fuel + 1) l = l := by
  cases hr : l.pos.rest with
  | nil =>
      have hpos : l.behindBlanks l.pos = l.pos :=
        behindBlanks_of_stops (hr ▸ .nil) (by simp [hr])
      rw [toNextToken_succ (by rw [hr]; simp), hpos, hr]
  | cons c rest =>
      have hc := h c (by rw [hr]; rfl)
      simp only [isSolid, isBlank, Bool.not_eq_false', Bool.and_eq_true, Bool.not_eq_true',
        Bool.or_eq_false_iff, decide_eq_false_iff_not, decide_eq_true_eq] at hc
      obtain ⟨⟨⟨⟨hspace, htab⟩, hbreak⟩, hcomment⟩, hmark⟩ := hc
      have hpos : l.behindBlanks l.pos = l.pos := by
        refine behindBlanks_of_stops ?_ ?_
        · rw [hr]
          exact .cons (by simp [passesOver, hspace, htab])
        · rw [hr]
          simpa using hcomment
      rw [toNextToken_succ (by rw [hr]; simp [hmark]), hpos, hr]
      exact if_neg (by rw [hbreak]; exact Bool.false_ne_true)

/-- A gap that the lexer passes over wholly.  Where a key may start outside of flow collections,
tabs are none; and behind a line break a key may start. -/
def Passes (flow : Bool) : Bool → List Char → Prop
  | _, [] => True
  | keyAllowed, c :: gap =>
      if isBreak c then Passes flow (keyAllowed || !flow) gap
      else (c = ' ' ∨ (flow || !keyAllowed) = true ∧ c = '\t') ∧ Passes flow keyAllowed gap

instance decidablePasses (flow : Bool) : (keyAllowed : Bool) → (gap : List Char) →
    Decidable (Passes flow keyAllowed gap)
  | _, [] => isTrue trivial
  | keyAllowed, c :: gap =>
      have := decidablePasses flow (keyAllowed || !flow) gap
      have := decidablePasses flow keyAllowed gap
      inferInstanceAs (Decidable (if isBreak c then _ else _ ∧ _))

theorem passesOver_of (h : c = ' ' ∨ (l.inFlow || !l.keyAllowed) = true ∧ c = '\t') :
    l.passesOver c = true := by
  rcases h with rfl | ⟨htabs, rfl⟩
  · rfl
  · simpa [passesOver] using htabs

/-- Behind a gap the lexer stands at the token; whether a key may start has changed outside of
flow collections only. -/
theorem toNextToken_gap : ∀ {gap tail : List Char} {l : Lexer},
    l.pos.rest = gap ++ tail → Passes l.inFlow l.keyAllowed gap →
    Json.Stops (fun c => !isSolid c) tail →
    ∃ pos keyAllowed,
      (∀ fuel, gap.length < fuel → toNextToken fuel l = { l with pos, keyAllowed }) ∧
      pos.rest = tail ∧ (l.inFlow = true → keyAllowed = l.keyAllowed)
  | [], tail, l, hr, _, ht => by
      refine ⟨l.pos, l.keyAllowed, ?_, hr, fun _ => rfl⟩
      intro fuel hf
      obtain ⟨fuel, rfl⟩ := Nat.exists_eq_succ_of_ne_zero (Nat.ne_zero_of_lt hf)
      exact toNextToken_solid (hr ▸ ht) fuel
  | c :: gap, tail, l, hr, hp, ht => by
      rw [Passes] at hp
      split at hp
      · rename_i hbreak
        have hfeed : tail.head? ≠ some '\n' := fun h => absurd (ht _ h) (by decide)
        obtain ⟨more, hrest, hmore⟩ := Cursor.takeBreak_gap hr hbreak hfeed
        have hpasses : Passes l.inFlow (l.keyAllowed || !l.inFlow) more ∧ more.length ≤ gap.length := by
          rcases hmore with rfl | rfl
          · exact ⟨hp, Nat.le_refl _⟩
          · rw [Passes, if_pos (by decide), Bool.or_assoc, Bool.or_self] at hp
            exact ⟨hp, Nat.le_succ _⟩
        obtain ⟨pos, keyAllowed, hnext, hpos, hkey⟩ := toNextToken_gap
          (l := { l with pos := l.pos.takeBreak.2, keyAllowed := l.keyAllowed || !l.inFlow })
          hrest hpasses.1 ht
        refine ⟨pos, keyAllowed, ?_, hpos, fun hflow => by rw [hkey hflow, hflow]; simp⟩
        intro fuel hf
        obtain ⟨fuel, rfl⟩ := Nat.exists_eq_succ_of_ne_zero (Nat.ne_zero_of_lt hf)
        rw [toNextToken_break hr hbreak]
        refine hnext fuel ?_
        rw [List.length_cons] at hf
        omega
      · obtain ⟨hc, hp⟩ := hp
        obtain ⟨pos, keyAllowed, hnext, hpos, hkey⟩ :=
          toNextToken_gap (l := { l with pos := l.pos.advance 1 })
            (Cursor.rest_advance_one hr) hp ht
        refine ⟨pos, keyAllowed, ?_, hpos, hkey⟩
        intro fuel hf
        obtain ⟨fuel, rfl⟩ := Nat.exists_eq_succ_of_ne_zero (Nat.ne_zero_of_lt hf)
        rw [toNextToken_blank hr (passesOver_of hc)]
        exact hnext (fuel + 1) (Nat.lt_of_succ_lt hf)
  termination_by gap => gap.length

/-- On one line the place behind the gap is known. -/
theorem toNextToken_line : ∀ {gap tail : List Char} {l : Lexer} (fuel : Nat),
    l.pos.rest = gap ++ tail → Passes l.inFlow l.keyAllowed gap →
    (∀ c ∈ gap, isBreak c = false) → Json.Stops (fun c => !isSolid c) tail →
    toNextToken (fuel + 1) l = { l with pos := l.pos.advance gap.length }
  | [], tail, l, fuel, hr, _, _, ht => toNextToken_solid (hr ▸ ht) fuel
  | c :: gap, tail, l, fuel, hr, hp, hline, ht => by
      have hbreak : isBreak c = false := hline c List.mem_cons_self
      rw [Passes, if_neg (by rw [hbreak]; exact Bool.false_ne_true)] at hp
      obtain ⟨hc, hp⟩ := hp
      rw [toNextToken_blank hr (passesOver_of hc),
        toNextToken_line (l := { l with pos := l.pos.advance 1 }) fuel (Cursor.rest_advance_one hr)
          hp (fun d hd => hline d (List.mem_cons_of_mem _ hd)) ht]
      simp only [Cursor.advance_advance, List.length_cons, Nat.add_comm]

end Lexer

end StepGraph.Yaml
