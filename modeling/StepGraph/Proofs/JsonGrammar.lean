/-
Every text that is read as JSON is written by a tree.

Each part of the reader hands back what is left of the text; what it took is
a part of a tree.  Together with the way from trees to readings this makes the
trees the grammar of the reader.
-/
import StepGraph.Proofs.JsonReading

namespace StepGraph.Json

open StepGraph.Text (isDigit)

theorem exists_blanks (text : List Char) : ∃ gap : Blanks, text = gap.chars ++ skipBlanks text :=
  ⟨⟨text.takeWhile isBlank, fun _ hc => List.mem_takeWhile_imp hc⟩,
    (List.takeWhile_append_dropWhile).symm⟩

def Blanks.append (gap other : Blanks) : Blanks :=
  ⟨gap.chars ++ other.chars, fun c hc => (List.mem_append.mp hc).elim (gap.blank c) (other.blank c)⟩

theorem exists_digits {text ds rest : List Char} (h : digits text = (ds, rest)) (hne : ds ≠ []) :
    ∃ run : Digits, ds = run.chars ∧ text = run.chars ++ rest := by
  obtain ⟨rfl, rfl⟩ := Prod.mk.inj h
  exact ⟨⟨_, fun _ hc => List.mem_takeWhile_imp hc, hne⟩, rfl,
    (List.takeWhile_append_dropWhile).symm⟩

theorem exists_whole {text ds rest : List Char} (h : wholePart text = some (ds, rest)) :
    ∃ whole : Digits, ds = whole.chars ∧ text = whole.chars ++ rest ∧
      ∀ more, whole.chars = '0' :: more → more = [] := by
  unfold wholePart at h
  split at h
  · cases h
  · cases h
  · rename_i found behind hnil hzero heq
    obtain ⟨rfl, rfl⟩ := Prod.mk.inj (Option.some.inj h)
    obtain ⟨whole, rfl, htext⟩ := exists_digits heq hnil
    refine ⟨whole, rfl, htext, ?_⟩
    rintro (_ | ⟨c, more⟩) hmore
    · rfl
    · exact absurd hmore (hzero _ _)

theorem exists_part {text rest : List Char} {found : Option (List Char)}
    (h : fractionPart text = some (found, rest)) :
    ∃ part : Option Digits, found = part.map Digits.chars ∧
      text = (part.map fun part => '.' :: part.chars).getD [] ++ rest := by
  unfold fractionPart at h
  split at h
  · split at h
    · cases h
    · rename_i hnil heq
      obtain ⟨rfl, rfl⟩ := Prod.mk.inj (Option.some.inj h)
      obtain ⟨part, rfl, rfl⟩ := exists_digits heq hnil
      exact ⟨some part, rfl, rfl⟩
  · obtain ⟨rfl, rfl⟩ := Prod.mk.inj (Option.some.inj h)
    exact ⟨none, rfl, rfl⟩

theorem exists_sign (text : List Char) :
    ∃ sign : Sign, text = sign.chars ++ (exponentSign text).2 ∧
      (exponentSign text).1 = sign.isMinus := by
  unfold exponentSign
  split
  · exact ⟨.minus, rfl, rfl⟩
  · exact ⟨.plus, rfl, rfl⟩
  · exact ⟨.none, rfl, rfl⟩

theorem exists_exponent {text rest : List Char} {found : Option Int}
    (h : exponentPart text = some (found, rest)) :
    ∃ exponent : Option Exponent, found = exponent.map Exponent.value ∧
      text = (exponent.map Exponent.chars).getD [] ++ rest := by
  unfold exponentPart at h
  split at h
  · rename_i c behind
    split at h
    · rename_i hmark
      obtain ⟨sign, hsign, hnegative⟩ := exists_sign behind
      simp only at h
      split at h
      · cases h
      · rename_i hnil heq
        obtain ⟨rfl, rfl⟩ := Prod.mk.inj (Option.some.inj h)
        obtain ⟨ds, rfl, hdigits⟩ := exists_digits heq hnil
        have hmarks : c = 'e' ∨ c = 'E' := by simpa using hmark
        refine ⟨some ⟨c, sign, ds, hmarks⟩, ?_, ?_⟩
        · rw [Option.map_some, Exponent.value, hnegative]
          cases sign with
          | none => rfl
          | plus => rfl
          | minus => rfl
        · rw [hdigits] at hsign
          simp [Exponent.chars, ← hsign]
    · obtain ⟨rfl, rfl⟩ := Prod.mk.inj (Option.some.inj h)
      exact ⟨none, rfl, rfl⟩
  · obtain ⟨rfl, rfl⟩ := Prod.mk.inj (Option.some.inj h)
    exact ⟨none, rfl, rfl⟩

theorem exists_number_size {negative : Bool} {text rest : List Char} {value : Number}
    (h : readSize negative text = some (value, rest)) :
    ∃ n : NumberText, n.value = value ∧ n.negative = negative ∧
      text = n.whole.chars ++ (n.partChars ++ (n.exponentChars ++ rest)) := by
  simp only [readSize, Option.bind_eq_bind, Option.bind_eq_some_iff, pure, Option.some.injEq,
    Prod.mk.injEq] at h
  obtain ⟨⟨_, behindWhole⟩, hwhole, ⟨_, behindPart⟩, hpart, ⟨_, behindExponent⟩, hexponent,
    _, hvalue, rfl, rfl⟩ := h
  obtain ⟨whole, rfl, rfl, hunpadded⟩ := exists_whole hwhole
  obtain ⟨part, rfl, rfl⟩ := exists_part hpart
  obtain ⟨exponent, rfl, rfl⟩ := exists_exponent hexponent
  exact ⟨⟨negative, whole, part, exponent, _, hunpadded, hvalue⟩, rfl, rfl, rfl⟩

theorem exists_number {text rest : List Char} {value : Number}
    (h : readNumber text = some (value, rest)) :
    ∃ n : NumberText, n.value = value ∧ text = n.chars ++ rest := by
  by_cases hm : text.head? = some '-'
  · obtain ⟨behind, rfl⟩ : ∃ behind, text = '-' :: behind := by
      cases text with
      | nil => cases hm
      | cons c behind => exact ⟨behind, by rw [Option.some.inj hm]⟩
    obtain ⟨n, hvalue, hnegative, rfl⟩ := exists_number_size ((readNumber_minus _).symm.trans h)
    exact ⟨n, hvalue, by simp [NumberText.chars, NumberText.signChars, hnegative]⟩
  · obtain ⟨n, hvalue, hnegative, rfl⟩ :=
      exists_number_size ((readNumber_of_ne hm).symm.trans h)
    exact ⟨n, hvalue, by simp [NumberText.chars, NumberText.signChars, hnegative]⟩

theorem exists_codeUnit {text rest : List Char} {code : Nat}
    (h : hexFour text = some (code, rest)) :
    ∃ four : CodeUnit, four.code = code ∧ text = four.digits ++ rest := by
  match text, h with
  | a :: b :: c :: d :: more, h =>
      simp only [hexFour, Option.bind_eq_bind, Option.bind_eq_some_iff, pure, Option.some.injEq,
        Prod.mk.injEq] at h
      obtain ⟨x, hx, y, hy, z, hz, w, hw, rfl, rfl⟩ := h
      exact ⟨⟨[a, b, c, d], _, by simp [hexFour, hx, hy, hz, hw]⟩, rfl, rfl⟩

theorem exists_unicode {text rest : List Char} {c : Char}
    (h : readUnicode text = some (c, rest)) :
    ∃ letter : Letter, letter.char = c ∧ '\\' :: 'u' :: text = letter.chars ++ rest := by
  simp only [readUnicode, Option.bind_eq_bind, Option.bind_eq_some_iff] at h
  obtain ⟨⟨code, behind⟩, hcode, h⟩ := h
  obtain ⟨four, rfl, rfl⟩ := exists_codeUnit hcode
  split at h
  · cases h
  · rename_i hlow
    split at h
    · rename_i hhigh
      split at h
      · rename_i heq
        obtain rfl : behind = _ := heq
        obtain ⟨⟨other, last⟩, hother, hpair⟩ := Option.bind_eq_some_iff.mp h
        obtain ⟨low, rfl, rfl⟩ := exists_codeUnit hother
        clear h
        split at hpair
        · rename_i hlow
          obtain ⟨rfl, rfl⟩ := Prod.mk.inj (Option.some.inj hpair)
          refine ⟨.pair four low ⟨?_, ?_⟩, rfl, ?_⟩
          · simpa [isHighSurrogate] using hhigh
          · simpa [isLowSurrogate] using hlow
          · simp [Letter.chars]
        · cases hpair
      · cases h
    · rename_i hhigh
      obtain ⟨rfl, rfl⟩ := Prod.mk.inj (Option.some.inj h)
      refine ⟨.unit four ⟨?_, ?_⟩, rfl, rfl⟩
      · simpa [isHighSurrogate] using hhigh
      · simpa [isLowSurrogate] using hlow

theorem exists_letter {c char : Char} {text rest : List Char} (hquote : c ≠ '"')
    (hcontrol : ¬ c.toNat < 32) (h : readLetter c text = some (char, rest)) :
    ∃ letter : Letter, letter.char = char ∧ c :: text = letter.chars ++ rest := by
  unfold readLetter at h
  split at h
  · rename_i hslash
    subst hslash
    split at h
    · exact exists_unicode h
    · rename_i letter behind _
      obtain ⟨c, hc, he⟩ := Option.map_eq_some_iff.mp h
      obtain ⟨rfl, rfl⟩ := Prod.mk.inj he
      exact ⟨.short letter c hc, rfl, rfl⟩
    · cases h
  · rename_i hslash
    obtain ⟨rfl, rfl⟩ := Prod.mk.inj (Option.some.inj h)
    exact ⟨.plain c ⟨hquote, hslash, by omega⟩, rfl, rfl⟩

theorem exists_letters : ∀ {fuel : Nat} {text rest : List Char} {cs : List Char},
    readChars fuel text = some (cs, rest) →
    ∃ letters : Letters, letters.map Letter.char = cs ∧ text = letters.chars ++ '"' :: rest
  | 0, _, _, _, h => by cases h
  | fuel + 1, [], _, _, h => by cases h
  | fuel + 1, c :: text, rest, cs, h => by
      by_cases hquote : c = '"'
      · rw [readChars, if_pos hquote] at h
        obtain ⟨rfl, rfl⟩ := Prod.mk.inj (Option.some.inj h)
        exact ⟨[], rfl, by rw [hquote]; rfl⟩
      by_cases hcontrol : c.toNat < 32
      · rw [readChars, if_neg hquote, if_pos hcontrol] at h
        cases h
      · rw [readChars_cons hquote hcontrol] at h
        simp only [Option.bind_eq_bind, Option.bind_eq_some_iff, pure, Option.some.injEq,
          Prod.mk.injEq] at h
        obtain ⟨⟨char, behind⟩, hletter, ⟨more, last⟩, hmore, rfl, rfl⟩ := h
        obtain ⟨letter, rfl, htext⟩ := exists_letter hquote hcontrol hletter
        obtain ⟨letters, rfl, rfl⟩ := exists_letters hmore
        refine ⟨letter :: letters, rfl, ?_⟩
        rw [htext]
        simp [Letters.chars]

theorem exists_text {text rest : List Char} {found : String}
    (h : readText text = some (found, rest)) :
    ∃ letters : Letters, letters.text = found ∧ '"' :: text = letters.quoted ++ rest := by
  obtain ⟨⟨cs, behind⟩, hcs, he⟩ := Option.map_eq_some_iff.mp h
  obtain ⟨rfl, rfl⟩ := Prod.mk.inj he
  obtain ⟨letters, rfl, rfl⟩ := exists_letters hcs
  exact ⟨letters, rfl, by simp [Letters.quoted]⟩

theorem exists_name {text rest : List Char} {found : String}
    (h : readName text = some (found, rest)) :
    ∃ (gap : Blanks) (name : Name), name.letters.text = found ∧
      text = gap.chars ++ (name.chars ++ ':' :: rest) := by
  obtain ⟨gap, hgap⟩ := exists_blanks text
  unfold readName at h
  split at h
  · rename_i quoted hquoted
    obtain ⟨⟨name, behind⟩, hname, h⟩ := Option.bind_eq_some_iff.mp h
    obtain ⟨letters, rfl, htext⟩ := exists_text hname
    obtain ⟨blanks, hblanks⟩ := exists_blanks behind
    simp only at h
    split at h
    · rename_i last hlast
      obtain ⟨rfl, rfl⟩ := Prod.mk.inj (Option.some.inj h)
      refine ⟨gap, ⟨letters, blanks⟩, rfl, ?_⟩
      rw [hgap, hquoted, htext, hblanks, hlast, Name.chars, List.append_assoc]
    · cases h
  · cases h

theorem word?_eq_some : ∀ {word text rest : List Char}, word? word text = some rest →
    text = word ++ rest
  | [], _, _, h => Option.some.inj h
  | _ :: _, [], _, h => by cases h
  | c :: word, d :: text, rest, h => by
      rw [word?] at h
      split at h
      · rename_i hc
        rw [hc, word?_eq_some h]
        rfl
      · cases h

theorem exists_scalar {text rest : List Char} {document : Document}
    (h : readScalar text = some (document, rest)) :
    ∃ w : Written, (∀ room, w.document? room = some document) ∧ text = w.chars ++ rest := by
  unfold readScalar at h
  split at h
  · obtain ⟨⟨found, behind⟩, htext, he⟩ := Option.map_eq_some_iff.mp h
    obtain ⟨rfl, rfl⟩ := Prod.mk.inj he
    obtain ⟨letters, rfl, hquoted⟩ := exists_text htext
    exact ⟨.string letters, fun _ => rfl, hquoted⟩
  · obtain ⟨behind, hword, he⟩ := Option.map_eq_some_iff.mp h
    obtain ⟨rfl, rfl⟩ := Prod.mk.inj he
    exact ⟨.null, fun _ => rfl, by rw [word?_eq_some hword]; rfl⟩
  · obtain ⟨behind, hword, he⟩ := Option.map_eq_some_iff.mp h
    obtain ⟨rfl, rfl⟩ := Prod.mk.inj he
    exact ⟨.bool true, fun _ => rfl, by rw [word?_eq_some hword]; rfl⟩
  · obtain ⟨behind, hword, he⟩ := Option.map_eq_some_iff.mp h
    obtain ⟨rfl, rfl⟩ := Prod.mk.inj he
    exact ⟨.bool false, fun _ => rfl, by rw [word?_eq_some hword]; rfl⟩
  · obtain ⟨⟨value, behind⟩, hnumber, he⟩ := Option.map_eq_some_iff.mp h
    obtain ⟨rfl, rfl⟩ := Prod.mk.inj he
    obtain ⟨n, rfl, htext⟩ := exists_number hnumber
    exact ⟨.number n, fun _ => rfl, htext⟩

mutual

theorem exists_written : ∀ {fuel room : Nat} {text rest : List Char} {document : Document},
    readDocument fuel room text = some (document, rest) →
    ∃ (gap : Blanks) (w : Written), w.document? room = some document ∧
      text = gap.chars ++ (w.chars ++ rest)
  | 0, _, _, _, _, h => by simp [readDocument] at h
  | fuel + 1, room, text, rest, document, h => by
      obtain ⟨gap, hgap⟩ := exists_blanks text
      unfold readDocument at h
      simp only at h
      split at h
      · rename_i behind room hopen
        obtain ⟨inner, hinner⟩ := exists_blanks behind
        split at h
        · rename_i hclose
          obtain ⟨rfl, rfl⟩ := Prod.mk.inj (Option.some.inj h)
          refine ⟨gap, .emptyList inner, rfl, ?_⟩
          rw [hgap, hopen, hinner, hclose]
          simp [Written.chars]
        · obtain ⟨⟨documents, last⟩, hitems, he⟩ := Option.map_eq_some_iff.mp h
          obtain ⟨rfl, rfl⟩ := Prod.mk.inj he
          obtain ⟨blanks, items, hd, htext⟩ := exists_items hitems
          refine ⟨gap, .list (inner.append blanks) items, ?_, ?_⟩
          · rw [Written.document?, hd]
            rfl
          · rw [hgap, hopen, hinner, htext]
            simp [Written.chars, Blanks.append]
      · rename_i behind room hopen
        obtain ⟨inner, hinner⟩ := exists_blanks behind
        split at h
        · rename_i hclose
          obtain ⟨rfl, rfl⟩ := Prod.mk.inj (Option.some.inj h)
          refine ⟨gap, .emptyObject inner, rfl, ?_⟩
          rw [hgap, hopen, hinner, hclose]
          simp [Written.chars]
        · obtain ⟨⟨fields, last⟩, hmembers, he⟩ := Option.map_eq_some_iff.mp h
          obtain ⟨rfl, rfl⟩ := Prod.mk.inj he
          obtain ⟨blanks, members, hd, htext⟩ := exists_members hmembers
          refine ⟨gap, .object (inner.append blanks) members, ?_, ?_⟩
          · rw [Written.document?, hd]
            rfl
          · rw [hgap, hopen, hinner, htext]
            simp [Written.chars, Blanks.append]
      · cases h
      · cases h
      · obtain ⟨w, hd, htext⟩ := exists_scalar h
        exact ⟨gap, w, hd _, by rw [hgap, htext]⟩

theorem exists_items : ∀ {fuel room : Nat} {text rest : List Char} {documents : List Document},
    readItems fuel room text = some (documents, rest) →
    ∃ (gap : Blanks) (items : Items), items.documents? room = some documents ∧
      text = gap.chars ++ (items.chars ++ ']' :: rest)
  | 0, _, _, _, _, h => by simp [readItems] at h
  | fuel + 1, room, text, rest, documents, h => by
      simp only [readItems, Option.bind_eq_bind, Option.bind_eq_some_iff] at h
      obtain ⟨⟨document, behind⟩, hdocument, h⟩ := h
      obtain ⟨gap, item, hitem, rfl⟩ := exists_written hdocument
      obtain ⟨after, hafter⟩ := exists_blanks behind
      simp only at h
      split at h
      · rename_i hclose
        obtain ⟨rfl, rfl⟩ := Prod.mk.inj (Option.some.inj h)
        refine ⟨gap, .last item after, ?_, ?_⟩
        · rw [Items.documents?, hitem]
          rfl
        · rw [hafter, hclose]
          simp [Items.chars]
      · rename_i hcomma
        obtain ⟨⟨more, last⟩, hmore, h⟩ := Option.bind_eq_some_iff.mp h
        obtain ⟨rfl, rfl⟩ := Prod.mk.inj (Option.some.inj h)
        obtain ⟨before, items, hitems, htext⟩ := exists_items hmore
        refine ⟨gap, .more item after before items, ?_, ?_⟩
        · rw [Items.documents?, hitem, hitems]
          rfl
        · rw [hafter, hcomma, htext]
          simp [Items.chars]
      · cases h

theorem exists_members : ∀ {fuel room : Nat} {text rest : List Char}
    {read fields : Fields Document},
    readFields fuel room read text = some (fields, rest) →
    ∃ (gap : Blanks) (members : Members), members.fields? room read = some fields ∧
      text = gap.chars ++ (members.chars ++ '}' :: rest)
  | 0, _, _, _, _, _, h => by simp [readFields] at h
  | fuel + 1, room, text, rest, read, fields, h => by
      simp only [readFields, Option.bind_eq_bind, Option.bind_eq_some_iff] at h
      obtain ⟨⟨found, behind⟩, hname, ⟨document, last⟩, hdocument, h⟩ := h
      obtain ⟨gap, name, rfl, rfl⟩ := exists_name hname
      obtain ⟨before, value, hvalue, rfl⟩ := exists_written hdocument
      obtain ⟨after, hafter⟩ := exists_blanks last
      simp only at h
      split at h
      · rename_i hclose
        obtain ⟨rfl, rfl⟩ := Prod.mk.inj (Option.some.inj h)
        refine ⟨gap, .last name before value after, ?_, ?_⟩
        · rw [Members.fields?, hvalue]
          rfl
        · rw [hafter, hclose]
          simp [Members.chars]
      · rename_i hcomma
        obtain ⟨blanks, members, hmembers, htext⟩ := exists_members h
        refine ⟨gap, .more name before value after blanks members, ?_, ?_⟩
        · rw [Members.fields?, hvalue]
          exact hmembers
        · rw [hafter, hcomma, htext]
          simp [Members.chars]
      · cases h

end

/-- The texts that are read are those that trees write. -/
theorem parse?_eq_some_iff {text : String} {document : Document} :
    parse? text = some document ↔
      ∃ w : WrittenText, w.chars = text.toList ∧ w.root.document? maxNesting = some document := by
  constructor
  · intro h
    unfold parse? at h
    simp only at h
    split at h
    · rename_i found rest hread
      split at h
      · rename_i hempty
        obtain rfl := Option.some.inj h
        obtain ⟨before, root, hroot, htext⟩ := exists_written hread
        obtain ⟨after, hafter⟩ := exists_blanks rest
        rw [List.isEmpty_iff.mp hempty, List.append_nil] at hafter
        exact ⟨⟨before, root, after⟩, by rw [WrittenText.chars, htext, hafter], hroot⟩
      · cases h
    · cases h
  · rintro ⟨w, hw, hd⟩
    rw [parse?_written hw, hd]

end StepGraph.Json
