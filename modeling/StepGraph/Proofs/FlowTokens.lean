/-
JSON text, taken apart into YAML tokens.

Every value of JSON makes the lexer put out the tokens of that value and leaves
it as deep in flow collections as it was.  A name becomes a key by the colon
behind it, so that has to stand on the same line and near; the possible keys
that lists and texts leave behind on the way are never required, and they are
given up without a fault.  Where a character is written by two surrogates the
lexer fails; its tokens are still said as if it had gone on.
-/
import StepGraph.Proofs.SharedJson

namespace StepGraph.Json

/-! ## Tokens -/

mutual

def Written.tokens : Written → List Yaml.Token
  | .null => [.scalar "null" true]
  | .bool value => [.scalar (boolText value) true]
  | .number numeral => [.scalar (String.ofList numeral.chars) true]
  | .string letters => [.scalar letters.text false]
  | .emptyList _ => [.flowSequenceStart, .flowSequenceEnd]
  | .list _ items => .flowSequenceStart :: (items.tokens ++ [.flowSequenceEnd])
  | .emptyObject _ => [.flowMappingStart, .flowMappingEnd]
  | .object _ members => .flowMappingStart :: (members.tokens ++ [.flowMappingEnd])

def Items.tokens : Items → List Yaml.Token
  | .last item _ => item.tokens
  | .more item _ _ rest => item.tokens ++ .flowEntry :: rest.tokens

def Members.tokens : Members → List Yaml.Token
  | .last name _ value _ => .key :: .scalar name.letters.text false :: .value :: value.tokens
  | .more name _ value _ _ rest =>
      .key :: .scalar name.letters.text false :: .value ::
        (value.tokens ++ .flowEntry :: rest.tokens)

end

end StepGraph.Json

namespace StepGraph.Yaml

open StepGraph.Json (Blanks Letters Name Written Items Members)
open StepGraph.Text (isDigit)

/-! ## Possible keys -/

/-- A possible key that may be given up. -/
def IsOptional (found : Option PossibleKey) : Prop := ∀ key ∈ found, key.required = false

theorem isOptional_none : IsOptional none := by
  rintro key hkey
  cases hkey

namespace Lexer

/-- A lexer outside of block collections that may give up every possible key. -/
structure Calm (l : Lexer) : Prop where
  count : l.count = l.tokens.length
  indent : l.indent = -1
  outerIndents : l.outerIndents = []
  possibleKey : IsOptional l.possibleKey
  outerKeys : ∀ found ∈ l.outerKeys, IsOptional found

theorem refresh_optional (pos : Cursor) {found : Option PossibleKey} (h : IsOptional found) :
    ∃ kept, refresh pos found = some kept ∧ IsOptional kept := by
  cases found with
  | none => exact ⟨none, rfl, h⟩
  | some key =>
      have hkey : key.required = false := h key rfl
      rw [refresh]
      split
      · exact ⟨none, by simp [hkey], isOptional_none⟩
      · exact ⟨some key, rfl, h⟩

theorem mapM_refresh (pos : Cursor) : ∀ {keys : List (Option PossibleKey)},
    (∀ found ∈ keys, IsOptional found) →
    ∃ kept, keys.mapM (refresh pos) = some kept ∧ kept.length = keys.length ∧
      ∀ found ∈ kept, IsOptional found
  | [], _ => ⟨[], rfl, rfl, List.forall_mem_nil _⟩
  | found :: keys, h => by
      obtain ⟨first, hfirst, hoptional⟩ := refresh_optional pos (h found List.mem_cons_self)
      obtain ⟨rest, hrest, hlength, hall⟩ :=
        mapM_refresh pos fun other ho => h other (List.mem_cons_of_mem _ ho)
      refine ⟨first :: rest, ?_, ?_, List.forall_mem_cons.mpr ⟨hoptional, hall⟩⟩
      · simp [List.mapM_cons, hfirst, hrest]
      · rw [List.length_cons, List.length_cons, hlength]

theorem dropStale_of_refresh {l : Lexer} (h : Calm l) {kept : Option PossibleKey}
    (hkept : refresh l.pos l.possibleKey = some kept) (hoptional : IsOptional kept) :
    ∃ keys, l.dropStale = some { l with possibleKey := kept, outerKeys := keys } ∧
      Calm { l with possibleKey := kept, outerKeys := keys } ∧
      keys.length = l.outerKeys.length := by
  obtain ⟨keys, hkeys, hlength, hall⟩ := mapM_refresh l.pos h.outerKeys
  refine ⟨keys, ?_, ⟨h.count, h.indent, h.outerIndents, hoptional, hall⟩, hlength⟩
  rw [dropStale, hkept, hkeys]
  rfl

theorem dropKey_calm {l : Lexer} (h : Calm l) :
    l.dropKey = some { l with possibleKey := none } := by
  rw [dropKey]
  split
  · rename_i key hkey
    have hrequired : key.required = false := h.possibleKey key hkey
    rw [hrequired]
    rfl
  · rename_i hkey
    rw [← hkey]

/-- Where a key may start the place is kept; outside of block collections it is not required to
be one. -/
theorem saveKey_calm {l : Lexer} (h : Calm l) :
    ∃ kept, l.saveKey = some { l with possibleKey := kept } ∧ IsOptional kept ∧
      (l.keyAllowed = true →
        kept = some ⟨l.count, false, l.pos.offset, l.pos.line, l.pos.column⟩) := by
  rw [saveKey]
  split
  · have hcolumn : ¬ (-1 : Int) = l.pos.column := by omega
    refine ⟨some ⟨l.count, false, l.pos.offset, l.pos.line, l.pos.column⟩, ?_, ?_, fun _ => rfl⟩
    · rw [dropKey_calm h]
      simp [h.indent, hcolumn]
    · rintro key hkey
      obtain rfl := Option.some.inj hkey
      rfl
  · rename_i hkey
    exact ⟨l.possibleKey, rfl, h.possibleKey, fun hallowed => absurd hallowed hkey⟩

theorem closeBlocks_calm {l : Lexer} (h : l.outerIndents = []) (column : Int) :
    l.closeBlocks column = l := by
  rw [closeBlocks, h, closeBlocks.go, ite_self]

theorem inFlow_of_length {l l' : Lexer} (h : l'.outerKeys.length = l.outerKeys.length) :
    l'.inFlow = l.inFlow := by
  have hiff : l'.outerKeys = [] ↔ l.outerKeys = [] := by
    rw [← List.length_eq_zero_iff, h, List.length_eq_zero_iff]
  rw [inFlow, inFlow, Bool.eq_iff_iff]
  simp [hiff]

theorem inFlow_of_succ {l : Lexer} {depth : Nat} (h : l.outerKeys.length = depth + 1) :
    l.inFlow = true := by
  cases hkeys : l.outerKeys with
  | nil =>
      rw [hkeys] at h
      cases h
  | cons key keys =>
      rw [inFlow, hkeys]
      rfl

/-! ## Runs -/

/-- Whenever there is fuel for the first lexer, it comes out as the second with fuel for that, if
the text in between is `readable`; otherwise it fails. -/
def Leads (readable : Bool) (l l' : Lexer) : Prop :=
  ∀ fuel, l.pos.rest.length < fuel → ∃ fuel', l'.pos.rest.length < fuel' ∧
    run fuel l = if readable then run fuel' l' else none

variable {readable others : Bool}

theorem Leads.trans {l l' l'' : Lexer} (h : Leads readable l l') (h' : Leads others l' l'') :
    Leads (readable && others) l l'' := by
  intro fuel hf
  obtain ⟨fuel', hf', hrun⟩ := h fuel hf
  obtain ⟨fuel'', hf'', hrun'⟩ := h' fuel' hf'
  refine ⟨fuel'', hf'', ?_⟩
  cases readable with
  | true => exact hrun.trans hrun'
  | false => exact hrun

/-- Between two lexers tokens were put out, and the second one is calm; all this if the text in
between is readable. -/
structure Puts (readable : Bool) (l l' : Lexer) (tokens : List Token) : Prop where
  leads : Leads readable l l'
  calm : Calm l'
  tokens : l'.tokens = tokens.reverse ++ l.tokens

theorem Puts.trans {l l' l'' : Lexer} {tokens more : List Token} (h : Puts readable l l' tokens)
    (h' : Puts others l' l'' more) : Puts (readable && others) l l'' (tokens ++ more) where
  leads := h.leads.trans h'.leads
  calm := h'.calm
  tokens := by rw [h'.tokens, h.tokens, List.reverse_append, List.append_assoc]

/-- Tokens between readable ones. -/
theorem Puts.between {l l₁ l₂ l₃ : Lexer} {before tokens after : List Token}
    (h₁ : Puts true l l₁ before) (h₂ : Puts readable l₁ l₂ tokens) (h₃ : Puts true l₂ l₃ after) :
    Puts readable l l₃ (before ++ (tokens ++ after)) := by
  have h := h₁.trans (h₂.trans h₃)
  rwa [Bool.true_and, Bool.and_true] at h

theorem run_token {fuel : Nat} {l l' : Lexer} {c : Char} {rest : List Char}
    (h : (toNextToken (fuel + 1) l).dropStale = some l') (hi : l'.outerIndents = [])
    (hr : l'.pos.rest = c :: rest) :
    run (fuel + 1) l = (l'.readToken c rest).bind (run fuel) := by
  rw [run, h]
  simp only [Option.bind_eq_bind, Option.bind_some]
  rw [closeBlocks_calm hi, hr]

variable {l l' : Lexer} {gap rest : List Char} {c : Char}

/-- Behind a gap a calm lexer stands at what follows, with all tokens and as deep as before. -/
theorem exists_settled (tail : List Char) (h : Calm l) (hr : l.pos.rest = gap ++ tail)
    (hgap : Passes l.inFlow l.keyAllowed gap) (ht : Json.Stops (fun d => !isSolid d) tail) :
    ∃ l', (∀ fuel, gap.length < fuel → (toNextToken fuel l).dropStale = some l') ∧ Calm l' ∧
      l'.pos.rest = tail ∧ l'.tokens = l.tokens ∧ l'.outerKeys.length = l.outerKeys.length ∧
      (l.inFlow = true → l'.keyAllowed = l.keyAllowed) := by
  obtain ⟨pos, keyAllowed, hnext, hpos, hkey⟩ := toNextToken_gap hr hgap ht
  have hmoved : Calm { l with pos, keyAllowed } :=
    ⟨h.count, h.indent, h.outerIndents, h.possibleKey, h.outerKeys⟩
  obtain ⟨kept, hrefresh, hoptional⟩ := refresh_optional pos h.possibleKey
  obtain ⟨keys, hkept, hcalm, hlength⟩ := dropStale_of_refresh hmoved hrefresh hoptional
  exact ⟨_, fun fuel hf => by rw [hnext fuel hf, hkept], hcalm, hpos, rfl, hlength, hkey⟩

/-- A token that stands behind a gap is read in one step. -/
theorem leads_readToken {l'' : Lexer} (hr : l.pos.rest = gap ++ c :: rest)
    (hsettled : ∀ fuel, gap.length < fuel → (toNextToken fuel l).dropStale = some l')
    (hcalm : Calm l') (hpos : l'.pos.rest = c :: rest)
    (hread : l'.readToken c rest = if readable then some l'' else none)
    (hlength : l''.pos.rest.length ≤ rest.length) : Leads readable l l'' := by
  intro fuel hf
  rw [hr, List.length_append, List.length_cons] at hf
  obtain ⟨fuel, rfl⟩ := Nat.exists_eq_succ_of_ne_zero (Nat.ne_zero_of_lt hf)
  refine ⟨fuel, by omega, ?_⟩
  rw [run_token (hsettled (fuel + 1) (by omega)) hcalm.outerIndents hpos, hread]
  cases readable with
  | true => rfl
  | false => rfl

/-- A lexer stands in front of a token, as another one comes to stand there. -/
structure Reaches (l l' : Lexer) (c : Char) (behind : List Char) : Prop where
  calm : Calm l'
  rest : l'.pos.rest = c :: behind
  tokens : l'.tokens = l.tokens
  depth : l'.outerKeys.length = l.outerKeys.length
  keyAllowed : l.inFlow = true → l'.keyAllowed = l.keyAllowed
  leads : ∀ (readable : Bool) (l'' : Lexer),
    l'.readToken c behind = (if readable then some l'' else none) →
    l''.pos.rest.length ≤ behind.length → Leads readable l l''

theorem exists_reaches (h : Calm l) (hr : l.pos.rest = gap ++ c :: rest)
    (hgap : Passes l.inFlow l.keyAllowed gap) (hc : isSolid c = true) :
    ∃ l', Reaches l l' c rest := by
  have hstops : Json.Stops (fun d => !isSolid d) (c :: rest) := .cons (by rw [hc]; rfl)
  obtain ⟨l', hsettled, hcalm, hpos, htokens, hdepth, hkey⟩ :=
    exists_settled (c :: rest) h hr hgap hstops
  exact ⟨l', hcalm, hpos, htokens, hdepth, hkey,
    fun _ _ => leads_readToken hr hsettled hcalm hpos⟩

theorem Reaches.inFlow {behind : List Char} (h : Reaches l l' c behind) : l'.inFlow = l.inFlow :=
  inFlow_of_length h.depth

/-- At the end of the text the tokens are complete. -/
theorem run_end (h : Calm l) (hgap : Passes l.inFlow l.keyAllowed l.pos.rest) {fuel : Nat}
    (hf : l.pos.rest.length < fuel) : run fuel l = some l.tokens.reverse := by
  obtain ⟨l', hsettled, hcalm, hpos, htokens, -⟩ :=
    exists_settled [] h (List.append_nil _).symm hgap .nil
  obtain ⟨fuel, rfl⟩ := Nat.exists_eq_succ_of_ne_zero (Nat.ne_zero_of_lt hf)
  rw [run, hsettled (fuel + 1) hf]
  simp only [Option.bind_eq_bind, Option.bind_some]
  rw [closeBlocks_calm hcalm.outerIndents, hpos]
  simp only
  rw [finish, closeBlocks_calm hcalm.outerIndents, dropKey_calm hcalm, ← htokens]
  rfl

/-! ## Single tokens -/

theorem readToken_sequenceStart (l : Lexer) (rest : List Char) :
    l.readToken '[' rest = l.readFlowStart .flowSequenceStart := by
  simp [readToken, atDocumentMarker]

theorem readToken_mappingStart (l : Lexer) (rest : List Char) :
    l.readToken '{' rest = l.readFlowStart .flowMappingStart := by
  simp [readToken, atDocumentMarker]

theorem readToken_sequenceEnd (l : Lexer) (rest : List Char) :
    l.readToken ']' rest = l.readFlowEnd .flowSequenceEnd := by
  simp [readToken, atDocumentMarker]

theorem readToken_mappingEnd (l : Lexer) (rest : List Char) :
    l.readToken '}' rest = l.readFlowEnd .flowMappingEnd := by
  simp [readToken, atDocumentMarker]

theorem readToken_comma (l : Lexer) (rest : List Char) : l.readToken ',' rest = l.readFlowEntry := by
  simp [readToken, atDocumentMarker]

theorem readToken_quote (l : Lexer) (rest : List Char) :
    l.readToken '"' rest = l.readQuoted .double := by
  simp [readToken, atDocumentMarker]

theorem readToken_colon (h : l.inFlow = true) (rest : List Char) :
    l.readToken ':' rest = l.readValue := by
  simp [readToken, atDocumentMarker, h]

/-- Reading a token that is put out last. -/
theorem Reaches.puts {behind : List Char} {l'' : Lexer} (token : Token)
    (h : Reaches l l' c behind)
    (hread : l'.readToken c behind = if readable then some (l''.push token) else none)
    (hcalm : Calm l'') (htokens : l''.tokens = l'.tokens)
    (hlength : l''.pos.rest.length ≤ behind.length) :
    Puts readable l (l''.push token) [token] where
  leads := h.leads _ _ hread hlength
  calm := {
    count := by rw [push, hcalm.count, List.length_cons]
    indent := hcalm.indent
    outerIndents := hcalm.outerIndents
    possibleKey := hcalm.possibleKey
    outerKeys := hcalm.outerKeys }
  tokens := by rw [push, htokens, h.tokens]; rfl

/-- An opening bracket leads into one more flow collection, where a key may start. -/
theorem puts_open {token : Token} (h : Calm l) (hr : l.pos.rest = gap ++ c :: rest)
    (hgap : Passes l.inFlow l.keyAllowed gap) (hc : isSolid c = true)
    (hread : ∀ l : Lexer, l.readToken c rest = l.readFlowStart token) :
    ∃ l', Puts true l l' [token] ∧ l'.outerKeys.length = l.outerKeys.length + 1 ∧
      l'.keyAllowed = true ∧ l'.pos.rest = rest := by
  obtain ⟨start, reached⟩ := exists_reaches h hr hgap hc
  obtain ⟨kept, hkept, hoptional, -⟩ := saveKey_calm reached.calm
  have hrest := Cursor.rest_advance_one reached.rest
  have hcalm : Calm { start with
      possibleKey := none, outerKeys := kept :: start.outerKeys, keyAllowed := true
      pos := start.pos.advance 1 } :=
    ⟨reached.calm.count, reached.calm.indent, reached.calm.outerIndents, isOptional_none,
      List.forall_mem_cons.mpr ⟨hoptional, reached.calm.outerKeys⟩⟩
  refine ⟨_, reached.puts token ?_ hcalm rfl (by rw [hrest]), ?_, rfl, hrest⟩
  · rw [hread, readFlowStart, hkept]
    rfl
  · show (kept :: start.outerKeys).length = _
    rw [List.length_cons, reached.depth]

/-- A closing bracket leads out of a flow collection. -/
theorem puts_close {token : Token} {depth : Nat} (h : Calm l)
    (hdepth : l.outerKeys.length = depth + 1) (hr : l.pos.rest = gap ++ c :: rest)
    (hgap : Passes l.inFlow l.keyAllowed gap) (hc : isSolid c = true)
    (hread : ∀ l : Lexer, l.readToken c rest = l.readFlowEnd token) :
    ∃ l', Puts true l l' [token] ∧ l'.outerKeys.length = depth ∧ l'.keyAllowed = false ∧
      l'.pos.rest = rest := by
  obtain ⟨start, reached⟩ := exists_reaches h hr hgap hc
  have hrest := Cursor.rest_advance_one reached.rest
  cases hkeys : start.outerKeys with
  | nil =>
      have hempty := reached.depth
      rw [hkeys, hdepth] at hempty
      cases hempty
  | cons key keys =>
      have hall := reached.calm.outerKeys
      rw [hkeys] at hall
      obtain ⟨hkey, hkeysOptional⟩ := List.forall_mem_cons.mp hall
      have hcalm : Calm { start with
          possibleKey := key, outerKeys := keys, keyAllowed := false
          pos := start.pos.advance 1 } :=
        ⟨reached.calm.count, reached.calm.indent, reached.calm.outerIndents, hkey, hkeysOptional⟩
      refine ⟨_, reached.puts token ?_ hcalm rfl (by rw [hrest]), ?_, rfl, hrest⟩
      · rw [hread, readFlowEnd, dropKey_calm reached.calm]
        simp only [Option.bind_eq_bind, Option.bind_some, hkeys]
        rfl
      · have hlength := reached.depth
        rw [hkeys, hdepth, List.length_cons] at hlength
        exact Nat.succ.inj hlength

/-- Behind a comma a key may start. -/
theorem puts_comma (h : Calm l) (hr : l.pos.rest = gap ++ ',' :: rest)
    (hgap : Passes l.inFlow l.keyAllowed gap) :
    ∃ l', Puts true l l' [.flowEntry] ∧ l'.outerKeys.length = l.outerKeys.length ∧
      l'.keyAllowed = true ∧ l'.pos.rest = rest := by
  obtain ⟨start, reached⟩ := exists_reaches h hr hgap (by decide)
  have hrest := Cursor.rest_advance_one reached.rest
  have hcalm : Calm { start with
      possibleKey := none, keyAllowed := true, pos := start.pos.advance 1 } :=
    ⟨reached.calm.count, reached.calm.indent, reached.calm.outerIndents, isOptional_none,
      reached.calm.outerKeys⟩
  refine ⟨_, reached.puts .flowEntry ?_ hcalm rfl (by rw [hrest]), reached.depth, rfl,
    hrest⟩
  rw [readToken_comma, readFlowEntry, dropKey_calm reached.calm]
  rfl

/-! ## Scalars -/

/-- Inside of flow collections all blanks are passed over. -/
theorem passes_blanks : ∀ (cs : List Char) (keyAllowed : Bool),
    (∀ d ∈ cs, Json.isBlank d = true) → Passes true keyAllowed cs
  | [], _, _ => trivial
  | d :: cs, keyAllowed, h => by
      obtain ⟨hd, hcs⟩ := List.forall_mem_cons.mp h
      rw [Passes]
      split
      · exact passes_blanks cs _ hcs
      · rename_i hbreak
        refine ⟨?_, passes_blanks cs keyAllowed hcs⟩
        have hgap := isBlank_or_isBreak hd
        rw [Bool.or_eq_true, isBlank, Bool.or_eq_true, decide_eq_true_eq, decide_eq_true_eq] at hgap
        rcases hgap with (hspace | htab) | hbreaks
        · exact .inl hspace
        · exact .inr ⟨rfl, htab⟩
        · exact absurd hbreaks hbreak

theorem passes_gap (h : l.inFlow = true) (blanks : Blanks) :
    Passes l.inFlow l.keyAllowed blanks.chars := by
  rw [h]
  exact passes_blanks blanks.chars l.keyAllowed blanks.blank

/-- Text in quotes is one token; where a key may start, it is a possible key. -/
theorem puts_quoted {letters : Letters} (h : Calm l) (hs : Letters.Shared letters)
    (hr : l.pos.rest = gap ++ (letters.quoted ++ rest))
    (hgap : Passes l.inFlow l.keyAllowed gap) :
    ∃ l', Puts (Letters.unpaired letters) l l' [.scalar letters.text false] ∧
      l'.outerKeys.length = l.outerKeys.length ∧
      l'.keyAllowed = false ∧ l'.pos.rest = rest ∧
      (l.inFlow = true → l.keyAllowed = true →
        ∃ key, l'.possibleKey = some key ∧ key.place = l.tokens.length ∧ key.line = l'.pos.line ∧
          l'.pos.offset = key.offset + byteCount letters.quoted) := by
  obtain ⟨start, reached⟩ := exists_reaches h hr hgap (by decide)
  obtain ⟨kept, hkept, hoptional, hkey⟩ := saveKey_calm reached.calm
  have hstart : start.pos.rest = letters.quoted ++ rest := reached.rest
  have hadvance := Cursor.advance_append hstart
  have hrest : (start.pos.advance letters.quoted.length).rest = rest := by rw [hadvance]
  have hcalm : Calm { start with
      possibleKey := kept, keyAllowed := false
      pos := start.pos.advance letters.quoted.length } :=
    ⟨reached.calm.count, reached.calm.indent, reached.calm.outerIndents, hoptional,
      reached.calm.outerKeys⟩
  refine ⟨_, reached.puts (.scalar letters.text false) ?_ hcalm rfl ?_, reached.depth, rfl,
    hrest, ?_⟩
  · rw [readToken_quote, readQuoted, hkept]
    simp only [Option.bind_eq_bind, Option.bind_some]
    rw [QuotedScalar.read_letters hs hstart]
    cases Letters.unpaired letters with
    | true => rfl
    | false => rfl
  · rw [hrest]
    show rest.length ≤ ((letters.chars ++ ['"']) ++ rest).length
    rw [List.length_append]
    exact Nat.le_add_left _ _
  · intro hflow hallowed
    rw [reached.keyAllowed hflow] at hkey
    refine ⟨_, hkey hallowed, ?_, rfl, ?_⟩
    · show start.count = _
      rw [reached.calm.count, reached.tokens]
    · show (start.pos.advance letters.quoted.length).offset = _
      rw [hadvance]

theorem readValue_possibleKey {key : PossibleKey} (hflow : l.inFlow = true)
    (hkey : l.possibleKey = some key) :
    l.readValue = some
      (push { l with
        tokens := l.tokens.take (l.count - key.place) ++ .key :: l.tokens.drop (l.count - key.place)
        count := l.count + 1, possibleKey := none, keyAllowed := false
        pos := l.pos.advance 1 } .value) := by
  have hopen : openBlock (l.insertAt key.place .key) key.column key.place .blockMappingStart =
      l.insertAt key.place .key := by
    have hinFlow : (l.insertAt key.place .key).inFlow = true := hflow
    rw [openBlock, if_neg (by simp [hinFlow])]
  rw [readValue, hkey]
  simp only
  rw [hopen]
  rfl

/-- The colon behind a possible key on the same line and near makes it a key. -/
theorem puts_colon {blanks : Blanks} {key : PossibleKey} {token : Token} {tokens : List Token}
    (h : Calm l) (hflow : l.inFlow = true) (hkey : l.possibleKey = some key)
    (hplace : key.place = tokens.length) (htokens : l.tokens = token :: tokens)
    (hline : key.line = l.pos.line) (hbreaks : ∀ d ∈ blanks.chars, isBreak d = false)
    (hnear : l.pos.offset + byteCount blanks.chars ≤ key.offset + 1024)
    (hr : l.pos.rest = blanks.chars ++ ':' :: rest) :
    ∃ l', Leads true l l' ∧ Calm l' ∧ l'.tokens = .value :: token :: .key :: tokens ∧
      l'.outerKeys.length = l.outerKeys.length ∧ l'.pos.rest = rest := by
  have hpos := Cursor.advance_append hr
  have hrefresh : refresh (l.pos.advance blanks.chars.length) l.possibleKey = some (some key) := by
    have hstale : isStale (l.pos.advance blanks.chars.length) key = false := by
      rw [hpos, isStale]
      simp only [Bool.or_eq_false_iff, decide_eq_false_iff_not]
      omega
    rw [hkey, refresh, if_neg (by rw [hstale]; exact Bool.false_ne_true)]
  have hmoved : Calm { l with pos := l.pos.advance blanks.chars.length } :=
    ⟨h.count, h.indent, h.outerIndents, h.possibleKey, h.outerKeys⟩
  obtain ⟨keys, hkept, hcalm, hlength⟩ := dropStale_of_refresh hmoved hrefresh (hkey ▸ h.possibleKey)
  have hsettled : ∀ fuel, blanks.chars.length < fuel → (toNextToken fuel l).dropStale =
      some { l with
        pos := l.pos.advance blanks.chars.length, possibleKey := some key, outerKeys := keys } := by
    intro fuel hf
    obtain ⟨fuel, rfl⟩ := Nat.exists_eq_succ_of_ne_zero (Nat.ne_zero_of_lt hf)
    rw [toNextToken_line fuel hr (passes_gap hflow blanks) hbreaks (.cons (by decide)), hkept]
  have hcolon : (l.pos.advance blanks.chars.length).rest = ':' :: rest := by rw [hpos]
  have hrest := Cursor.rest_advance_one hcolon
  have hinFlow : inFlow { l with
      pos := l.pos.advance blanks.chars.length, possibleKey := some key, outerKeys := keys } =
      true := (inFlow_of_length hlength).trans hflow
  have hread := (readToken_colon hinFlow rest).trans (readValue_possibleKey hinFlow rfl)
  have hlater : l.count - key.place = 1 := by
    rw [h.count, htokens, hplace, List.length_cons, Nat.add_sub_cancel_left]
  have hinserted : l.tokens.take (l.count - key.place) ++
      .key :: l.tokens.drop (l.count - key.place) = token :: .key :: tokens := by
    rw [hlater, htokens]
    rfl
  refine ⟨_, leads_readToken hr hsettled hcalm hcolon hread
      (Nat.le_of_eq (congrArg List.length hrest)),
    ⟨?_, h.indent, h.outerIndents, isOptional_none, hcalm.outerKeys⟩, congrArg _ hinserted,
    hlength, hrest⟩
  show l.count + 1 + 1 = (_ :: (_ ++ _)).length
  rw [hinserted, h.count, htokens]
  rfl

/-- The name of a field and its colon. -/
theorem puts_name {blanks : Blanks} {name : Name} (h : Calm l) (hs : name.Shared)
    (hflow : l.inFlow = true) (hallowed : l.keyAllowed = true)
    (hr : l.pos.rest = blanks.chars ++ (name.chars ++ ':' :: rest)) :
    ∃ l', Puts (Letters.unpaired name.letters) l l'
        [.key, .scalar name.letters.text false, .value] ∧
      l'.outerKeys.length = l.outerKeys.length ∧ l'.pos.rest = rest := by
  rw [Name.chars, List.append_assoc] at hr
  obtain ⟨quoted, hquoted, hdepth, -, hrest, hkey⟩ :=
    puts_quoted h hs.letters hr (passes_gap hflow blanks)
  obtain ⟨key, hkey, hplace, hline, hoffset⟩ := hkey hflow hallowed
  have hnear : quoted.pos.offset + byteCount name.behind.chars ≤ key.offset + 1024 := by
    have := hs.near
    rw [Name.chars, byteCount_append] at this
    omega
  obtain ⟨l', hleads, hcalm, htokens, hdepth', hrest'⟩ :=
    puts_colon hquoted.calm ((inFlow_of_length hdepth).trans hflow) hkey hplace hquoted.tokens hline
      hs.line hnear hrest
  have hboth := hquoted.leads.trans hleads
  rw [Bool.and_true] at hboth
  exact ⟨l', ⟨hboth, hcalm, htokens⟩, hdepth'.trans hdepth, hrest'⟩

/-- The start of a plain scalar, whatever follows the characters given. -/
structure StartsPlain (c : Char) (more : List Char) : Prop where
  solid : isSolid c = true
  marker : atDocumentMarker (c :: more) = false
  read : ∀ l : Lexer, l.readToken c more = l.readPlain

theorem startsPlain_of_not_isIndicator (hsolid : isSolid c = true) (hc : isIndicator c = false)
    (hdot : c ≠ '.') (more : List Char) : StartsPlain c more := by
  have hne := hc
  simp only [isIndicator, isFlowIndicator, Bool.or_eq_false_iff, decide_eq_false_iff_not] at hne
  have hmarker : atDocumentMarker (c :: more) = false := by
    rw [atDocumentMarker]
    all_goals
      rintro tail heq
      obtain ⟨rfl, -⟩ := List.cons.inj heq
    · cases hc
    · exact absurd rfl hdot
  refine ⟨hsolid, hmarker, ?_⟩
  intro l
  have hgap : (isBlank c || isBreak c) = false := by
    simp only [isSolid, Bool.and_eq_true, Bool.not_eq_true'] at hsolid
    simp [hsolid]
  have hstarts : startsPlain l.inFlow c more = true := by
    simp [startsPlain, hgap, hc]
  simp [readToken, hmarker, hstarts, hne]

theorem startsPlain_minus {d : Char} (hd : isDigit d = true) (more : List Char) :
    StartsPlain '-' (d :: more) := by
  have hgap : isBlank d = false ∧ isBreak d = false :=
    ⟨Json.of_digits rfl hd, Json.of_digits rfl hd⟩
  have hmarker : atDocumentMarker ('-' :: d :: more) = false := by
    rw [atDocumentMarker]
    · rintro tail heq
      obtain ⟨rfl, -⟩ := List.cons.inj (List.cons.inj heq).2
      exact absurd hd (by decide)
    · rintro tail heq
      exact absurd (List.cons.inj heq).1 (by decide)
  refine ⟨by decide, hmarker, ?_⟩
  intro l
  have hstarts : startsPlain l.inFlow '-' (d :: more) = true := by
    simp [startsPlain, hgap]
  simp [readToken, hmarker, hstarts, atGapOrEnd, hgap]

/-- A plain scalar is one token, which takes the blanks behind it too. -/
theorem puts_plain (run : List Char) (h : Calm l) (hrun : ∀ d ∈ run, isInner d = true)
    (hstart : ∃ c more, run ++ rest = c :: more ∧ StartsPlain c more) (hne : run ≠ [])
    (hr : l.pos.rest = gap ++ (run ++ rest)) (hgap : Passes l.inFlow l.keyAllowed gap)
    (he : EndsItem l.inFlow rest) :
    ∃ l', Puts true l l' [.scalar (String.ofList run) true] ∧
      l'.outerKeys.length = l.outerKeys.length ∧ l'.pos.rest = Json.skipBlanks rest := by
  obtain ⟨c, more, hcons, starts⟩ := hstart
  have hr' := hr
  rw [hcons] at hr'
  obtain ⟨start, reached⟩ := exists_reaches h hr' hgap starts.solid
  obtain ⟨kept, hkept, hoptional, -⟩ := saveKey_calm reached.calm
  have hindent : start.indent + 1 ≤ 0 := by
    rw [reached.calm.indent]
    decide
  have hstart : start.pos.rest = run ++ rest := by rw [reached.rest, hcons]
  obtain ⟨broken, behind, hread, hrest⟩ := PlainScalar.read_run hindent hstart hrun hne
    (reached.inFlow ▸ he) (by rw [hcons]; exact starts.marker)
  have hcalm : Calm { start with possibleKey := kept, keyAllowed := broken, pos := behind } :=
    ⟨reached.calm.count, reached.calm.indent, reached.calm.outerIndents, hoptional,
      reached.calm.outerKeys⟩
  refine ⟨_, reached.puts (.scalar (String.ofList run) true) ?_ hcalm rfl ?_,
    reached.depth, hrest⟩
  · rw [starts.read, readPlain, hkept]
    show (PlainScalar.read start.inFlow (start.indent + 1) start.pos).bind _ = _
    rw [hread]
    rfl
  · have hlength := congrArg List.length hcons
    have hskip : (Json.skipBlanks rest).length ≤ rest.length := List.length_dropWhile_le _ _
    have hpositive := List.length_pos_iff.mpr hne
    rw [List.length_append, List.length_cons] at hlength
    rw [hrest]
    omega

theorem isInner_of_isNumeric (h : Json.isNumeric c = true) : isInner c = true := by
  simp only [Json.isNumeric, Bool.or_eq_true, decide_eq_true_eq] at h
  rcases h with ((((h | rfl) | rfl) | rfl) | rfl) | rfl
  · exact Json.of_digits rfl h
  all_goals rfl

theorem startsPlain_digit (h : isDigit c = true) (more : List Char) : StartsPlain c more := by
  refine startsPlain_of_not_isIndicator (Json.of_digits rfl h) (Json.of_digits rfl h) ?_ more
  rintro rfl
  exact absurd h (by decide)

/-- A number starts with a digit or with a minus in front of one. -/
theorem startsPlain_number (numeral : Json.NumberText) (rest : List Char) :
    ∃ c more, numeral.chars ++ rest = c :: more ∧ StartsPlain c more := by
  obtain ⟨d, digits, hd, hdigit⟩ := numeral.whole.exists_cons
  rw [Json.NumberText.chars, Json.NumberText.signChars, hd]
  cases numeral.negative with
  | true => exact ⟨'-', _, rfl, startsPlain_minus hdigit _⟩
  | false => exact ⟨d, _, rfl, startsPlain_digit hdigit _⟩

/-- A number is a plain scalar. -/
theorem puts_number {numeral : Json.NumberText} (h : Calm l)
    (hr : l.pos.rest = gap ++ (numeral.chars ++ rest)) (hgap : Passes l.inFlow l.keyAllowed gap)
    (he : EndsItem l.inFlow rest) :
    ∃ l', Puts true l l' [.scalar (String.ofList numeral.chars) true] ∧
      l'.outerKeys.length = l.outerKeys.length ∧ l'.pos.rest = Json.skipBlanks rest := by
  have hinner : ∀ d ∈ numeral.chars, isInner d = true := fun d hd =>
    isInner_of_isNumeric (numeral.isNumeric_chars d hd)
  obtain ⟨c, more, hc, hstart⟩ := startsPlain_number numeral rest
  have hne : numeral.chars ≠ [] := by
    obtain ⟨d, others, hd, -⟩ := numeral.exists_cons
    rw [hd]
    exact List.cons_ne_nil _ _
  exact puts_plain numeral.chars h hinner ⟨c, more, hc, hstart⟩ hne hr hgap he

/-! ## Trees -/

/-- What is left behind a document of JSON: a plain scalar takes the blanks with it, and behind
anything else no key may start. -/
def Leaves (plain : Bool) (l : Lexer) (rest : List Char) : Prop :=
  if plain then l.pos.rest = Json.skipBlanks rest else l.pos.rest = rest ∧ l.keyAllowed = false

theorem Leaves.exists_gap {plain : Bool} {after : Blanks}
    (h : Leaves plain l (after.chars ++ c :: rest)) (hc : Json.isBlank c = false) :
    ∃ gap : Blanks, l.pos.rest = gap.chars ++ c :: rest := by
  cases plain with
  | true =>
      have hrest : l.pos.rest = Json.skipBlanks (after.chars ++ c :: rest) := h
      rw [Json.skipBlanks_append, Json.skipBlanks_cons rest hc] at hrest
      exact ⟨.none, hrest⟩
  | false => exact ⟨after, h.1⟩

theorem endsItem_gap (h : l.inFlow = true) (hc : c = ',' ∨ c = ']' ∨ c = '}') (after : Blanks) :
    EndsItem l.inFlow (after.chars ++ c :: rest) := by
  have hblank : Json.isBlank c = false := by
    rcases hc with rfl | rfl | rfl
    all_goals decide
  refine .inr ⟨h, c, rest, ?_, hc⟩
  rw [Json.skipBlanks_append, Json.skipBlanks_cons rest hblank]

mutual

/-- A document of JSON puts out its tokens and leaves the lexer as deep as it was. -/
theorem puts_written : ∀ (w : Written) {l : Lexer} {gap rest : List Char}, w.Shared → Calm l →
    l.pos.rest = gap ++ (w.chars ++ rest) → Passes l.inFlow l.keyAllowed gap →
    EndsItem l.inFlow rest →
    ∃ l', Puts w.unpaired l l' w.tokens ∧ l'.outerKeys.length = l.outerKeys.length ∧
      Leaves w.isPlain l' rest
  | .null, l, gap, rest, _, h, hr, hgap, he =>
      puts_plain ['n', 'u', 'l', 'l'] h (List.all_eq_true.mp (by decide))
        ⟨_, _, rfl, startsPlain_of_not_isIndicator (by decide) (by decide) (by decide) _⟩ (by decide)
        hr hgap he
  | .bool true, l, gap, rest, _, h, hr, hgap, he =>
      puts_plain ['t', 'r', 'u', 'e'] h (List.all_eq_true.mp (by decide))
        ⟨_, _, rfl, startsPlain_of_not_isIndicator (by decide) (by decide) (by decide) _⟩ (by decide)
        hr hgap he
  | .bool false, l, gap, rest, _, h, hr, hgap, he =>
      puts_plain ['f', 'a', 'l', 's', 'e'] h (List.all_eq_true.mp (by decide))
        ⟨_, _, rfl, startsPlain_of_not_isIndicator (by decide) (by decide) (by decide) _⟩ (by decide)
        hr hgap he
  | .number numeral, l, gap, rest, _, h, hr, hgap, he => puts_number h hr hgap he
  | .string letters, l, gap, rest, hs, h, hr, hgap, _ => by
      obtain ⟨l', hputs, hdepth, hkey, hrest, -⟩ := puts_quoted h hs hr hgap
      exact ⟨l', hputs, hdepth, hrest, hkey⟩
  | .emptyList inner, l, gap, rest, _, h, hr, hgap, _ => by
      have hopen : l.pos.rest = gap ++ '[' :: (inner.chars ++ ']' :: rest) := by
        rw [hr]
        simp [Written.chars]
      obtain ⟨l₁, hputs, hdepth, -, hrest⟩ := puts_open h hopen hgap (by decide)
        fun l => readToken_sequenceStart l _
      have hflow : l₁.inFlow = true := inFlow_of_succ hdepth
      obtain ⟨l₂, hclose, hdepth₂, hkey, hrest₂⟩ := puts_close hputs.calm hdepth hrest
        (passes_gap hflow inner) (by decide) fun l => readToken_sequenceEnd l _
      exact ⟨l₂, hputs.trans hclose, hdepth₂, hrest₂, hkey⟩
  | .list inner items, l, gap, rest, hs, h, hr, hgap, _ => by
      have hopen : l.pos.rest = gap ++ '[' :: (inner.chars ++ (items.chars ++ ']' :: rest)) := by
        rw [hr]
        simp [Written.chars]
      obtain ⟨l₁, hputs, hdepth, -, hrest⟩ := puts_open h hopen hgap (by decide)
        fun l => readToken_sequenceStart l _
      have hflow : l₁.inFlow = true := inFlow_of_succ hdepth
      obtain ⟨l₂, after, hitems, hdepth₂, hrest₂⟩ := puts_items items hs hputs.calm hflow hrest
      have hflow₂ : l₂.inFlow = true := (inFlow_of_length hdepth₂).trans hflow
      obtain ⟨l₃, hclose, hdepth₃, hkey, hrest₃⟩ := puts_close hitems.calm (hdepth₂.trans hdepth)
        hrest₂ (passes_gap hflow₂ after) (by decide) fun l => readToken_sequenceEnd l _
      exact ⟨l₃, hputs.between hitems hclose, hdepth₃, hrest₃, hkey⟩
  | .emptyObject inner, l, gap, rest, _, h, hr, hgap, _ => by
      have hopen : l.pos.rest = gap ++ '{' :: (inner.chars ++ '}' :: rest) := by
        rw [hr]
        simp [Written.chars]
      obtain ⟨l₁, hputs, hdepth, -, hrest⟩ := puts_open h hopen hgap (by decide)
        fun l => readToken_mappingStart l _
      have hflow : l₁.inFlow = true := inFlow_of_succ hdepth
      obtain ⟨l₂, hclose, hdepth₂, hkey, hrest₂⟩ := puts_close hputs.calm hdepth hrest
        (passes_gap hflow inner) (by decide) fun l => readToken_mappingEnd l _
      exact ⟨l₂, hputs.trans hclose, hdepth₂, hrest₂, hkey⟩
  | .object inner members, l, gap, rest, hs, h, hr, hgap, _ => by
      have hopen : l.pos.rest = gap ++ '{' :: (inner.chars ++ (members.chars ++ '}' :: rest)) := by
        rw [hr]
        simp [Written.chars]
      obtain ⟨l₁, hputs, hdepth, hallowed, hrest⟩ := puts_open h hopen hgap (by decide)
        fun l => readToken_mappingStart l _
      have hflow : l₁.inFlow = true := inFlow_of_succ hdepth
      obtain ⟨l₂, after, hmembers, hdepth₂, hrest₂⟩ :=
        puts_members members hs hputs.calm hflow hallowed hrest
      have hflow₂ : l₂.inFlow = true := (inFlow_of_length hdepth₂).trans hflow
      obtain ⟨l₃, hclose, hdepth₃, hkey, hrest₃⟩ := puts_close hmembers.calm (hdepth₂.trans hdepth)
        hrest₂ (passes_gap hflow₂ after) (by decide) fun l => readToken_mappingEnd l _
      exact ⟨l₃, hputs.between hmembers hclose, hdepth₃, hrest₃, hkey⟩

theorem puts_items : ∀ (items : Items) {l : Lexer} {gap : Blanks} {rest : List Char}, items.Shared →
    Calm l → l.inFlow = true → l.pos.rest = gap.chars ++ (items.chars ++ ']' :: rest) →
    ∃ l', ∃ after : Blanks, Puts items.unpaired l l' items.tokens ∧
      l'.outerKeys.length = l.outerKeys.length ∧
      l'.pos.rest = after.chars ++ ']' :: rest
  | .last item after, l, gap, rest, hs, h, hflow, hr => by
      rw [Items.chars, List.append_assoc] at hr
      obtain ⟨l', hputs, hdepth, hleaves⟩ := puts_written item hs h hr (passes_gap hflow gap)
        (endsItem_gap hflow (.inr (.inl rfl)) after)
      obtain ⟨left, hleft⟩ := hleaves.exists_gap (by decide)
      exact ⟨l', left, hputs, hdepth, hleft⟩
  | .more item after before others, l, gap, rest, hs, h, hflow, hr => by
      have hitem : l.pos.rest = gap.chars ++ (item.chars ++ (after.chars ++ ',' ::
          (before.chars ++ (others.chars ++ ']' :: rest)))) := by
        rw [hr]
        simp [Items.chars]
      obtain ⟨l₁, hputs, hdepth, hleaves⟩ := puts_written item hs.1 h hitem (passes_gap hflow gap)
        (endsItem_gap hflow (.inl rfl) after)
      obtain ⟨left, hleft⟩ := hleaves.exists_gap (by decide)
      have hflow₁ : l₁.inFlow = true := (inFlow_of_length hdepth).trans hflow
      obtain ⟨l₂, hcomma, hdepth₂, -, hrest⟩ := puts_comma hputs.calm hleft (passes_gap hflow₁ left)
      have hflow₂ : l₂.inFlow = true := (inFlow_of_length hdepth₂).trans hflow₁
      obtain ⟨l₃, behind, hothers, hdepth₃, hrest₃⟩ :=
        puts_items others hs.2 hcomma.calm hflow₂ hrest
      exact ⟨l₃, behind, hputs.trans (hcomma.trans hothers), hdepth₃.trans (hdepth₂.trans hdepth),
        hrest₃⟩

theorem puts_members : ∀ (members : Members) {l : Lexer} {gap : Blanks} {rest : List Char},
    members.Shared → Calm l → l.inFlow = true → l.keyAllowed = true →
    l.pos.rest = gap.chars ++ (members.chars ++ '}' :: rest) →
    ∃ l', ∃ after : Blanks, Puts members.unpaired l l' members.tokens ∧
      l'.outerKeys.length = l.outerKeys.length ∧
      l'.pos.rest = after.chars ++ '}' :: rest
  | .last name before value after, l, gap, rest, hs, h, hflow, hallowed, hr => by
      have hname : l.pos.rest = gap.chars ++ (name.chars ++ ':' ::
          (before.chars ++ (value.chars ++ (after.chars ++ '}' :: rest)))) := by
        rw [hr]
        simp [Members.chars]
      obtain ⟨l₁, hputs, hdepth, hrest⟩ := puts_name h hs.1 hflow hallowed hname
      have hflow₁ : l₁.inFlow = true := (inFlow_of_length hdepth).trans hflow
      obtain ⟨l₂, hvalue, hdepth₂, hleaves⟩ := puts_written value hs.2 hputs.calm hrest
        (passes_gap hflow₁ before) (endsItem_gap hflow₁ (.inr (.inr rfl)) after)
      obtain ⟨left, hleft⟩ := hleaves.exists_gap (by decide)
      exact ⟨l₂, left, hputs.trans hvalue, hdepth₂.trans hdepth, hleft⟩
  | .more name before value after inner others, l, gap, rest, hs, h, hflow, hallowed, hr => by
      have hname : l.pos.rest = gap.chars ++ (name.chars ++ ':' :: (before.chars ++ (value.chars ++
          (after.chars ++ ',' :: (inner.chars ++ (others.chars ++ '}' :: rest)))))) := by
        rw [hr]
        simp [Members.chars]
      obtain ⟨l₁, hputs, hdepth, hrest⟩ := puts_name h hs.1 hflow hallowed hname
      have hflow₁ : l₁.inFlow = true := (inFlow_of_length hdepth).trans hflow
      obtain ⟨l₂, hvalue, hdepth₂, hleaves⟩ := puts_written value hs.2.1 hputs.calm hrest
        (passes_gap hflow₁ before) (endsItem_gap hflow₁ (.inl rfl) after)
      obtain ⟨left, hleft⟩ := hleaves.exists_gap (by decide)
      have hflow₂ : l₂.inFlow = true := (inFlow_of_length hdepth₂).trans hflow₁
      obtain ⟨l₃, hcomma, hdepth₃, hallowed₃, hrest₃⟩ :=
        puts_comma hvalue.calm hleft (passes_gap hflow₂ left)
      have hflow₃ : l₃.inFlow = true := (inFlow_of_length hdepth₃).trans hflow₂
      obtain ⟨l₄, behind, hothers, hdepth₄, hrest₄⟩ :=
        puts_members others hs.2.2 hcomma.calm hflow₃ hallowed₃ hrest₃
      exact ⟨l₄, behind, hputs.trans (hvalue.trans (hcomma.trans hothers)),
        hdepth₄.trans (hdepth₃.trans (hdepth₂.trans hdepth)), hrest₄⟩

end

end Lexer

/-- The tokens of a shared text; forbidden characters and surrogates have none. -/
theorem tokens?_written {w : Json.WrittenText} {text : String} (hs : w.Shared)
    (h : w.chars = text.toList) :
    tokens? text =
      if w.chars.all isAllowed && w.root.unpaired then some w.root.tokens else none := by
  have hcalm : Lexer.Calm { pos := { rest := w.chars } } :=
    ⟨rfl, rfl, rfl, isOptional_none, List.forall_mem_nil _⟩
  have hend : EndsItem false w.after.chars := by
    refine .inl ?_
    rw [← List.append_nil w.after.chars, Json.skipBlanks_append]
    rfl
  obtain ⟨l, hputs, hdepth, hleaves⟩ :=
    Lexer.puts_written w.root hs.root hcalm rfl hs.before hend
  have hflow : l.inFlow = false := Lexer.inFlow_of_length hdepth
  have hgap : Lexer.Passes l.inFlow l.keyAllowed l.pos.rest := by
    rw [hflow]
    cases hplain : w.root.isPlain with
    | true =>
        rw [hplain] at hleaves
        have hrest : l.pos.rest = Json.skipBlanks w.after.chars := hleaves
        rw [hrest, ← List.append_nil w.after.chars, Json.skipBlanks_append]
        trivial
    | false =>
        rw [hplain] at hleaves
        obtain ⟨hrest, hkey⟩ := hleaves
        rw [hrest, hkey]
        exact hs.after hplain
  obtain ⟨fuel, hf, hrun⟩ := hputs.leads (w.chars.length + 1) (Nat.lt_succ_self _)
  have hall : l.tokens.reverse = w.root.tokens := by
    rw [hputs.tokens, List.reverse_append, List.reverse_reverse]
    rfl
  rw [tokens?, ← h, hrun, Lexer.run_end hputs.calm hgap hf, hall]
  cases w.chars.all isAllowed with
  | true => rfl
  | false => rfl

end StepGraph.Yaml
