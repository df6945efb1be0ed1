/-
The YAML value of JSON text.

The tokens of a document of JSON make a node without anchors and tags, the node
makes a value without tags, and the value makes the document that JSON reads.
Keys are texts, so two of them are equal only where the names are; there is no
value then.
-/
import StepGraph.Proofs.FlowTokens
import StepGraph.Yaml.Anchors
import StepGraph.Yaml.Conversion

namespace StepGraph.Json

mutual

/-- The node of a document; nothing in it has an anchor or a tag. -/
def Written.node {ρ : Type} : Written → Yaml.Node ρ
  | .null => .scalar {} "null" true
  | .bool value => .scalar {} (boolText value) true
  | .number numeral => .scalar {} (String.ofList numeral.chars) true
  | .string letters => .scalar {} letters.text false
  | .emptyList _ => .sequence {} []
  | .list _ items => .sequence {} items.nodes
  | .emptyObject _ => .mapping {} []
  | .object _ members => .mapping {} members.nodes

def Items.nodes {ρ : Type} : Items → List (Yaml.Node ρ)
  | .last item _ => [item.node]
  | .more item _ _ rest => item.node :: rest.nodes

def Members.nodes {ρ : Type} : Members → List (Yaml.Node ρ × Yaml.Node ρ)
  | .last name _ value _ => [(.scalar {} name.letters.text false, value.node)]
  | .more name _ value _ _ rest => (.scalar {} name.letters.text false, value.node) :: rest.nodes

end

mutual

/-- The value of a document. -/
def Written.value : Written → Yaml.Value
  | .null => .null
  | .bool value => .bool value
  | .number numeral => .number (.finite numeral.value)
  | .string letters => .string letters.text
  | .emptyList _ => .sequence []
  | .list _ items => .sequence items.values
  | .emptyObject _ => .mapping []
  | .object _ members => .mapping members.values

def Items.values : Items → List Yaml.Value
  | .last item _ => [item.value]
  | .more item _ _ rest => item.value :: rest.values

def Members.values : Members → List (Yaml.Value × Yaml.Value)
  | .last name _ value _ => [(.string name.letters.text, value.value)]
  | .more name _ value _ _ rest => (.string name.letters.text, value.value) :: rest.values

end

end StepGraph.Json

namespace StepGraph.Yaml

open StepGraph.Json (Written Items Members)

/-! ## From tokens to nodes -/

namespace Node

/-- A token that a document of JSON starts with. -/
inductive StartsNode : Token → Prop where
  | scalar (text : String) (plain : Bool) : StartsNode (.scalar text plain)
  | sequence : StartsNode .flowSequenceStart
  | mapping : StartsNode .flowMappingStart

theorem exists_startsNode (w : Written) : ∃ token more, w.tokens = token :: more ∧ StartsNode token := by
  cases w with
  | null | bool value | number numeral | string letters => exact ⟨_, _, rfl, .scalar _ _⟩
  | emptyList gap | list gap items => exact ⟨_, _, rfl, .sequence⟩
  | emptyObject gap | object gap members => exact ⟨_, _, rfl, .mapping⟩

variable {directives : Directives} {fuel : Nat} {tokens rest : List Token}

/-- What stands between the parts of a flow collection; nothing is in front of the first. -/
def separator (first : Bool) : List Token := if first then [] else [.flowEntry]

/-- An item of a flow sequence. -/
theorem readFlowItems_item (w : Written) (first : Bool) :
    readFlowItems directives (fuel + 1) first
        (separator first ++ (w.tokens ++ rest)) = do
      let (item, rest) ← read directives fuel false false (w.tokens ++ rest)
      let (items, rest) ← readFlowItems directives fuel false rest
      return (item :: items, rest) := by
  obtain ⟨token, more, htokens, hstart⟩ := exists_startsNode w
  rw [htokens]
  cases first with
  | true =>
      cases hstart with
      | _ => rfl
  | false =>
      cases hstart with
      | _ => rfl

theorem readFlowEntries_entry (name : String) (w : Written) (first : Bool) :
    readFlowEntries directives (fuel + 3) first
        (separator first ++ .key :: .scalar name false :: .value :: (w.tokens ++ rest)) = do
      let (value, rest) ← read directives (fuel + 1) false false (w.tokens ++ rest)
      let (entries, rest) ← readFlowEntries directives (fuel + 2) false rest
      return ((.scalar {} name false, value) :: entries, rest) := by
  obtain ⟨token, more, htokens, hstart⟩ := exists_startsNode w
  rw [htokens]
  cases first with
  | true =>
      cases hstart with
      | _ => rfl
  | false =>
      cases hstart with
      | _ => rfl

mutual

/-- The tokens of a document make its node. -/
theorem read_written : ∀ (w : Written) {fuel : Nat} (block : Bool) (rest : List Token),
    w.tokens.length < fuel → read directives fuel block false (w.tokens ++ rest) = some (w.node, rest)
  | .null, fuel + 1, _, rest, _ => rfl
  | .bool value, fuel + 1, _, rest, _ => rfl
  | .number numeral, fuel + 1, _, rest, _ => rfl
  | .string letters, fuel + 1, _, rest, _ => rfl
  | .emptyList gap, fuel + 2, _, rest, _ => rfl
  | .list gap items, fuel + 1, block, rest, hf => by
      have hlength : items.tokens.length + 1 < fuel := by
        simp only [Written.tokens, List.length_cons, List.length_append, List.length_nil] at hf
        omega
      have hitems := readFlowItems_written items true rest hlength
      show (readFlowItems directives fuel true (items.tokens ++ [.flowSequenceEnd] ++ rest)).bind _ = _
      rw [List.append_assoc]
      show (readFlowItems directives fuel true
        (separator true ++ (items.tokens ++ .flowSequenceEnd :: rest))).bind _ = _
      rw [hitems]
      rfl
  | .emptyObject gap, fuel + 2, _, rest, _ => rfl
  | .object gap members, fuel + 1, block, rest, hf => by
      have hlength : members.tokens.length + 1 < fuel := by
        simp only [Written.tokens, List.length_cons, List.length_append, List.length_nil] at hf
        omega
      have hmembers := readFlowEntries_written members true rest hlength
      show (readFlowEntries directives fuel true
        (members.tokens ++ [.flowMappingEnd] ++ rest)).bind _ = _
      rw [List.append_assoc]
      show (readFlowEntries directives fuel true
        (separator true ++ (members.tokens ++ .flowMappingEnd :: rest))).bind _ = _
      rw [hmembers]
      rfl

theorem readFlowItems_written : ∀ (items : Items) {fuel : Nat} (first : Bool) (rest : List Token),
    items.tokens.length + 1 < fuel →
    readFlowItems directives fuel first
      (separator first ++ (items.tokens ++ .flowSequenceEnd :: rest)) = some (items.nodes, rest)
  | .last item after, fuel + 1, first, rest, hf => by
      have hitem : item.tokens.length < fuel := Nat.lt_of_succ_lt_succ hf
      obtain ⟨fuel, rfl⟩ := Nat.exists_eq_succ_of_ne_zero (Nat.ne_zero_of_lt hitem)
      rw [Items.tokens, readFlowItems_item item first, read_written item false _ hitem]
      rfl
  | .more item after before others, fuel + 1, first, rest, hf => by
      rw [Items.tokens, List.length_append, List.length_cons] at hf
      have hitem : item.tokens.length < fuel := by omega
      have hothers : others.tokens.length + 1 < fuel := by omega
      rw [Items.tokens, List.append_assoc, readFlowItems_item item first,
        read_written item false _ hitem]
      show (readFlowItems directives fuel false
        (separator false ++ (others.tokens ++ .flowSequenceEnd :: rest))).bind _ = _
      rw [readFlowItems_written others false rest hothers]
      rfl

theorem readFlowEntries_written : ∀ (members : Members) {fuel : Nat} (first : Bool)
    (rest : List Token), members.tokens.length + 1 < fuel →
    readFlowEntries directives fuel first
      (separator first ++ (members.tokens ++ .flowMappingEnd :: rest)) =
        some (members.nodes, rest)
  | .last name before value after, fuel + 3, first, rest, hf => by
      have hvalue : value.tokens.length < fuel + 1 := by
        simp only [Members.tokens, List.length_cons] at hf
        omega
      show readFlowEntries directives (fuel + 3) first (separator first ++
        .key :: .scalar name.letters.text false :: .value ::
          (value.tokens ++ .flowMappingEnd :: rest)) = _
      rw [readFlowEntries_entry name.letters.text value first, read_written value false _ hvalue]
      rfl
  | .more name before value after gap others, fuel + 3, first, rest, hf => by
      simp only [Members.tokens, List.length_cons, List.length_append] at hf
      have hvalue : value.tokens.length < fuel + 1 := by omega
      have hothers : others.tokens.length + 1 < fuel + 2 := by omega
      show readFlowEntries directives (fuel + 3) first (separator first ++
        .key :: .scalar name.letters.text false :: .value ::
          ((value.tokens ++ .flowEntry :: others.tokens) ++ .flowMappingEnd :: rest)) = _
      rw [List.append_assoc, readFlowEntries_entry name.letters.text value first,
        read_written value false _ hvalue]
      show (readFlowEntries directives (fuel + 2) false
        (separator false ++ (others.tokens ++ .flowMappingEnd :: rest))).bind _ = _
      rw [readFlowEntries_written others false rest hothers]
      rfl

end

/-- The tokens of a text hold the node of the document in it. -/
theorem ofTokens?_written (w : Written) : ofTokens? w.tokens = some (some w.node) := by
  have hfuel : w.tokens.length < 4 * w.tokens.length + 4 := by omega
  have hread : read [] (4 * w.tokens.length + 4) true false w.tokens = some (w.node, []) := by
    have hw : read [] (4 * w.tokens.length + 4) true false (w.tokens ++ []) = some (w.node, []) :=
      read_written w true [] hfuel
    rwa [List.append_nil] at hw
  obtain ⟨token, more, htokens, hstart⟩ := exists_startsNode w
  rw [htokens] at hread ⊢
  cases hstart with
  | _ =>
      rw [ofTokens?.eq_def]
      simp only [Option.bind_eq_bind]
      rw [hread]
      rfl

/-! ## From nodes to values -/

mutual

/-- Without anchors nothing is numbered. -/
theorem number_written : ∀ (w : Written) (known : Fields Nat),
    number known w.node = some ⟨w.node, known, []⟩
  | .null, _ | .bool _, _ | .number _, _ | .string _, _ | .emptyList _, _ | .emptyObject _, _ => rfl
  | .list _ items, known => by
      show (numberItems known items.nodes).bind _ = _
      rw [numberItems_written items known]
      rfl
  | .object _ members, known => by
      show (numberEntries known members.nodes).bind _ = _
      rw [numberEntries_written members known]
      rfl

theorem numberItems_written : ∀ (items : Items) (known : Fields Nat),
    numberItems known items.nodes = some ⟨items.nodes, known, []⟩
  | .last item _, known => by
      rw [Items.nodes, numberItems, number_written item known]
      rfl
  | .more item _ _ rest, known => by
      rw [Items.nodes, numberItems, number_written item known]
      show (numberItems known rest.nodes).bind _ = _
      rw [numberItems_written rest known]
      rfl

theorem numberEntries_written : ∀ (members : Members) (known : Fields Nat),
    numberEntries known members.nodes = some ⟨members.nodes, known, []⟩
  | .last name _ value _, known => by
      show (number known value.node).bind _ = _
      rw [number_written value known]
      rfl
  | .more name _ value _ _ rest, known => by
      show (number known value.node).bind _ = _
      rw [number_written value known]
      show (numberEntries known rest.nodes).bind _ = _
      rw [numberEntries_written rest known]
      rfl

end

/-- A computation that replaces no alias: it finds the value if `ok` holds and fails otherwise. -/
def Finds {α : Type} (x : Replacing α) (ok : Bool) (a : α) : Prop :=
  ∀ left, x left = if ok then some (a, left) else none

section Finds

variable {α β : Type} {x : Replacing α} {f : α → Replacing β} {ok ok' : Bool} {a : α} {b : β}

theorem Finds.bind (hx : Finds x ok a) (hf : Finds (f a) ok' b) :
    Finds (x >>= f) (ok && ok') b := by
  intro left
  show (x left).bind _ = _
  rw [hx left]
  cases ok with
  | true => exact hf left
  | false => rfl

theorem Finds.step (hx : Finds x true a) (hf : Finds (f a) ok b) : Finds (x >>= f) ok b :=
  hx.bind hf

theorem finds_pure (a : α) : Finds (pure a) true a := fun _ => rfl

theorem Finds.map (hx : Finds x ok a) (g : α → β) : Finds (x >>= fun a => pure (g a)) ok (g a) := by
  rw [← Bool.and_true ok]
  exact hx.bind (finds_pure (g a))

/-- The values of items are found one by one. -/
theorem Finds.mapM_cons {rest : List α} {others : List β} (ha : Finds (f a) ok b)
    (hrest : Finds (rest.mapM f) ok' others) :
    Finds ((a :: rest).mapM f) (ok && ok') (b :: others) := by
  rw [List.mapM_cons]
  exact ha.bind (hrest.map (b :: ·))

theorem Finds.mapM_singleton (ha : Finds (f a) ok b) : Finds ([a].mapM f) ok [b] := by
  rw [← Bool.and_true ok]
  exact ha.mapM_cons (finds_pure [])

theorem finds_guard (ok : Bool) (a : α) :
    Finds (if ok then (pure a : Replacing α) else fun _ => none) ok a := by
  intro left
  cases ok with
  | true => rfl
  | false => rfl

end Finds

theorem follow_written (anchored : List (Nat × Node Nat)) (w : Written) :
    Finds (follow anchored w.node) true w.node := by
  intro left
  cases w with
  | _ => rfl

theorem follow_text (anchored : List (Nat × Node Nat)) (text : String) :
    Finds (follow anchored (.scalar {} text false)) true (.scalar {} text false) := fun _ => rfl

theorem value_text (anchored : List (Nat × Node Nat)) (room : Nat) (text : String) :
    Finds (value anchored room (.scalar {} text false)) true (.string text) := by
  intro left
  cases room with
  | zero => rfl
  | succ room => rfl

theorem value_plain {anchored : List (Nat × Node Nat)} {text : String} {found : Value}
    (h : Scalar.plain? text = some found) (room : Nat) :
    Finds (value anchored room (.scalar {} text true)) true found := by
  intro left
  have hvalue : Scalar.value? none text true = some found := h
  cases room with
  | zero =>
      show (Scalar.value? none text true).map _ = _
      rw [hvalue]
      rfl
  | succ room =>
      show (Scalar.value? none text true).map _ = _
      rw [hvalue]
      rfl

/-- A key is met again where its name is. -/
theorem any_same_written (text : String) : ∀ members : Members,
    (members.values.any fun entry => Value.same (.string text) entry.1) =
      decide (text ∈ members.names)
  | .last name _ value _ => by
      have hsame : Value.same (.string text) (.string name.letters.text) =
          (text == name.letters.text) := rfl
      rw [Members.values, Members.names, List.any_cons, List.any_nil, Bool.or_false, hsame]
      simp [Bool.beq_eq_decide_eq]
  | .more name _ value _ _ rest => by
      have hsame : Value.same (.string text) (.string name.letters.text) =
          (text == name.letters.text) := rfl
      rw [Members.values, Members.names, List.any_cons, any_same_written text rest, hsame]
      simp [Bool.beq_eq_decide_eq]

/-- Keys are different where the names are. -/
theorem distinctKeys_written : ∀ members : Members,
    Value.distinctKeys members.values = decide members.names.Nodup
  | .last name _ value _ => by
      simp [Members.names, Members.values, Value.distinctKeys]
  | .more name _ value _ _ rest => by
      rw [Members.values, Members.names, Value.distinctKeys, any_same_written,
        distinctKeys_written rest]
      simp [List.nodup_cons]

/-- An entry is a name and what is found behind it. -/
theorem entry_written {anchored : List (Nat × Node Nat)} {depth : Nat} (text : String) {w : Written}
    {ok : Bool} {content : Value} (h : Finds (value anchored depth w.node) ok content) :
    Finds (do
        let key ← value anchored depth (← follow anchored (.scalar {} text false))
        let content ← value anchored depth (← follow anchored w.node)
        return (key, content)) ok (Value.string text, content) := by
  refine (follow_text anchored text).step ?_
  refine (value_text anchored depth text).step ?_
  refine (follow_written anchored w).step ?_
  exact h.map fun content => (Value.string text, content)

mutual

/-- The node of a shared document has the document's value wherever there is room for it, unless
a name occurs twice. -/
theorem value_written (anchored : List (Nat × Node Nat)) : ∀ (w : Written) {room depth : Nat}
    {document : Document}, w.Shared → w.document? room = some document → room ≤ depth →
    Finds (value anchored depth w.node) w.distinct w.value
  | .null, _, depth, _, _, _, _ => value_plain rfl depth
  | .bool true, _, depth, _, _, _, _ => value_plain rfl depth
  | .bool false, _, depth, _, _, _, _ => value_plain rfl depth
  | .number numeral, _, depth, _, hs, _, _ => value_plain (Scalar.plain?_number numeral hs) depth
  | .string letters, _, depth, _, _, _, _ => value_text anchored depth letters.text
  | .emptyList gap, room + 1, depth + 1, document, _, _, _ => fun _ => rfl
  | .list gap items, room + 1, depth + 1, document, hs, hd, hroom => by
      obtain ⟨documents, hitems, -⟩ := Option.map_eq_some_iff.mp hd
      have hvalues := values_written anchored items hs hitems (Nat.le_of_succ_le_succ hroom)
      rw [Written.node, value]
      exact hvalues.map fun values => withTag {} (.sequence values)
  | .emptyObject gap, room + 1, depth + 1, document, _, _, _ => fun _ => rfl
  | .object gap members, room + 1, depth + 1, document, hs, hd, hroom => by
      obtain ⟨fields, hmembers, -⟩ := Option.map_eq_some_iff.mp hd
      have hentries := entries_written anchored members hs hmembers (Nat.le_of_succ_le_succ hroom)
      rw [Written.node, value, Written.distinct, ← distinctKeys_written members]
      exact hentries.bind (finds_guard _ _)

theorem values_written (anchored : List (Nat × Node Nat)) : ∀ (items : Items) {room depth : Nat}
    {documents : List Document}, items.Shared → items.documents? room = some documents →
    room ≤ depth →
    Finds (items.nodes.mapM fun item => do value anchored depth (← follow anchored item))
      items.distinct items.values
  | .last item after, room, depth, documents, hs, hd, hroom => by
      obtain ⟨document, hitem, -⟩ := Option.map_eq_some_iff.mp hd
      rw [Items.nodes, Items.distinct, Items.values]
      refine Finds.mapM_singleton ((follow_written anchored item).step ?_)
      exact value_written anchored item hs hitem hroom
  | .more item after before rest, room, depth, documents, hs, hd, hroom => by
      rw [Items.documents?] at hd
      obtain ⟨document, hitem, hd⟩ := Option.bind_eq_some_iff.mp hd
      obtain ⟨others, hrest, -⟩ := Option.bind_eq_some_iff.mp hd
      rw [Items.nodes, Items.distinct, Items.values]
      refine Finds.mapM_cons ((follow_written anchored item).step ?_)
        (values_written anchored rest hs.2 hrest hroom)
      exact value_written anchored item hs.1 hitem hroom

theorem entries_written (anchored : List (Nat × Node Nat)) : ∀ (members : Members)
    {room depth : Nat} {read fields : Fields Document}, members.Shared →
    members.fields? room read = some fields → room ≤ depth →
    Finds (members.nodes.mapM fun (key, content) => do
        let key ← value anchored depth (← follow anchored key)
        let content ← value anchored depth (← follow anchored content)
        return (key, content))
      members.distinct members.values
  | .last name before content after, room, depth, read, fields, hs, hd, hroom => by
      obtain ⟨document, hcontent, -⟩ := Option.bind_eq_some_iff.mp hd
      rw [Members.nodes, Members.distinct, Members.values]
      refine Finds.mapM_singleton (entry_written name.letters.text ?_)
      exact value_written anchored content hs.2 hcontent hroom
  | .more name before content after gap rest, room, depth, read, fields, hs, hd, hroom => by
      obtain ⟨document, hcontent, hd⟩ := Option.bind_eq_some_iff.mp hd
      rw [Members.nodes, Members.distinct, Members.values]
      refine Finds.mapM_cons (entry_written name.letters.text ?_)
        (entries_written anchored rest hs.2.2 hd hroom)
      exact value_written anchored content hs.2.1 hcontent hroom

end

/-- The value of a shared document, if no name occurs twice. -/
theorem value?_written {w : Written} {document : Document} (hs : w.Shared)
    (hd : w.document? Json.maxNesting = some document) :
    value? w.node = if w.distinct then some w.value else none := by
  have hvalue := value_written [] w hs hd (by decide : Json.maxNesting ≤ maxNesting)
  rw [value?, number_written w []]
  show (value [] maxNesting w.node _).bind _ = _
  rw [hvalue]
  cases w.distinct with
  | true => rfl
  | false => rfl

end Node

/-! ## From values to documents -/

namespace Value

mutual

/-- The value of a document of JSON is that document again. -/
theorem toDocument_written : ∀ (w : Written) {room : Nat} {document : Document},
    w.document? room = some document → w.value.toDocument = .ok document
  | .null, room, document, h | .bool value, room, document, h | .number numeral, room, document, h
  | .string letters, room, document, h => by
      rw [Written.document?] at h
      obtain rfl := Option.some.inj h
      rfl
  | .emptyList gap, room + 1, document, h => by
      obtain rfl := Option.some.inj h
      rfl
  | .list gap items, room + 1, document, h => by
      obtain ⟨documents, hitems, rfl⟩ := Option.map_eq_some_iff.mp h
      rw [Written.value, toDocument, toItems_written items hitems]
      rfl
  | .emptyObject gap, room + 1, document, h => by
      obtain rfl := Option.some.inj h
      rfl
  | .object gap members, room + 1, document, h => by
      obtain ⟨fields, hmembers, rfl⟩ := Option.map_eq_some_iff.mp h
      rw [Written.value, toDocument, toFields_written members hmembers]
      rfl

theorem toItems_written : ∀ (items : Items) {room : Nat} {documents : List Document},
    items.documents? room = some documents → toItems items.values = .ok documents
  | .last item after, room, documents, h => by
      obtain ⟨document, hitem, rfl⟩ := Option.map_eq_some_iff.mp h
      rw [Items.values, toItems, toDocument_written item hitem]
      rfl
  | .more item after before rest, room, documents, h => by
      rw [Items.documents?] at h
      obtain ⟨document, hitem, h⟩ := Option.bind_eq_some_iff.mp h
      obtain ⟨others, hrest, h⟩ := Option.bind_eq_some_iff.mp h
      obtain rfl := Option.some.inj h
      rw [Items.values, toItems, toDocument_written item hitem, toItems_written rest hrest]
      rfl

theorem toFields_written : ∀ (members : Members) {room : Nat} {read fields : Fields Document},
    members.fields? room read = some fields → toFields read members.values = .ok fields
  | .last name before value after, room, read, fields, h => by
      obtain ⟨document, hvalue, h⟩ := Option.bind_eq_some_iff.mp h
      obtain rfl := Option.some.inj h
      rw [Members.values, toFields, toDocument_written value hvalue]
      rfl
  | .more name before value after gap rest, room, read, fields, h => by
      obtain ⟨document, hvalue, h⟩ := Option.bind_eq_some_iff.mp h
      rw [Members.values, toFields, toDocument_written value hvalue]
      exact toFields_written rest h

end

end Value

end StepGraph.Yaml
