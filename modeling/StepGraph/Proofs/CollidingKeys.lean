/-
Keys of a mapping that are written alike.

The keys of a mapping differ as values, and yet two of them may have the same
text, like the number 1 and the text `1`.  A conversion stores the entries one
after the other, so such entries share a field.  It stands where the first of
them stands and holds what the last of them holds; all other fields stay as
they are.

This is so for the mapping that is converted and for every mapping in it,
however deep, whether or not its object is still there in the end.
-/
import Mathlib.Data.List.Forall2
import StepGraph.Proofs.FirstObstacle
import StepGraph.Proofs.Paths

namespace StepGraph.Yaml.Value

/-! ## What a mapping becomes -/

/-- Texts are those of the keys of entries, one for each. -/
def KeyTexts (entries : List (Value × Value)) (texts : List String) : Prop :=
  List.Forall₂ (fun entry text => entry.1.keyText = .ok text) entries texts

/-- The last of the entries whose key has a text, by what its value is converted to. -/
def LastUnder (entries : List (Value × Value)) (text : String) (content : Document) : Prop :=
  ∃ before key value behind, entries = before ++ (key, value) :: behind ∧
    key.keyText = .ok text ∧ value.toDocument = .ok content ∧
    ∀ later ∈ behind, later.1.keyText ≠ .ok text

/-- Fields are named for the keys of entries, each text once and in the order in which the texts
occur first, and a field holds what the last entry under its name does. -/
structure Merges (entries : List (Value × Value)) (fields : Fields Document) : Prop where
  names : ∃ texts, KeyTexts entries texts ∧ Fields.names fields = texts.eraseDups
  contents : ∀ name content, Fields.get? fields name = some content ↔
    LastUnder entries name content

/-! ## Storing entries one after the other -/

theorem toFields_cons_eq_ok {fields final : Fields Document} {key value : Value}
    {rest : List (Value × Value)} :
    toFields fields ((key, value) :: rest) = .ok final ↔
      ∃ name content, key.keyText = .ok name ∧ value.toDocument = .ok content ∧
        toFields (Fields.insert fields name content) rest = .ok final := by
  rw [toFields]
  simp only [bind_eq_ok]
  constructor
  · rintro ⟨name, hname, content, hcontent, hrest⟩
    exact ⟨name, content, hname, hcontent, hrest⟩
  · rintro ⟨name, content, hname, hcontent, hrest⟩
    exact ⟨name, hname, content, hcontent, hrest⟩

/-- The last entry under a text is the last of the rest if there is one, and otherwise the first
one if it has the text. -/
theorem lastUnder_cons {key value : Value} {rest : List (Value × Value)} {text : String}
    {content : Document} :
    LastUnder ((key, value) :: rest) text content ↔
      LastUnder rest text content ∨
        key.keyText = .ok text ∧ value.toDocument = .ok content ∧
          ∀ later ∈ rest, later.1.keyText ≠ .ok text := by
  constructor
  · rintro ⟨before, other, found, behind, he, hkey, hvalue, hlater⟩
    cases before with
    | nil =>
        obtain ⟨hhead, rfl⟩ := List.cons.inj he
        obtain ⟨rfl, rfl⟩ := Prod.mk.inj hhead
        exact .inr ⟨hkey, hvalue, hlater⟩
    | cons first before =>
        obtain ⟨-, rfl⟩ := List.cons.inj he
        exact .inl ⟨before, other, found, behind, rfl, hkey, hvalue, hlater⟩
  · rintro (⟨before, other, found, behind, rfl, hkey, hvalue, hlater⟩ | ⟨hkey, hvalue, hlater⟩)
    · exact ⟨(key, value) :: before, other, found, behind, rfl, hkey, hvalue, hlater⟩
    · exact ⟨[], key, value, rest, rfl, hkey, hvalue, hlater⟩

theorem removeAll_concat (texts others : List String) (text : String) :
    texts.removeAll (others ++ [text]) = (texts.removeAll others).filter fun other => !other == text
    := by
  rw [List.removeAll, List.removeAll, List.filter_filter]
  refine List.filter_congr fun other _ => ?_
  by_cases h : other = text <;> simp [h]

/-- Behind the names that are there already stand the new texts, each once. -/
theorem names_toFields : ∀ {entries : List (Value × Value)} {fields final : Fields Document},
    toFields fields entries = .ok final →
    ∃ texts, KeyTexts entries texts ∧
      Fields.names final =
        Fields.names fields ++ (texts.removeAll (Fields.names fields)).eraseDups
  | [], fields, final, h => by
      obtain rfl := Except.ok.inj h
      exact ⟨[], .nil, (List.append_nil _).symm⟩
  | (key, value) :: rest, fields, final, h => by
      obtain ⟨name, content, hname, -, hrest⟩ := toFields_cons_eq_ok.mp h
      obtain ⟨texts, htexts, hnames⟩ := names_toFields hrest
      refine ⟨name :: texts, .cons hname htexts, hnames.trans ?_⟩
      rw [List.cons_removeAll]
      by_cases hm : name ∈ Fields.names fields
      · -- the text is there, so its field keeps its place
        rw [Fields.names_insert_of_mem fields name content hm]
        simp [hm]
      · rw [Fields.names_insert_of_not_mem fields name content hm]
        rw [removeAll_concat]
        simp [hm, List.eraseDups_cons]

/-- A field holds what the last entry under its name does, or what it held before if there is no
such entry. -/
theorem get?_toFields : ∀ {entries : List (Value × Value)} {fields final : Fields Document},
    toFields fields entries = .ok final → ∀ name content,
    (Fields.get? final name = some content ↔
      LastUnder entries name content ∨
        Fields.get? fields name = some content ∧ ∀ entry ∈ entries, entry.1.keyText ≠ .ok name)
  | [], fields, final, h, name, content => by
      obtain rfl := Except.ok.inj h
      constructor
      · intro hget
        exact .inr ⟨hget, fun _ he => absurd he List.not_mem_nil⟩
      · rintro (⟨before, _, _, _, he, -⟩ | ⟨hget, -⟩)
        · exact absurd he.symm (List.append_ne_nil_of_right_ne_nil before (List.cons_ne_nil _ _))
        · exact hget
  | (key, value) :: rest, fields, final, h, name, content => by
      obtain ⟨first, stored, hfirst, hstored, hrest⟩ := toFields_cons_eq_ok.mp h
      rw [get?_toFields hrest name content, lastUnder_cons, List.forall_mem_cons, hfirst, hstored]
      by_cases hn : first = name
      · subst hn
        rw [Fields.get?_insert_self]
        simp
      · rw [Fields.get?_insert_of_ne _ _ hn]
        simp [hn]

/-- Entries that are stored from the start are merged. -/
theorem merges_of_toFields {entries : List (Value × Value)} {fields : Fields Document}
    (h : toFields [] entries = .ok fields) : Merges entries fields := by
  refine ⟨?_, ?_⟩
  · obtain ⟨texts, htexts, hnames⟩ := names_toFields h
    refine ⟨texts, htexts, hnames.trans ?_⟩
    simp [Fields.names, List.removeAll]
  · intro name content
    rw [get?_toFields h name content]
    simp

/-- A mapping that is converted becomes an object in which its entries are merged. -/
theorem toDocument_mapping_eq_ok {entries : List (Value × Value)} {document : Document}
    (h : (mapping entries).toDocument = .ok document) :
    ∃ fields, document = .object fields ∧ Merges entries fields := by
  rw [toDocument] at h
  obtain ⟨fields, hfields, he⟩ := bind_eq_ok.mp h
  exact ⟨fields, (pure_eq_ok.mp he).symm, merges_of_toFields hfields⟩

/-! ## Mappings in a value -/

theorem Reaches.trans {value part : Value} {site : Site} (h : value.Reaches (.value part))
    (hs : part.Reaches site) : value.Reaches site := by
  generalize hpart : Site.value part = middle at h
  induction h with
  | here =>
      obtain rfl := Site.value.inj hpart
      exact hs
  | item hi _ ih => exact .item hi (ih hpart)
  | key _ => cases hpart
  | entry he _ ih => exact .entry he (ih hpart)
  | operand _ ih => exact .operand (ih hpart)

/-- A value is converted if no site that is reached in it is an obstacle. -/
theorem exists_toDocument_iff {value : Value} :
    (∃ document, value.toDocument = .ok document) ↔
      ∀ site, value.Reaches site → site.obstacle? = none := by
  have hfailure := failure?_toDocument value
  have hsites : value.sites.findSome? Site.obstacle? = none ↔
      ∀ site, value.Reaches site → site.obstacle? = none := by
    simp only [List.findSome?_eq_none_iff, mem_sites_iff]
  rw [← hsites, ← hfailure]
  cases value.toDocument with
  | error obstacle => exact ⟨nofun, nofun⟩
  | ok document => exact ⟨fun _ => rfl, fun _ => ⟨document, rfl⟩⟩

/-- What is reached in a value that is converted is converted too. -/
theorem Reaches.exists_toDocument {value part : Value} {document : Document}
    (h : value.Reaches (.value part)) (hd : value.toDocument = .ok document) :
    ∃ inner, part.toDocument = .ok inner := by
  refine exists_toDocument_iff.mpr ?_
  intro site hs
  exact exists_toDocument_iff.mp ⟨document, hd⟩ site (h.trans hs)

/-! ## Where a part of a value comes to stand -/

/-- A part of a value comes to stand at a path of the document: an item at its place, the last
entry under a text in the field of this name, and an operand in the field of its function. -/
inductive StandsAt : Value → Value → List Key → Prop
  | here {value : Value} : StandsAt value value []
  | item {items : List Value} {index : Nat} {item part : Value} {path : List Key} :
      items[index]? = some item → StandsAt item part path →
      StandsAt (.sequence items) part (.item index :: path)
  | entry {before behind : List (Value × Value)} {key value part : Value} {text : String}
      {path : List Key} :
      key.keyText = .ok text → (∀ later ∈ behind, later.1.keyText ≠ .ok text) →
      StandsAt value part path →
      StandsAt (.mapping (before ++ (key, value) :: behind)) part (.field text :: path)
  | operand {name : String} {function : Intrinsic} {value part : Value} {path : List Key} :
      Intrinsic.ofName? name = some function → shortOperand? function value = none →
      StandsAt value part path → StandsAt (.tagged name value) part (.field function.field :: path)

theorem getElem?_toItems : ∀ {items : List Value} {documents : List Document},
    toItems items = .ok documents → ∀ {index : Nat} {item : Value}, items[index]? = some item →
    ∃ document, item.toDocument = .ok document ∧ documents[index]? = some document
  | [], _, _, _, _, hi => by cases hi
  | first :: rest, documents, h, index, item, hi => by
      simp only [toItems, bind_eq_ok, pure_eq_ok] at h
      obtain ⟨document, hfirst, more, hmore, rfl⟩ := h
      cases index with
      | zero =>
          obtain rfl := Option.some.inj hi
          exact ⟨document, hfirst, rfl⟩
      | succ index =>
          have hrest : rest[index]? = some item := hi
          exact getElem?_toItems hmore hrest

/-- What stands at the place of a part is what the part is converted to. -/
theorem StandsAt.at? {value part : Value} {path : List Key} (h : StandsAt value part path) :
    ∀ {document : Document}, value.toDocument = .ok document →
    ∃ inner, part.toDocument = .ok inner ∧ document.at? path = some inner := by
  induction h with
  | here =>
      intro document hd
      exact ⟨document, hd, rfl⟩
  | item hi _ ih =>
      intro document hd
      rw [toDocument] at hd
      obtain ⟨documents, hitems, he⟩ := bind_eq_ok.mp hd
      obtain ⟨middle, hmiddle, hm⟩ := getElem?_toItems hitems hi
      obtain ⟨inner, hinner, hat⟩ := ih hmiddle
      refine ⟨inner, hinner, ?_⟩
      obtain rfl := pure_eq_ok.mp he
      rw [Document.at?_cons, Document.child?, hm]
      exact hat
  | @entry before behind key value part text path hkey hlater _ ih =>
      intro document hd
      have hreach : (mapping (before ++ (key, value) :: behind)).Reaches (.value value) :=
        .entry (List.mem_append_right _ List.mem_cons_self) .here
      obtain ⟨middle, hmiddle⟩ := hreach.exists_toDocument hd
      obtain ⟨fields, rfl, hmerges⟩ := toDocument_mapping_eq_ok hd
      have hget : Fields.get? fields text = some middle :=
        (hmerges.contents text middle).mpr
          ⟨before, key, value, behind, rfl, hkey, hmiddle, hlater⟩
      obtain ⟨inner, hinner, hat⟩ := ih hmiddle
      refine ⟨inner, hinner, ?_⟩
      rw [Document.at?_cons, Document.child?, hget]
      exact hat
  | @operand name function value part path hf hshort _ ih =>
      intro document hd
      rw [toDocument, functionOf_eq, hf] at hd
      obtain ⟨_, ⟨⟩, hd⟩ := bind_eq_ok.mp hd
      rw [hshort] at hd
      obtain ⟨middle, hmiddle, he⟩ := bind_eq_ok.mp hd
      obtain ⟨inner, hinner, hat⟩ := ih hmiddle
      refine ⟨inner, hinner, ?_⟩
      obtain rfl := pure_eq_ok.mp he
      have hfield : (function.apply middle).child? (.field function.field) = some middle := by
        simp [Intrinsic.apply, Document.child?, Fields.get?_cons]
      rw [Document.at?_cons, hfield]
      exact hat

/-! ## All mappings of a value -/

/-- In a value that is converted every mapping is merged into an object, and where the mapping
comes to stand its object does. -/
theorem toDocument_merges {value : Value} {document : Document}
    (h : value.toDocument = .ok document) :
    (∀ entries, value.Reaches (.value (.mapping entries)) →
      ∃ fields, (mapping entries).toDocument = .ok (.object fields) ∧ Merges entries fields) ∧
    ∀ entries path, value.StandsAt (.mapping entries) path →
      ∃ fields, document.at? path = some (.object fields) ∧ Merges entries fields := by
  constructor
  · intro entries hr
    obtain ⟨inner, hinner⟩ := hr.exists_toDocument h
    obtain ⟨fields, rfl, hmerges⟩ := toDocument_mapping_eq_ok hinner
    exact ⟨fields, hinner, hmerges⟩
  · intro entries path hs
    obtain ⟨inner, hinner, hat⟩ := hs.at? h
    obtain ⟨fields, rfl, hmerges⟩ := toDocument_mapping_eq_ok hinner
    exact ⟨fields, hat, hmerges⟩

/-- Two keys with one text. -/
def nullEntries : List (Value × Value) :=
  [(.null, .string "value"), (.string "null", .string "text")]

/-- Three keys with two texts; the mapping of `nullEntries` is in the last entry. -/
def numberEntries : List (Value × Value) :=
  [(.number (.finite (.int 1)), .mapping [(.null, .null)]), (.bool true, .null),
   (.string "1", .mapping nullEntries)]

/-- What `numberEntries` are merged to. -/
def numberFields : Fields Document :=
  [("1", .object [("null", .string "text")]), ("true", .null)]

theorem numberEntries_merges :
    (sequence [.mapping numberEntries]).toDocument = .ok (.list [.object numberFields]) ∧
      Merges numberEntries numberFields ∧ Merges nullEntries [("null", .string "text")] := by
  have h : (sequence [.mapping numberEntries]).toDocument =
      .ok (.list [.object numberFields]) := by cbv
  obtain ⟨-, hplaces⟩ := toDocument_merges h
  have houter : (sequence [.mapping numberEntries]).StandsAt (.mapping numberEntries)
      [.item 0] := .item rfl .here
  have hlast : StandsAt
      (.mapping (numberEntries.take 2 ++ (.string "1", .mapping nullEntries) :: []))
      (.mapping nullEntries) [.field "1"] :=
    .entry rfl (fun _ hl => absurd hl List.not_mem_nil) .here
  have hinner : (sequence [.mapping numberEntries]).StandsAt (.mapping nullEntries)
      [.item 0, .field "1"] := .item rfl hlast
  obtain ⟨fields, hat, hmerges⟩ := hplaces _ _ houter
  obtain rfl := Document.object.inj (Option.some.inj hat)
  obtain ⟨below, hbelow, hmergesBelow⟩ := hplaces _ _ hinner
  obtain rfl := Document.object.inj (Option.some.inj hbelow)
  exact ⟨h, hmerges, hmergesBelow⟩

end StepGraph.Yaml.Value
