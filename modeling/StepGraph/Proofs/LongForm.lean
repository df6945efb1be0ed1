/-
Short tags mean what they mean in full.

A value can be written without short tags: a tagged operand becomes a mapping
with one entry, named for the function.  This is a rewriting of values, done
before anything is converted, and it goes through all values but the keys of
mappings.  Whether it is done makes no difference to what a value is converted
to, nor to what is found wrong with it.
-/
import StepGraph.Proofs.Success
import StepGraph.Yaml.Conversion

namespace StepGraph

/-! ## Paths to attributes -/

namespace Intrinsic

/-- What stands in front of the first dot of a text and what behind it, if there is a dot. -/
def cutAtDot : List Char → Option (List Char × List Char)
  | [] => none
  | c :: rest =>
      if c = '.' then some ([], rest)
      else (cutAtDot rest).map fun (resource, name) => (c :: resource, name)

theorem cutAtDot_eq_none {text : List Char} (h : cutAtDot text = none) : '.' ∉ text := by
  induction text with
  | nil => exact List.not_mem_nil
  | cons c rest ih =>
      rw [cutAtDot] at h
      split at h
      · cases h
      · rename_i hc
        have hrest := ih (Option.map_eq_none_iff.mp h)
        simp [Ne.symm hc, hrest]

theorem cutAtDot_eq_some {text resource name : List Char}
    (h : cutAtDot text = some (resource, name)) :
    text = resource ++ '.' :: name ∧ '.' ∉ resource := by
  induction text generalizing resource with
  | nil => simp [cutAtDot] at h
  | cons c rest ih =>
      rw [cutAtDot] at h
      split at h
      · rename_i hc
        obtain ⟨rfl, rfl⟩ := Prod.mk.inj (Option.some.inj h)
        exact ⟨hc ▸ rfl, List.not_mem_nil⟩
      · rename_i hc
        obtain ⟨⟨before, behind⟩, hrest, he⟩ := Option.map_eq_some_iff.mp h
        obtain ⟨rfl, rfl⟩ := Prod.mk.inj he
        obtain ⟨rfl, hdot⟩ := ih hrest
        exact ⟨rfl, by simp [Ne.symm hc, hdot]⟩

theorem takeWhile_ne_dot {resource : List Char} (h : '.' ∉ resource) (behind : List Char) :
    (resource ++ behind).takeWhile (· ≠ '.') = resource ++ behind.takeWhile (· ≠ '.') := by
  refine List.takeWhile_append_of_pos fun c hc => decide_eq_true ?_
  rintro rfl
  exact h hc

/-- The operand that a path writes is the two texts around the first dot, or the path. -/
theorem attributeOperand_eq (path : String) :
    attributeOperand path =
      match cutAtDot path.toList with
      | some (resource, name) =>
          .list [.string (String.ofList resource), .string (String.ofList name)]
      | none => .string path := by
  rw [attributeOperand]
  cases hcut : cutAtDot path.toList with
  | none =>
      have hall : path.toList.takeWhile (· ≠ '.') = path.toList := by
        simpa using takeWhile_ne_dot (cutAtDot_eq_none hcut) []
      simp only [hall, List.drop_length]
  | some parts =>
      obtain ⟨resource, name⟩ := parts
      obtain ⟨htext, hdot⟩ := cutAtDot_eq_some hcut
      have hfront : path.toList.takeWhile (· ≠ '.') = resource := by
        rw [htext, takeWhile_ne_dot hdot]
        exact List.append_nil resource
      simp only [hfront]
      rw [htext, List.drop_left]

/-- A tag's mark is taken off, so a tag stands for the function of its name. -/
theorem ofTag?_marked (name : String) : ofTag? ("!" ++ name) = ofName? name := by
  rw [ofTag?, String.toList_append]
  show ofName? (String.ofList name.toList) = ofName? name
  rw [String.ofList_toList]

end Intrinsic

/-! ## Values without short tags -/

namespace Yaml.Value

/-- What a short form other than a tagged operand stands for: the path to an attribute names the
resource and the attribute, if there is a dot in it. -/
def pathOperand? : Intrinsic → Value → Option Value
  | .getAtt, .string path =>
      match Intrinsic.cutAtDot path.toList with
      | some (resource, name) =>
          some (.sequence [.string (String.ofList resource), .string (String.ofList name)])
      | none => some (.string path)
  | _, _ => none

mutual

/-- A value with its short tags written in full.  A value under a tag that stands for no function
is left as it is, and so are keys. -/
def long : Value → Value
  | .sequence items => .sequence (longItems items)
  | .mapping entries => .mapping (longEntries entries)
  | .tagged name operand =>
      match Intrinsic.ofName? name with
      | none => .tagged name operand
      | some function =>
          .mapping [(.string function.field,
            (pathOperand? function operand).getD (long operand))]
  | value => value

/-- The items of a sequence, each in full. -/
def longItems : List Value → List Value
  | [] => []
  | item :: rest => long item :: longItems rest

/-- The entries of a mapping with their values in full. -/
def longEntries : List (Value × Value) → List (Value × Value)
  | [] => []
  | (key, value) :: rest => (key, long value) :: longEntries rest

end

mutual

/-- Whether a value has no short tag that stands for a function, keys and what is under other
tags left aside. -/
def isLong : Value → Bool
  | .sequence items => itemsLong items
  | .mapping entries => entriesLong entries
  | .tagged name _ => (Intrinsic.ofName? name).isNone
  | _ => true

/-- Whether all items of a sequence are in full. -/
def itemsLong : List Value → Bool
  | [] => true
  | item :: rest => isLong item && itemsLong rest

/-- Whether all values of a mapping are in full. -/
def entriesLong : List (Value × Value) → Bool
  | [] => true
  | (_, value) :: rest => isLong value && entriesLong rest

end

theorem pathOperand_isLong {function : Intrinsic} {operand full : Value}
    (h : pathOperand? function operand = some full) : full.isLong = true := by
  unfold pathOperand? at h
  split at h
  · split at h
    · exact Option.some.inj h ▸ rfl
    · exact Option.some.inj h ▸ rfl
  · cases h

mutual

/-- No short tag is left. -/
theorem long_isLong : ∀ value : Value, value.long.isLong = true
  | .null => rfl
  | .bool _ => rfl
  | .number _ => rfl
  | .string _ => rfl
  | .sequence items => by
      rw [long, isLong]
      exact longItems_isLong items
  | .mapping entries => by
      rw [long, isLong]
      exact longEntries_isLong entries
  | .tagged name operand => by
      have ih := long_isLong operand
      rw [long]
      cases hf : Intrinsic.ofName? name with
      | none =>
          show (Intrinsic.ofName? name).isNone = true
          rw [hf]
          rfl
      | some function =>
          simp only [isLong, entriesLong, Bool.and_true]
          cases hp : pathOperand? function operand with
          | none => exact ih
          | some full => exact pathOperand_isLong hp

theorem longItems_isLong : ∀ items : List Value, itemsLong (longItems items) = true
  | [] => rfl
  | item :: rest => by
      rw [longItems, itemsLong, long_isLong item, longItems_isLong rest]
      rfl

theorem longEntries_isLong : ∀ entries : List (Value × Value),
    entriesLong (longEntries entries) = true
  | [] => rfl
  | (_, value) :: rest => by
      rw [longEntries, entriesLong, long_isLong value, longEntries_isLong rest]
      rfl

end

/-! ## Conversion -/

theorem functionOf_eq (name : String) :
    functionOf name =
      match Intrinsic.ofName? name with
      | some function => .ok function
      | none => .error (.unknownTag name) := by
  cases hf : Intrinsic.ofName? name with
  | none => simp only [functionOf, Intrinsic.ofTag?_marked, hf]
  | some function => simp only [functionOf, Intrinsic.ofTag?_marked, hf]

theorem shortOperand?_of_none {function : Intrinsic} {operand : Value}
    (h : pathOperand? function operand = none) : shortOperand? function operand = none := by
  unfold pathOperand? at h
  split at h
  · split at h <;> cases h
  · rename_i hother
    unfold shortOperand?
    split
    · exact absurd rfl (hother _ rfl)
    · rfl

/-- A path in full is converted to the operand that it writes. -/
theorem shortOperand?_of_some {function : Intrinsic} {operand full : Value}
    (h : pathOperand? function operand = some full) :
    ∃ document, shortOperand? function operand = some document ∧
      full.toDocument = .ok document := by
  unfold pathOperand? at h
  split at h
  · rename_i path
    refine ⟨Intrinsic.attributeOperand path, rfl, ?_⟩
    rw [Intrinsic.attributeOperand_eq]
    split at h
    · exact Option.some.inj h ▸ rfl
    · exact Option.some.inj h ▸ rfl
  · cases h

/-- A mapping of one entry under a function's name is the function applied to the entry. -/
theorem toDocument_entry (function : Intrinsic) (operand : Value) :
    (mapping [(.string function.field, operand)]).toDocument =
      operand.toDocument.map function.apply := by
  simp only [toDocument, toFields, keyText]
  cases operand.toDocument with
  | error obstacle => rfl
  | ok document => rfl

/-- A tag that stands for a function is converted as what it is in full, if its operand is. -/
theorem toDocument_tagged {name : String} {function : Intrinsic} {operand : Value}
    (hf : Intrinsic.ofName? name = some function)
    (h : (long operand).toDocument = operand.toDocument) :
    (tagged name operand).toDocument =
      ((pathOperand? function operand).getD (long operand)).toDocument.map function.apply := by
  rw [toDocument, functionOf_eq, hf]
  simp only [bind, Except.bind]
  cases hp : pathOperand? function operand with
  | none =>
      rw [shortOperand?_of_none hp, Option.getD_none, h]
      cases operand.toDocument with
      | error obstacle => rfl
      | ok document => rfl
  | some full =>
      obtain ⟨document, hs, hd⟩ := shortOperand?_of_some hp
      rw [hs, Option.getD_some, hd]
      rfl

mutual

theorem long_toDocument : ∀ value : Value, value.long.toDocument = value.toDocument
  | .null => rfl
  | .bool _ => rfl
  | .number _ => rfl
  | .string _ => rfl
  | .sequence items => by
      rw [long, toDocument, toDocument, longItems_toItems items]
  | .mapping entries => by
      rw [long, toDocument, toDocument, longEntries_toFields [] entries]
  | .tagged name operand => by
      have ih := long_toDocument operand
      rw [long]
      cases hf : Intrinsic.ofName? name with
      | none => rfl
      | some function =>
          rw [toDocument_tagged hf ih]
          exact toDocument_entry function _

theorem longItems_toItems : ∀ items : List Value, toItems (longItems items) = toItems items
  | [] => rfl
  | item :: rest => by
      rw [longItems, toItems, toItems, long_toDocument item, longItems_toItems rest]

theorem longEntries_toFields : ∀ (fields : Fields Document) (entries : List (Value × Value)),
    toFields fields (longEntries entries) = toFields fields entries
  | _, [] => rfl
  | fields, (key, value) :: rest => by
      have ih := fun name content => longEntries_toFields (fields.insert name content) rest
      rw [longEntries, toFields, toFields, long_toDocument value]
      simp only [ih]

end

/-- Every value can be written without short tags, and is then converted to the same document or
has the same obstacle. -/
theorem toDocument_long (value : Value) :
    value.long.isLong = true ∧ value.long.toDocument = value.toDocument := by
  constructor
  · exact long_isLong value
  · exact long_toDocument value

-- only a text is cut at its first dot, not what another tag makes of one
example :
    long (.sequence [.tagged "GetAtt" (.string "Site.Url.Path"),
      .tagged "GetAtt" (.tagged "Sub" (.string "Site.Url"))]) =
    .sequence
      [.mapping [(.string "Fn::GetAtt", .sequence [.string "Site", .string "Url.Path"])],
       .mapping [(.string "Fn::GetAtt", .mapping [(.string "Fn::Sub", .string "Site.Url")])]] := by
  cbv

end Yaml.Value

end StepGraph
