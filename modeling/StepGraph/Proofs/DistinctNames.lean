/-
Documents in which no name occurs twice.

Fields are a list, so a document could hold an object with the same name
twice.  No document that is read does: both readers build every object by
`insert`.  Whoever needs it may therefore take it for granted of a template.
-/
import Mathlib.Data.List.Nodup
import StepGraph.Proofs.Success
import StepGraph.Source

namespace StepGraph

/-- In every object of the document all names differ. -/
inductive Document.Distinct : Document → Prop
  | null : Distinct .null
  | bool (value : Bool) : Distinct (.bool value)
  | number (value : Number) : Distinct (.number value)
  | string (text : String) : Distinct (.string text)
  | list {items : List Document} : (∀ item ∈ items, Distinct item) → Distinct (.list items)
  | object {fields : Fields Document} :
      (Fields.names fields).Nodup → (∀ field ∈ fields, Distinct field.2) →
      Distinct (.object fields)

@[simp] theorem Document.distinct_string (text : String) :
    (Document.string text).Distinct :=
  .string text

@[simp] theorem Document.distinct_list_iff {items : List Document} :
    (Document.list items).Distinct ↔ ∀ item ∈ items, item.Distinct :=
  ⟨fun (.list h) => h, .list⟩

@[simp] theorem Document.distinct_object_iff {fields : Fields Document} :
    (Document.object fields).Distinct ↔
      (Fields.names fields).Nodup ∧ ∀ field ∈ fields, field.2.Distinct :=
  ⟨fun (.object hn hf) => ⟨hn, hf⟩, fun ⟨hn, hf⟩ => .object hn hf⟩

theorem Document.Distinct.empty : (Document.object []).Distinct :=
  .object List.nodup_nil fun _ hf => absurd hf List.not_mem_nil

theorem Fields.nodup_names_insert {α : Type} {fields : Fields α} (h : (names fields).Nodup)
    (name : String) (value : α) : (names (insert fields name value)).Nodup := by
  by_cases hm : name ∈ names fields
  · rw [names_insert_of_mem fields name value hm]
    exact h
  · rw [names_insert_of_not_mem fields name value hm]
    exact List.nodup_append.mpr ⟨h, List.nodup_singleton name, fun other ho last hl => by
      rintro rfl
      exact hm (List.mem_singleton.mp hl ▸ ho)⟩

theorem Fields.mem_insert {α : Type} {fields : Fields α} {name : String} {value : α}
    {field : String × α} (h : field ∈ insert fields name value) :
    field ∈ fields ∨ field.2 = value := by
  induction fields with
  | nil => exact .inr (congrArg Prod.snd (List.mem_singleton.mp h))
  | cons first rest ih =>
      obtain ⟨key, old⟩ := first
      rw [insert] at h
      split at h
      · rcases List.mem_cons.mp h with rfl | h
        · exact .inr rfl
        · exact .inl (List.mem_cons_of_mem _ h)
      · rcases List.mem_cons.mp h with rfl | h
        · exact .inl List.mem_cons_self
        · exact (ih h).imp_left (List.mem_cons_of_mem _)

/-- Storing a field keeps all names of an object different. -/
theorem Document.Distinct.insert {fields : Fields Document} {value : Document}
    (h : (Document.object fields).Distinct) (name : String) (hv : value.Distinct) :
    (Document.object (fields.insert name value)).Distinct := by
  rw [Document.distinct_object_iff] at h ⊢
  refine ⟨Fields.nodup_names_insert h.1 name value, fun field hf => ?_⟩
  rcases Fields.mem_insert hf with hf | hf
  · exact h.2 field hf
  · exact hf ▸ hv

/-- What stands under a name has different names too. -/
theorem Document.Distinct.field? {document value : Document} {name : String}
    (h : document.Distinct) (hf : document.field? name = some value) : value.Distinct := by
  cases document with
  | object fields => exact (Document.distinct_object_iff.mp h).2 _ (Fields.mem_of_get? hf)
  | _ => simp [Document.field?] at hf

/-! ## Documents that are read as JSON -/

theorem Json.readScalar_distinct {text rest : List Char} {document : Document}
    (h : Json.readScalar text = some (document, rest)) : document.Distinct := by
  unfold Json.readScalar at h
  split at h
  · obtain ⟨_, -, he⟩ := Option.map_eq_some_iff.mp h
    exact (Prod.mk.inj he).1 ▸ .string _
  · obtain ⟨_, -, he⟩ := Option.map_eq_some_iff.mp h
    exact (Prod.mk.inj he).1 ▸ .null
  · obtain ⟨_, -, he⟩ := Option.map_eq_some_iff.mp h
    exact (Prod.mk.inj he).1 ▸ .bool true
  · obtain ⟨_, -, he⟩ := Option.map_eq_some_iff.mp h
    exact (Prod.mk.inj he).1 ▸ .bool false
  · obtain ⟨_, -, he⟩ := Option.map_eq_some_iff.mp h
    exact (Prod.mk.inj he).1 ▸ .number _

mutual

theorem Json.readDocument_distinct : ∀ {fuel room : Nat} {text rest : List Char}
    {document : Document}, Json.readDocument fuel room text = some (document, rest) →
    document.Distinct
  | 0, _, _, _, _, h => by simp [Json.readDocument] at h
  | fuel + 1, room, text, rest, document, h => by
      unfold Json.readDocument at h
      simp only at h
      split at h
      · split at h
        · simp only [Option.some.injEq, Prod.mk.injEq] at h
          exact h.1 ▸ .list (fun _ hi => absurd hi List.not_mem_nil)
        · obtain ⟨⟨items, rest⟩, hi, he⟩ := Option.map_eq_some_iff.mp h
          exact (Prod.mk.inj he).1 ▸ .list (Json.readItems_distinct hi)
      · split at h
        · simp only [Option.some.injEq, Prod.mk.injEq] at h
          exact h.1 ▸ .empty
        · obtain ⟨⟨fields, rest⟩, hf, he⟩ := Option.map_eq_some_iff.mp h
          exact (Prod.mk.inj he).1 ▸ Json.readFields_distinct .empty hf
      · simp at h
      · simp at h
      · exact Json.readScalar_distinct h

theorem Json.readItems_distinct : ∀ {fuel room : Nat} {text rest : List Char}
    {items : List Document}, Json.readItems fuel room text = some (items, rest) →
    ∀ item ∈ items, item.Distinct
  | 0, _, _, _, _, h => by simp [Json.readItems] at h
  | fuel + 1, room, text, rest, items, h => by
      simp only [Json.readItems, Option.bind_eq_bind, Option.bind_eq_some_iff] at h
      obtain ⟨⟨item, behind⟩, hitem, h⟩ := h
      have hfirst := Json.readDocument_distinct hitem
      split at h
      · simp only [Option.some.injEq, Prod.mk.injEq] at h
        obtain ⟨rfl, -⟩ := h
        exact List.forall_mem_singleton.mpr hfirst
      · obtain ⟨⟨more, _⟩, hmore, he⟩ := Option.bind_eq_some_iff.mp h
        simp only [pure, Option.some.injEq, Prod.mk.injEq] at he
        obtain ⟨rfl, -⟩ := he
        exact List.forall_mem_cons.mpr ⟨hfirst, Json.readItems_distinct hmore⟩
      · simp at h

theorem Json.readFields_distinct : ∀ {fuel room : Nat} {read fields : Fields Document}
    {text rest : List Char}, (Document.object read).Distinct →
    Json.readFields fuel room read text = some (fields, rest) → (Document.object fields).Distinct
  | 0, _, _, _, _, _, _, h => by simp [Json.readFields] at h
  | fuel + 1, room, read, fields, text, rest, hr, h => by
      simp only [Json.readFields, Option.bind_eq_bind, Option.bind_eq_some_iff] at h
      obtain ⟨⟨name, behind⟩, -, ⟨value, last⟩, hvalue, h⟩ := h
      have hstored := hr.insert name (Json.readDocument_distinct hvalue)
      split at h
      · simp only [Option.some.injEq, Prod.mk.injEq] at h
        exact h.1 ▸ hstored
      · exact Json.readFields_distinct hstored h
      · simp at h

end

theorem Json.parse?_distinct {text : String} {document : Document}
    (h : Json.parse? text = some document) : document.Distinct := by
  simp only [Json.parse?] at h
  split at h
  · rename_i read
    split at h
    · exact Option.some.inj h ▸ Json.readDocument_distinct read
    · simp at h
  · simp at h

/-! ## Documents that are read as YAML -/

theorem Intrinsic.apply_distinct (function : Intrinsic) {operand : Document}
    (h : operand.Distinct) : (function.apply operand).Distinct :=
  .object (List.nodup_singleton _) (List.forall_mem_singleton.mpr h)

theorem Intrinsic.attributeOperand_distinct (path : String) :
    (Intrinsic.attributeOperand path).Distinct := by
  unfold Intrinsic.attributeOperand
  simp only
  split
  · simp
  · exact .string path

theorem Yaml.Value.shortOperand?_distinct {function : Intrinsic} {value : Yaml.Value}
    {operand : Document} (h : Yaml.Value.shortOperand? function value = some operand) :
    operand.Distinct := by
  unfold Yaml.Value.shortOperand? at h
  split at h
  · exact Option.some.inj h ▸ Intrinsic.attributeOperand_distinct _
  · simp at h

mutual

theorem Yaml.Value.toDocument_distinct : ∀ {value : Yaml.Value} {document : Document},
    value.toDocument = .ok document → document.Distinct
  | .null, _, h => Except.ok.inj h ▸ .null
  | .bool value, _, h => Except.ok.inj h ▸ .bool value
  | .number (.finite _), _, h => Except.ok.inj h ▸ .number _
  | .string text, _, h => Except.ok.inj h ▸ .string text
  | .sequence items, _, h => by
      simp only [Yaml.Value.toDocument, bind_eq_ok, pure_eq_ok] at h
      obtain ⟨documents, hd, rfl⟩ := h
      exact .list (Yaml.Value.toItems_distinct hd)
  | .mapping entries, _, h => by
      simp only [Yaml.Value.toDocument, bind_eq_ok, pure_eq_ok] at h
      obtain ⟨fields, hf, rfl⟩ := h
      exact Yaml.Value.toFields_distinct .empty hf
  | .tagged name value, _, h => by
      simp only [Yaml.Value.toDocument, bind_eq_ok] at h
      obtain ⟨function, -, h⟩ := h
      split at h
      · rename_i operand ho
        exact pure_eq_ok.mp h ▸ function.apply_distinct (Yaml.Value.shortOperand?_distinct ho)
      · obtain ⟨operand, ho, h⟩ := bind_eq_ok.mp h
        exact pure_eq_ok.mp h ▸ function.apply_distinct (Yaml.Value.toDocument_distinct ho)

theorem Yaml.Value.toItems_distinct : ∀ {items : List Yaml.Value} {documents : List Document},
    Yaml.Value.toItems items = .ok documents → ∀ document ∈ documents, document.Distinct
  | [], _, h => Except.ok.inj h ▸ fun _ hd => absurd hd List.not_mem_nil
  | item :: rest, _, h => by
      simp only [Yaml.Value.toItems, bind_eq_ok, pure_eq_ok] at h
      obtain ⟨first, hfirst, more, hmore, rfl⟩ := h
      exact List.forall_mem_cons.mpr
        ⟨Yaml.Value.toDocument_distinct hfirst, Yaml.Value.toItems_distinct hmore⟩

theorem Yaml.Value.toFields_distinct : ∀ {entries : List (Yaml.Value × Yaml.Value)}
    {fields final : Fields Document}, (Document.object fields).Distinct →
    Yaml.Value.toFields fields entries = .ok final → (Document.object final).Distinct
  | [], _, _, hd, h => Except.ok.inj h ▸ hd
  | (key, value) :: rest, _, _, hd, h => by
      simp only [Yaml.Value.toFields, bind_eq_ok] at h
      obtain ⟨name, -, content, hcontent, h⟩ := h
      exact Yaml.Value.toFields_distinct
        (hd.insert name (Yaml.Value.toDocument_distinct hcontent)) h

end

/-- In every document that is read all names of an object differ. -/
theorem Source.parse_distinct {format : Source.Format} {text : String} {document : Document}
    (h : Source.parse format text = .ok document) : document.Distinct := by
  cases format with
  | json =>
      simp only [Source.parse] at h
      split at h
      · rename_i hread
        exact Except.ok.inj h ▸ Json.parse?_distinct hread
      · simp at h
  | yaml =>
      simp only [Source.parse] at h
      split at h
      · exact Yaml.Value.toDocument_distinct (mapError_eq_ok.mp h)
      · simp at h

end StepGraph
