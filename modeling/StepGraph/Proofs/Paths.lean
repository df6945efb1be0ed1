/-
Places in a document.

A path goes from field to field and from item to item.  Storing a value at a
path of fields puts it there and leaves alone what the path does not lead
through; the objects that it does lead through keep their names in order.
-/
import StepGraph.Document

namespace StepGraph

/-- One step into a document: to a field of an object or to an item of a list. -/
inductive Key where
  | field (name : String)
  | item (index : Nat)
deriving DecidableEq

namespace Document

/-- What a step leads to. -/
def child? : Document → Key → Option Document
  | .object fields, .field name => Fields.get? fields name
  | .list items, .item index => items[index]?
  | _, _ => none

/-- What a path leads to. -/
def at? : Document → List Key → Option Document
  | document, [] => some document
  | document, key :: path => (document.child? key).bind fun child => child.at? path

/-- The names of an object, in order. -/
def names? (document : Document) : Option (List String) := document.fields?.map Fields.names

theorem at?_cons (document : Document) (key : Key) (path : List Key) :
    document.at? (key :: path) = (document.child? key).bind fun child => child.at? path := rfl

/-- Two documents differ only at a path, where a value stands in place of an old one. -/
structure ReplacedAt (path : List Key) (old new before after : Document) : Prop where
  found : before.at? path = some old
  /-- The value is there with all that is in it. -/
  inside : ∀ rest, after.at? (path ++ rest) = new.at? rest
  beside : ∀ other, ¬ path <+: other → ¬ other <+: path → after.at? other = before.at? other
  /-- All objects outside have the same names in the same order. -/
  names : ∀ other, ¬ path <+: other →
    (after.at? other).bind names? = (before.at? other).bind names?

theorem ReplacedAt.root (old new : Document) : ReplacedAt [] old new old new := by
  refine ⟨rfl, ?_, ?_, ?_⟩
  · intro rest
    rfl
  · intro other h
    exact absurd List.nil_prefix h
  · intro other h
    exact absurd List.nil_prefix h

/-- Storing under a name changes no other field, and no item, as there is none. -/
theorem child?_replace_of_ne {fields : Fields Document} {name : String} {key : Key}
    (value : Document) (h : key ≠ .field name) :
    (object (fields.replace name value)).child? key = (object fields).child? key := by
  cases key with
  | field other =>
      refine Fields.get?_replace_of_ne fields value ?_
      rintro rfl
      exact h rfl
  | item index => rfl

/-- A change in a field is a change in the object. -/
theorem ReplacedAt.field {path : List Key} {old new child changed : Document}
    {fields : Fields Document} {name : String} (h : ReplacedAt path old new child changed)
    (hc : fields.get? name = some child) :
    ReplacedAt (.field name :: path) old new (object fields)
      (object (fields.replace name changed)) := by
  have hbefore : (object fields).child? (.field name) = some child := hc
  have hafter : (object (fields.replace name changed)).child? (.field name) = some changed := by
    rw [child?, Fields.get?_replace_self, hc]
    rfl
  refine ⟨?_, ?_, ?_, ?_⟩
  · rw [at?_cons, hbefore]
    exact h.found
  · intro rest
    rw [List.cons_append, at?_cons, hafter]
    exact h.inside rest
  · intro other hp ho
    cases other with
    | nil => exact absurd List.nil_prefix ho
    | cons key rest =>
        rw [at?_cons, at?_cons]
        by_cases hk : key = .field name
        · subst hk
          rw [List.cons_prefix_cons] at hp ho
          rw [hbefore, hafter]
          exact h.beside rest (fun hpre => hp ⟨rfl, hpre⟩) fun hpre => ho ⟨rfl, hpre⟩
        · rw [child?_replace_of_ne changed hk]
  · intro other hp
    cases other with
    | nil =>
        show some (Fields.names (fields.replace name changed)) = some (Fields.names fields)
        rw [Fields.names_replace]
    | cons key rest =>
        rw [at?_cons, at?_cons]
        by_cases hk : key = .field name
        · subst hk
          rw [List.cons_prefix_cons] at hp
          rw [hbefore, hafter]
          exact h.names rest fun hpre => hp ⟨rfl, hpre⟩
        · rw [child?_replace_of_ne changed hk]

/-- What is stored at a path that is there changes the document there and nowhere else. -/
theorem replacedAt_replaceAt : ∀ {path : List String} {document old : Document} (new : Document),
    document.at? (path.map .field) = some old →
    ReplacedAt (path.map .field) old new document (document.replaceAt path new) := by
  intro path
  induction path with
  | nil =>
      intro document old new h
      obtain rfl := Option.some.inj h
      cases document <;> exact ReplacedAt.root _ new
  | cons name path ih =>
      intro document old new h
      rw [List.map_cons, at?_cons] at h
      obtain ⟨child, hc, hpath⟩ := Option.bind_eq_some_iff.mp h
      cases document with
      | object fields =>
          rw [replaceAt_object hc]
          exact (ih new hpath).field hc
      | _ => simp [child?] at hc

/-- Values can be stored in either order at two places of which neither lies in the other. -/
theorem replaceAt_comm {path other : List String} (document value new : Document)
    (h : ¬ path <+: other) (h' : ¬ other <+: path) :
    (document.replaceAt path value).replaceAt other new =
      (document.replaceAt other new).replaceAt path value := by
  induction path generalizing document other with
  | nil => exact absurd List.nil_prefix h
  | cons name path ih =>
      cases other with
      | nil => exact absurd List.nil_prefix h'
      | cons key other =>
          cases document with
          | object fields =>
              by_cases hk : name = key
              · subst hk
                rw [List.cons_prefix_cons] at h h'
                cases hc : Fields.get? fields name with
                | none => simp only [replaceAt, hc]
                | some child =>
                    have hchild := ih child (fun hp => h ⟨rfl, hp⟩) fun hp => h' ⟨rfl, hp⟩
                    simp [replaceAt, hc, hchild]
              · cases hn : Fields.get? fields name with
                | none =>
                    cases ho : Fields.get? fields key with
                    | none => simp only [replaceAt, hn, ho]
                    | some second => simp [replaceAt, hn, ho, Ne.symm hk]
                | some first =>
                    cases ho : Fields.get? fields key with
                    | none => simp [replaceAt, hn, ho, hk]
                    | some second =>
                        simp [replaceAt, hn, ho, hk, Ne.symm hk, Fields.replace_comm _ _ _ hk]
          | _ => rfl

end Document

end StepGraph
