/-
What cannot be converted, and what of it is reported.

A conversion looks at a value, at the parts of the value, and at the keys of
its mappings, but into no key.  Each of these sites is an obstacle or not by
itself.  A value is converted if no site in it is an obstacle; otherwise the
first one counts, in the order in which the sites are written: a key in front
of its value, a tag in front of its operand.
-/
import StepGraph.Proofs.LongForm

namespace StepGraph

/-- The fault of a computation that failed. -/
def failure? {ε α : Type} : Except ε α → Option ε
  | .error fault => some fault
  | .ok _ => none

section Failure

variable {ε α β : Type}

theorem failure?_eq_some {x : Except ε α} {fault : ε} :
    failure? x = some fault ↔ x = .error fault := by
  cases x with
  | error other => simp [failure?]
  | ok a => simp [failure?]

/-- Where the second step fails in the same way on every result of the first, the fault is that
of the first step or else that of the second. -/
theorem failure?_bind {x : Except ε α} {f : α → Except ε β} {second : Option ε}
    (h : ∀ a, failure? (f a) = second) : failure? (x >>= f) = (failure? x).or second := by
  cases x with
  | error fault => rfl
  | ok a => exact h a

/-- A last step that cannot fail leaves the fault as it is. -/
theorem failure?_bind_pure (x : Except ε α) (f : α → β) :
    failure? (x >>= fun a => pure (f a)) = failure? x := by
  cases x with
  | error fault => rfl
  | ok a => rfl

end Failure

namespace Yaml

/-! ## The sites of a value -/

/-- What a conversion looks at: a value or one of its parts, or a key of a mapping. -/
inductive Site where
  | value (value : Value)
  | key (key : Value)

/-- The obstacle that a site is by itself, whatever is in it. -/
def Site.obstacle? : Site → Option Obstacle
  | .value (.tagged name _) =>
      if name ∈ Intrinsic.all.map Intrinsic.tag then none else some (.unknownTag name)
  | .value (.number (.infinite negative)) => some (.unbounded (.infinite negative))
  | .value (.number .nan) => some (.unbounded .nan)
  | .value _ => none
  | .key (.sequence items) => some (.compoundKey (.sequence items))
  | .key (.mapping entries) => some (.compoundKey (.mapping entries))
  | .key (.tagged name operand) => some (.compoundKey (.tagged name operand))
  | .key _ => none

namespace Value

/-- A site is reached through items of sequences, entries of mappings and operands of tags. -/
inductive Reaches : Value → Site → Prop
  | here {value : Value} : Reaches value (.value value)
  | item {items : List Value} {item : Value} {site : Site} :
      item ∈ items → Reaches item site → Reaches (.sequence items) site
  | key {entries : List (Value × Value)} {key value : Value} :
      (key, value) ∈ entries → Reaches (.mapping entries) (.key key)
  | entry {entries : List (Value × Value)} {key value : Value} {site : Site} :
      (key, value) ∈ entries → Reaches value site → Reaches (.mapping entries) site
  | operand {name : String} {value : Value} {site : Site} :
      Reaches value site → Reaches (.tagged name value) site

mutual

/-- The sites of a value in the order in which they are written. -/
def sites : Value → List Site
  | .sequence items => .value (.sequence items) :: itemSites items
  | .mapping entries => .value (.mapping entries) :: entrySites entries
  | .tagged name value => .value (.tagged name value) :: sites value
  | value => [.value value]

/-- The sites of the items of a sequence, one item after the other. -/
def itemSites : List Value → List Site
  | [] => []
  | item :: rest => sites item ++ itemSites rest

/-- The sites of the entries of a mapping: each key and then its value. -/
def entrySites : List (Value × Value) → List Site
  | [] => []
  | (key, value) :: rest => .key key :: sites value ++ entrySites rest

end

/-- The obstacle is that of a site in front of which there is none. -/
def FirstObstacle (value : Value) (obstacle : Obstacle) : Prop :=
  ∃ before site behind, value.sites = before ++ site :: behind ∧
    (∀ other ∈ before, other.obstacle? = none) ∧ site.obstacle? = some obstacle

theorem firstObstacle_iff {value : Value} {obstacle : Obstacle} :
    value.FirstObstacle obstacle ↔ value.sites.findSome? Site.obstacle? = some obstacle := by
  rw [List.findSome?_eq_some_iff, FirstObstacle]
  constructor
  · rintro ⟨before, site, behind, hsites, hbefore, hsite⟩
    exact ⟨before, site, behind, hsites, hsite, hbefore⟩
  · rintro ⟨before, site, behind, hsites, hsite, hbefore⟩
    exact ⟨before, site, behind, hsites, hbefore, hsite⟩

mutual

theorem reaches_of_mem_sites : ∀ {value : Value} {site : Site},
    site ∈ value.sites → value.Reaches site
  | .null, _, h | .bool _, _, h | .number _, _, h | .string _, _, h => by
      rw [sites, List.mem_singleton] at h
      · exact h ▸ .here
      all_goals nofun
  | .sequence items, site, h => by
      rw [sites] at h
      rcases List.mem_cons.mp h with rfl | h
      · exact .here
      · obtain ⟨item, hi, hr⟩ := reaches_of_mem_itemSites h
        exact .item hi hr
  | .mapping entries, site, h => by
      rw [sites] at h
      rcases List.mem_cons.mp h with rfl | h
      · exact .here
      · obtain ⟨key, value, he, rfl | hr⟩ := reaches_of_mem_entrySites h
        · exact .key he
        · exact .entry he hr
  | .tagged name value, site, h => by
      rw [sites] at h
      rcases List.mem_cons.mp h with rfl | h
      · exact .here
      · exact .operand (reaches_of_mem_sites h)

theorem reaches_of_mem_itemSites : ∀ {items : List Value} {site : Site},
    site ∈ itemSites items → ∃ item ∈ items, item.Reaches site
  | [], _, h => absurd h List.not_mem_nil
  | first :: rest, site, h => by
      rw [itemSites] at h
      rcases List.mem_append.mp h with h | h
      · exact ⟨first, List.mem_cons_self, reaches_of_mem_sites h⟩
      · obtain ⟨item, hi, hr⟩ := reaches_of_mem_itemSites h
        exact ⟨item, List.mem_cons_of_mem _ hi, hr⟩

theorem reaches_of_mem_entrySites : ∀ {entries : List (Value × Value)} {site : Site},
    site ∈ entrySites entries →
    ∃ key value, (key, value) ∈ entries ∧ (site = .key key ∨ value.Reaches site)
  | [], _, h => absurd h List.not_mem_nil
  | (key, value) :: rest, site, h => by
      rw [entrySites] at h
      rcases List.mem_append.mp h with h | h
      · rcases List.mem_cons.mp h with rfl | h
        · exact ⟨key, value, List.mem_cons_self, .inl rfl⟩
        · exact ⟨key, value, List.mem_cons_self, .inr (reaches_of_mem_sites h)⟩
      · obtain ⟨other, content, he, hr⟩ := reaches_of_mem_entrySites h
        exact ⟨other, content, List.mem_cons_of_mem _ he, hr⟩

end

theorem mem_sites_self (value : Value) : .value value ∈ value.sites := by
  cases value with
  | null | bool _ | number _ | string _ => exact List.mem_singleton.mpr rfl
  | sequence _ | mapping _ | tagged _ _ => exact List.mem_cons_self

theorem sites_subset_itemSites {items : List Value} {item : Value} (h : item ∈ items) :
    item.sites ⊆ itemSites items := by
  induction items with
  | nil => exact absurd h List.not_mem_nil
  | cons first rest ih =>
      intro site hs
      rw [itemSites]
      rcases List.mem_cons.mp h with rfl | h
      · exact List.mem_append_left _ hs
      · exact List.mem_append_right _ (ih h hs)

theorem sites_subset_entrySites {entries : List (Value × Value)} {key value : Value}
    (h : (key, value) ∈ entries) : .key key :: value.sites ⊆ entrySites entries := by
  induction entries with
  | nil => exact absurd h List.not_mem_nil
  | cons first rest ih =>
      intro site hs
      rw [entrySites]
      rcases List.mem_cons.mp h with rfl | h
      · exact List.mem_append_left _ hs
      · exact List.mem_append_right _ (ih h hs)

/-- The sites that are listed are those that are reached. -/
theorem mem_sites_iff {value : Value} {site : Site} :
    site ∈ value.sites ↔ value.Reaches site := by
  constructor
  · exact reaches_of_mem_sites
  · intro h
    induction h with
    | here => exact mem_sites_self _
    | item hi _ ih => exact List.mem_cons_of_mem _ (sites_subset_itemSites hi ih)
    | key he =>
        exact List.mem_cons_of_mem _ (sites_subset_entrySites he List.mem_cons_self)
    | entry he _ ih =>
        exact List.mem_cons_of_mem _
          (sites_subset_entrySites he (List.mem_cons_of_mem _ ih))
    | operand _ ih => exact List.mem_cons_of_mem _ ih

/-! ## Conversion -/

theorem failure?_functionOf (name : String) (value : Value) :
    failure? (functionOf name) = (Site.value (.tagged name value)).obstacle? := by
  rw [functionOf_eq, Site.obstacle?]
  cases hf : Intrinsic.ofName? name with
  | none =>
      have hname : name ∉ Intrinsic.all.map Intrinsic.tag := by
        intro hm
        obtain ⟨function, ha, ht⟩ := List.mem_map.mp hm
        simpa [ht] using List.find?_eq_none.mp hf function ha
      rw [if_neg hname]
      rfl
  | some function =>
      have hname : name ∈ Intrinsic.all.map Intrinsic.tag := by
        have ht : function.tag = name := by simpa using List.find?_some hf
        exact ht ▸ List.mem_map_of_mem function.mem_all
      rw [if_pos hname]
      rfl

theorem failure?_keyText (key : Value) : failure? key.keyText = (Site.key key).obstacle? := by
  cases key <;> rfl

theorem failure?_finiteNumber (numeral : Numeral) :
    failure? (finiteNumber numeral) = (Site.value (.number numeral)).obstacle? := by
  cases numeral <;> rfl

/-- An operand in a short form of its own is a text, which is no obstacle. -/
theorem findSome?_sites_of_shortOperand? {function : Intrinsic} {value : Value}
    {operand : Document} (h : shortOperand? function value = some operand) :
    value.sites.findSome? Site.obstacle? = none := by
  unfold shortOperand? at h
  split at h
  · rfl
  · cases h

mutual

theorem failure?_toDocument : ∀ value : Value,
    failure? value.toDocument = value.sites.findSome? Site.obstacle?
  | .null | .bool _ | .string _ => rfl
  | .number numeral => by
      rw [toDocument, failure?_finiteNumber, sites, List.findSome?_singleton]
      all_goals nofun
  | .sequence items => by
      rw [toDocument, failure?_bind_pure, failure?_toItems items]
      rfl
  | .mapping entries => by
      rw [toDocument, failure?_bind_pure, failure?_toFields [] entries]
      rfl
  | .tagged name value => by
      have ih := failure?_toDocument value
      have hsites : (tagged name value).sites.findSome? Site.obstacle? =
          (failure? (functionOf name)).or (value.sites.findSome? Site.obstacle?) := by
        rw [failure?_functionOf name value, sites, List.findSome?_cons]
        cases (Site.value (.tagged name value)).obstacle? <;> rfl
      rw [hsites, toDocument]
      refine failure?_bind ?_
      intro function
      cases hs : shortOperand? function value with
      | none => exact (failure?_bind_pure _ _).trans ih
      | some operand => exact (findSome?_sites_of_shortOperand? hs).symm

theorem failure?_toItems : ∀ items : List Value,
    failure? (toItems items) = (itemSites items).findSome? Site.obstacle?
  | [] => rfl
  | item :: rest => by
      have hrest : ∀ first, failure? (do return first :: (← toItems rest)) =
          (itemSites rest).findSome? Site.obstacle? := by
        intro first
        exact (failure?_bind_pure _ _).trans (failure?_toItems rest)
      rw [toItems, failure?_bind hrest, failure?_toDocument item, itemSites,
        List.findSome?_append]

theorem failure?_toFields : ∀ (fields : Fields Document) (entries : List (Value × Value)),
    failure? (toFields fields entries) = (entrySites entries).findSome? Site.obstacle?
  | _, [] => rfl
  | fields, (key, value) :: rest => by
      -- what follows does not depend on the fields so far, so a name that is there already
      -- changes nothing here
      have hrest : ∀ name content,
          failure? (toFields (fields.insert name content) rest) =
            (entrySites rest).findSome? Site.obstacle? := by
        intro name content
        exact failure?_toFields _ rest
      have hvalue : ∀ name, failure? (do
            let content ← value.toDocument
            toFields (fields.insert name content) rest) =
          (value.sites.findSome? Site.obstacle?).or
            ((entrySites rest).findSome? Site.obstacle?) := by
        intro name
        rw [failure?_bind (hrest name), failure?_toDocument value]
      rw [toFields, failure?_bind hvalue, failure?_keyText, entrySites, List.cons_append,
        List.findSome?_cons, List.findSome?_append]
      cases (Site.key key).obstacle? <;> rfl

end

/-- A value is converted unless an obstacle is reached in it, and otherwise the first obstacle
in the order of writing is reported. -/
theorem toDocument_firstObstacle (value : Value) :
    ((∃ obstacle, value.toDocument = .error obstacle) ↔
        ∃ site, value.Reaches site ∧ site.obstacle? ≠ none) ∧
      ∀ obstacle, value.toDocument = .error obstacle ↔ value.FirstObstacle obstacle := by
  have hfailure := failure?_toDocument value
  have hfirst : ∀ obstacle, value.toDocument = .error obstacle ↔
      value.sites.findSome? Site.obstacle? = some obstacle := by
    intro obstacle
    rw [← hfailure, failure?_eq_some]
  refine ⟨⟨?_, ?_⟩, ?_⟩
  · rintro ⟨obstacle, h⟩
    obtain ⟨before, site, behind, hsites, -, hsite⟩ :=
      firstObstacle_iff.mpr ((hfirst obstacle).mp h)
    refine ⟨site, mem_sites_iff.mp ?_, by simp [hsite]⟩
    rw [hsites]
    exact List.mem_append_right _ List.mem_cons_self
  · rintro ⟨site, hr, hsite⟩
    cases hs : value.sites.findSome? Site.obstacle? with
    | none => exact absurd (List.findSome?_eq_none_iff.mp hs site (mem_sites_iff.mpr hr)) hsite
    | some obstacle => exact ⟨obstacle, (hfirst obstacle).mpr hs⟩
  · intro obstacle
    rw [hfirst, firstObstacle_iff]

-- the value of an entry counts although a later key has the same text, and the tag in the key
-- that is no text does not
example :
    (mapping [(.number (.finite (.int 1)), .number .nan), (.string "1", .null),
      (.sequence [.tagged "Nope" .null], .null)]).toDocument = .error (.unbounded .nan) := by
  cbv

end Value

end Yaml

end StepGraph
