/-
Named values in the order they were written.

An object of a document, the states of a graph and the fields of a step are
all lists of named values whose order is part of their meaning.  A name is
looked up from the front, and storing under a name that is already there
keeps its place; so as long as every list is built by `insert`, no name
occurs twice.
-/

namespace StepGraph

/-- Named values in the order they were written. -/
abbrev Fields (α : Type) := List (String × α)

namespace Fields

variable {α : Type}

/-- The names, in order. -/
def names (fields : Fields α) : List String :=
  List.map Prod.fst fields

/-- The value under a name. -/
def get? : Fields α → String → Option α
  | [], _ => none
  | (key, value) :: rest, name => if key = name then some value else get? rest name

/-- Whether a name is present. -/
def has (fields : Fields α) (name : String) : Bool :=
  (get? fields name).isSome

/-- Stores a value: in place when the name is present, at the end otherwise. -/
def insert : Fields α → String → α → Fields α
  | [], name, value => [(name, value)]
  | (key, old) :: rest, name, value =>
      if key = name then (key, value) :: rest else (key, old) :: insert rest name value

/-- Stores a value under a name that is present; changes nothing otherwise. -/
def replace : Fields α → String → α → Fields α
  | [], _, _ => []
  | (key, old) :: rest, name, value =>
      if key = name then (key, value) :: rest else (key, old) :: replace rest name value

/-- Leaves a name out. -/
def erase (fields : Fields α) (name : String) : Fields α :=
  List.filter (fun field => field.1 ≠ name) fields

@[simp] theorem get?_nil (name : String) : get? ([] : Fields α) name = none := rfl

theorem get?_cons (key name : String) (value : α) (rest : Fields α) :
    get? ((key, value) :: rest) name = if key = name then some value else get? rest name :=
  rfl

@[simp] theorem get?_insert_self (fields : Fields α) (name : String) (value : α) :
    get? (insert fields name value) name = some value := by
  induction fields with
  | nil => simp [insert, get?]
  | cons field rest ih =>
    obtain ⟨key, old⟩ := field
    by_cases h : key = name <;> simp [insert, get?, h, ih]

@[simp] theorem get?_insert_of_ne (fields : Fields α) {name other : String} (value : α)
    (h : name ≠ other) : get? (insert fields name value) other = get? fields other := by
  induction fields with
  | nil => simp [insert, get?, h]
  | cons field rest ih =>
    obtain ⟨key, old⟩ := field
    by_cases hk : key = name
    · subst hk; simp [insert, get?, h]
    · by_cases ho : key = other
      · subst ho; simp [insert, get?, hk]
      · simp [insert, get?, hk, ho, ih]

/-- Storing under a name that is present keeps the names and their order. -/
theorem names_insert_of_mem (fields : Fields α) (name : String) (value : α)
    (h : name ∈ names fields) : names (insert fields name value) = names fields := by
  induction fields with
  | nil => simp [names] at h
  | cons field rest ih =>
    obtain ⟨key, old⟩ := field
    by_cases hk : key = name
    · simp [insert, names, hk]
    · have hr : name ∈ names rest := by
        simp only [names, List.map_cons, List.mem_cons] at h
        rcases h with h | h
        · exact absurd h.symm hk
        · exact h
      simpa [insert, names, hk] using ih hr

/-- Storing under a new name appends it. -/
theorem names_insert_of_not_mem (fields : Fields α) (name : String) (value : α)
    (h : name ∉ names fields) : names (insert fields name value) = names fields ++ [name] := by
  induction fields with
  | nil => simp [insert, names]
  | cons field rest ih =>
    obtain ⟨key, old⟩ := field
    simp only [names, List.map_cons, List.mem_cons, not_or] at h
    have hk : key ≠ name := fun e => h.1 e.symm
    simpa [insert, names, hk] using ih h.2

theorem has_eq_false {fields : Fields α} {name : String} :
    has fields name = false ↔ get? fields name = none := by
  simp [has]

theorem get?_eq_none_iff {fields : Fields α} {name : String} :
    get? fields name = none ↔ name ∉ names fields := by
  induction fields with
  | nil => simp [names]
  | cons field rest ih =>
    obtain ⟨key, value⟩ := field
    by_cases hk : key = name
    · simp [get?, names, hk]
    · rw [get?_cons, if_neg hk, ih]
      simp [names, Ne.symm hk]

theorem mem_of_get? {fields : Fields α} {name : String} {value : α}
    (h : get? fields name = some value) : (name, value) ∈ fields := by
  induction fields with
  | nil => simp at h
  | cons field rest ih =>
    obtain ⟨key, old⟩ := field
    rw [get?_cons] at h
    by_cases hk : key = name
    · rw [if_pos hk, Option.some.injEq] at h
      rw [hk, h]
      exact List.mem_cons_self
    · rw [if_neg hk] at h
      exact List.mem_cons_of_mem _ (ih h)

/-- Where no name occurs twice, every field is found under its name. -/
theorem get?_of_mem {fields : Fields α} (hd : (names fields).Nodup) {name : String} {value : α}
    (h : (name, value) ∈ fields) : get? fields name = some value := by
  induction fields with
  | nil => simp at h
  | cons field rest ih =>
    obtain ⟨key, old⟩ := field
    obtain ⟨hk, hr⟩ := List.nodup_cons.mp (show (key :: names rest).Nodup from hd)
    rcases List.mem_cons.mp h with h | h
    · obtain ⟨rfl, rfl⟩ := Prod.mk.inj h
      simp [get?]
    · have hne : key ≠ name := by
        rintro rfl
        exact hk (List.mem_map_of_mem h)
      rw [get?_cons, if_neg hne]
      exact ih hr h

/-- Storing under a new name puts the field behind all others. -/
theorem insert_of_get?_none {fields : Fields α} {name : String} {value : α}
    (h : get? fields name = none) : insert fields name value = fields ++ [(name, value)] := by
  induction fields with
  | nil => simp [insert]
  | cons field rest ih =>
    obtain ⟨key, old⟩ := field
    rw [get?_cons] at h
    by_cases hk : key = name
    · simp [hk] at h
    · rw [if_neg hk] at h
      simp [insert, hk, ih h]

theorem erase_cons (key name : String) (value : α) (rest : Fields α) :
    erase ((key, value) :: rest) name =
      if key = name then erase rest name else (key, value) :: erase rest name := by
  by_cases hk : key = name <;> simp [erase, hk]

@[simp] theorem get?_erase_self (fields : Fields α) (name : String) :
    get? (erase fields name) name = none := by
  rw [get?_eq_none_iff, names, erase]
  simp

@[simp] theorem get?_erase_of_ne (fields : Fields α) {name other : String} (h : name ≠ other) :
    get? (erase fields name) other = get? fields other := by
  induction fields with
  | nil => rfl
  | cons field rest ih =>
    obtain ⟨key, value⟩ := field
    rw [erase_cons]
    by_cases hk : key = name
    · rw [if_pos hk, ih, get?_cons, if_neg (hk ▸ h)]
    · rw [if_neg hk, get?_cons, get?_cons, ih]

theorem erase_of_get?_none {fields : Fields α} {name : String}
    (h : get? fields name = none) : erase fields name = fields := by
  induction fields with
  | nil => rfl
  | cons field rest ih =>
    obtain ⟨key, value⟩ := field
    rw [get?_cons] at h
    by_cases hk : key = name
    · simp [hk] at h
    · rw [if_neg hk] at h
      rw [erase_cons, if_neg hk, ih h]

theorem erase_append (fields more : Fields α) (name : String) :
    erase (fields ++ more) name = erase fields name ++ erase more name :=
  List.filter_append ..

/-- Leaving out a name that was new undoes storing under it. -/
theorem erase_insert_of_get?_none {fields : Fields α} {name : String} (value : α)
    (h : get? fields name = none) : erase (insert fields name value) name = fields := by
  rw [insert_of_get?_none h, erase_append, erase_of_get?_none h, erase_cons, if_pos rfl]
  exact List.append_nil fields

@[simp] theorem get?_replace_self (fields : Fields α) (name : String) (value : α) :
    get? (replace fields name value) name = (get? fields name).map fun _ => value := by
  induction fields with
  | nil => simp [replace]
  | cons field rest ih =>
    obtain ⟨key, old⟩ := field
    by_cases hk : key = name <;> simp [replace, get?, hk, ih]

@[simp] theorem get?_replace_of_ne (fields : Fields α) {name other : String} (value : α)
    (h : name ≠ other) : get? (replace fields name value) other = get? fields other := by
  induction fields with
  | nil => simp [replace]
  | cons field rest ih =>
    obtain ⟨key, old⟩ := field
    by_cases hk : key = name
    · subst hk
      simp [replace, get?, h]
    · rw [replace, if_neg hk, get?_cons, get?_cons, ih]

/-- Storing in place keeps the names and their order. -/
@[simp] theorem names_replace (fields : Fields α) (name : String) (value : α) :
    names (replace fields name value) = names fields := by
  induction fields with
  | nil => rfl
  | cons field rest ih =>
    obtain ⟨key, old⟩ := field
    by_cases hk : key = name
    · simp [replace, names, hk]
    · simpa [replace, names, hk] using ih

/-- Of two values stored under a name that is present the second stays. -/
@[simp] theorem replace_replace (fields : Fields α) (name : String) (value new : α) :
    replace (replace fields name value) name new = replace fields name new := by
  induction fields with
  | nil => rfl
  | cons field rest ih =>
    obtain ⟨key, old⟩ := field
    by_cases hk : key = name <;> simp [replace, hk, ih]

theorem replace_comm (fields : Fields α) {name other : String} (value new : α)
    (h : name ≠ other) :
    replace (replace fields name value) other new =
      replace (replace fields other new) name value := by
  induction fields with
  | nil => rfl
  | cons field rest ih =>
    obtain ⟨key, old⟩ := field
    by_cases hk : key = name
    · subst hk
      simp [replace, h]
    · by_cases ho : key = other
      · subst ho
        simp [replace, hk]
      · simp [replace, hk, ho, ih]

theorem replace_insert_of_ne (fields : Fields α) {name other : String} (value new : α)
    (h : name ≠ other) :
    replace (insert fields name value) other new =
      insert (replace fields other new) name value := by
  induction fields with
  | nil => simp [insert, replace, h]
  | cons field rest ih =>
    obtain ⟨key, old⟩ := field
    by_cases hk : key = name
    · subst hk
      simp [insert, replace, h]
    · by_cases ho : key = other
      · subst ho
        simp [insert, replace, hk]
      · simp [insert, replace, hk, ho, ih]

theorem erase_insert_of_ne (fields : Fields α) {name other : String} (value : α)
    (h : name ≠ other) :
    erase (insert fields name value) other = insert (erase fields other) name value := by
  induction fields with
  | nil => simp [insert, erase, h]
  | cons field rest ih =>
    obtain ⟨key, old⟩ := field
    by_cases hk : key = name
    · subst hk
      simp [insert, erase_cons, h]
    · by_cases ho : key = other
      · subst ho
        simp [insert, erase_cons, hk, ih]
      · simp [insert, erase_cons, hk, ho, ih]

theorem erase_replace_of_ne (fields : Fields α) {name other : String} (value : α)
    (h : name ≠ other) :
    erase (replace fields name value) other = replace (erase fields other) name value := by
  induction fields with
  | nil => rfl
  | cons field rest ih =>
    obtain ⟨key, old⟩ := field
    by_cases hk : key = name
    · subst hk
      simp [replace, erase_cons, h]
    · by_cases ho : key = other
      · subst ho
        simp [replace, erase_cons, hk, ih]
      · simp [replace, erase_cons, hk, ho, ih]

/-- Among the fields that a test lets through, one that passes it is stored as among all. -/
theorem filter_replace {fields : Fields α} {name : String} {old value : α} {p : α → Bool}
    (h : get? fields name = some old) (hold : p old = true) (hnew : p value = true) :
    List.filter (fun field => p field.2) (replace fields name value) =
      replace (List.filter (fun field => p field.2) fields) name value := by
  induction fields with
  | nil => rfl
  | cons field rest ih =>
    obtain ⟨key, first⟩ := field
    rw [get?_cons] at h
    by_cases hk : key = name
    · rw [if_pos hk, Option.some.injEq] at h
      simp [replace, hk, h, hold, hnew]
    · rw [if_neg hk] at h
      by_cases hp : p first = true
      · simp [replace, hk, hp, ih h]
      · simp [replace, hk, hp, ih h]

theorem replace_of_not_mem {fields : Fields α} {name : String} (value : α)
    (h : name ∉ names fields) : replace fields name value = fields := by
  induction fields with
  | nil => rfl
  | cons field rest ih =>
    obtain ⟨key, old⟩ := field
    simp only [names, List.map_cons, List.mem_cons, not_or] at h
    rw [replace, if_neg (Ne.symm h.1), ih h.2]

/-- Where no name occurs twice, a value that a test treats as the old one is stored among the
fields that pass it as among all. -/
theorem filter_replace_of_eq {fields : Fields α} (hd : (names fields).Nodup) {name : String}
    {old value : α} {p : α → Bool} (h : get? fields name = some old) (hp : p value = p old) :
    List.filter (fun field => p field.2) (replace fields name value) =
      replace (List.filter (fun field => p field.2) fields) name value := by
  cases hold : p old with
  | true => exact filter_replace h hold (hp.trans hold)
  | false =>
    have hnew : p value = false := hp.trans hold
    induction fields with
    | nil => rfl
    | cons field rest ih =>
      obtain ⟨key, first⟩ := field
      obtain ⟨hkey, hrest⟩ := List.nodup_cons.mp (show (key :: names rest).Nodup from hd)
      rw [get?_cons] at h
      by_cases hk : key = name
      · rw [if_pos hk, Option.some.injEq] at h
        have hout : name ∉ names (List.filter (fun field => p field.2) rest) := by
          intro hm
          obtain ⟨field, hf, hn⟩ := List.mem_map.mp hm
          exact hkey (hk ▸ hn ▸ List.mem_map_of_mem (List.mem_filter.mp hf).1)
        simp [replace, hk, h, hold, hnew, replace_of_not_mem value hout]
      · rw [if_neg hk] at h
        by_cases hfirst : p first = true
        · simp [replace, hk, hfirst, ih hrest h]
        · simp [replace, hk, hfirst, ih hrest h]

end Fields

end StepGraph
