/-
The place of a plan, seen under any settings.

An expansion asks a template for two things only: where the payload of the
plan stands, and what it is.  Storing another payload there leaves the types
of all resources as they are.  So whoever asks afterwards, under whatever
settings, finds the same place as before; and there the old payload, unless
it is the place that was written to.
-/
import StepGraph.Proofs.ExpansionFrame

namespace StepGraph.Template

open StepGraph.Plan (Compiler)

/-- Where the payload of the plan stands and what it is, if there is a plan. -/
def Index.slot? (index : Index) : Except Fault (Option (List String × Document)) :=
  index.plan?.map fun found => found.map fun plan => (index.payloadPath plan.name, plan.payload)

theorem Index.slot?_eq_none_iff {index : Index} :
    index.slot? = .ok none ↔ index.plan? = .ok none := by
  rw [Index.slot?]
  cases index.plan? with
  | error fault => exact ⟨nofun, nofun⟩
  | ok found =>
      cases found with
      | none => exact ⟨fun _ => rfl, fun _ => rfl⟩
      | some plan => exact ⟨nofun, nofun⟩

theorem Index.slot?_eq_some_iff {index : Index} {path : List String} {payload : Document} :
    index.slot? = .ok (some (path, payload)) ↔
      ∃ plan, index.plan? = .ok (some plan) ∧ index.payloadPath plan.name = path ∧
        plan.payload = payload := by
  rw [Index.slot?]
  cases index.plan? with
  | error fault => exact ⟨nofun, nofun⟩
  | ok found =>
      cases found with
      | none => exact ⟨nofun, nofun⟩
      | some plan => simp [Except.map]

/-- The place and the payload in the only resource of the plan's type. -/
def Index.slotIn? (index : Index) (name : String) (resource : Document) :
    Except Fault (List String × Document) :=
  match index.payload? resource with
  | none => .error (.noPayload name index.settings.payloadKey)
  | some payload =>
      if (Index.formatOf? payload).isSome then .ok (index.payloadPath name, payload)
      else .error (.noPayload name index.settings.payloadKey)

theorem Index.slot?_of_nil {index : Index}
    (h : index.ofType index.settings.planType = []) : index.slot? = .ok none := by
  simp only [Index.slot?, Index.plan?, h]
  rfl

theorem Index.slot?_of_single {index : Index} {name : String} {resource : Document}
    (h : index.ofType index.settings.planType = [(name, resource)]) :
    index.slot? = (index.slotIn? name resource).map some := by
  simp only [Index.slot?, Index.plan?, h, Index.slotIn?]
  cases index.payload? resource with
  | none => rfl
  | some payload =>
      cases hf : Index.formatOf? payload with
      | none => simp [hf, Except.map]
      | some format => simp [hf, Except.map]

theorem Index.slot?_of_many {index : Index} {first second : String × Document}
    {rest : Fields Document}
    (h : index.ofType index.settings.planType = first :: second :: rest) :
    index.slot? =
      .error (.ambiguousPlan (Fields.names (index.ofType index.settings.planType))) := by
  simp only [Index.slot?, Index.plan?, h]
  rfl

/-! ## Storing in a slot -/

section Stored

variable {index : Index} {name : String} {resource old : Document}

/-- The index over a template in which a payload was stored in a resource. -/
def Index.stored (index : Index) (template : Document) (name key : String)
    (resource new : Document) : Index :=
  { index with
    template := template
    resources := index.resources.replace name (resource.replaceAt ["Properties", key] new) }

/-- The resources of a type stay the same but for the one that was written to. -/
theorem Index.ofType_stored (template : Document) (key : String) (new : Document)
    (hd : index.resources.names.Nodup) (hr : index.resources.get? name = some resource)
    (type : String) :
    (index.stored template name key resource new).ofType type =
      (index.ofType type).replace name (resource.replaceAt ["Properties", key] new) := by
  have htype := textAt?_replaceAt_properties resource [key] new
  exact Fields.filter_replace_of_eq hd hr
    (p := fun resource => resource.textAt? "Type" = some type) (by rw [htype])

theorem Index.names_ofType_stored (template : Document) (key : String) (new : Document)
    (hd : index.resources.names.Nodup) (hr : index.resources.get? name = some resource)
    (type : String) :
    Fields.names ((index.stored template name key resource new).ofType type) =
      Fields.names (index.ofType type) := by
  rw [Index.ofType_stored template key new hd hr, Fields.names_replace]

/-- What is found in a slot when `new` was stored at a path. -/
def slotAfter (path : List String) (new : Document) (slot : List String × Document) :
    List String × Document :=
  if slot.1 = path then (path, new) else slot

theorem slotAfter_self (path : List String) (new payload : Document) :
    slotAfter path new (path, payload) = (path, new) := if_pos rfl

theorem slotAfter_of_ne {path other : List String} (h : other ≠ path) (new payload : Document) :
    slotAfter path new (other, payload) = (other, payload) := if_neg h

/-- In the resource that was written to, the payload is another one if it stands under the key
that was written to, and the same one if not. -/
theorem Index.slotIn?_stored (template : Document) {key : String} {new : Document}
    (hold : (resource.field? "Properties").bind (fun properties => properties.field? key) =
      some old)
    (hf : (Index.formatOf? old).isSome) (hf' : (Index.formatOf? new).isSome) :
    (index.stored template name key resource new).slotIn? name
        (resource.replaceAt ["Properties", key] new) =
      (index.slotIn? name resource).map (slotAfter ["Resources", name, "Properties", key] new) := by
  obtain ⟨properties, hp, hk⟩ := Option.bind_eq_some_iff.mp hold
  have hproperties : (resource.replaceAt ["Properties", key] new).field? "Properties" =
      some (properties.replaceAt [key] new) := by
    rw [Document.field?_replaceAt_self, hp]
    rfl
  by_cases hkey : index.settings.payloadKey = key
  · subst hkey
    have hbefore : index.payload? resource = some old := hold
    have hafter : (index.stored template name index.settings.payloadKey resource new).payload?
        (resource.replaceAt ["Properties", index.settings.payloadKey] new) = some new :=
      Index.payload?_replaceAt hbefore new
    rw [Index.slotIn?, Index.slotIn?, hbefore, hafter]
    simp [hf, hf', Except.map, slotAfter, Index.payloadPath, Index.stored]
  · have hsame : (index.stored template name key resource new).payload?
        (resource.replaceAt ["Properties", key] new) = index.payload? resource := by
      rw [Index.payload?, Index.payload?, hproperties, hp, Option.bind_some, Option.bind_some]
      exact Document.field?_replaceAt_of_ne _ _ _ (Ne.symm hkey)
    rw [Index.slotIn?, Index.slotIn?, hsame]
    cases index.payload? resource with
    | none => rfl
    | some payload =>
        by_cases hformat : (Index.formatOf? payload).isSome
        · simp [hformat, Except.map, slotAfter, Index.payloadPath, Index.stored, hkey]
        · simp [hformat, Except.map, Index.stored]

/-- In another resource nothing has changed. -/
theorem Index.slotIn?_stored_of_ne (template : Document) (key : String) (new : Document)
    {other : String} (hn : other ≠ name) (found : Document) :
    (index.stored template name key resource new).slotIn? other found =
      (index.slotIn? other found).map (slotAfter ["Resources", name, "Properties", key] new) := by
  have hsame : (index.stored template name key resource new).payload? found =
      index.payload? found := rfl
  rw [Index.slotIn?, Index.slotIn?, hsame]
  cases index.payload? found with
  | none => rfl
  | some payload =>
      by_cases hformat : (Index.formatOf? payload).isSome
      · simp [hformat, Except.map, slotAfter, Index.payloadPath, Index.stored, hn]
      · simp [hformat, Except.map, Index.stored]

/-- The only resource of a type is still the only one, and its slot is the same. -/
theorem Index.ofType_stored_single (template : Document) {key : String} {new : Document}
    (hd : index.resources.names.Nodup) (hr : index.resources.get? name = some resource)
    (hold : (resource.field? "Properties").bind (fun properties => properties.field? key) =
      some old)
    (hf : (Index.formatOf? old).isSome) (hf' : (Index.formatOf? new).isSome)
    {type other : String} {found : Document} (hl : index.ofType type = [(other, found)]) :
    ∃ kept, (index.stored template name key resource new).ofType type = [(other, kept)] ∧
      (index.stored template name key resource new).slotIn? other kept =
        (index.slotIn? other found).map (slotAfter ["Resources", name, "Properties", key] new) := by
  have htypes := Index.ofType_stored template key new hd hr type
  rw [hl, Fields.replace] at htypes
  by_cases hn : other = name
  · subst hn
    have hmem : (other, found) ∈ index.ofType type := hl ▸ List.mem_cons_self
    have hfound := Fields.get?_of_mem hd (Index.mem_ofType_iff.mp hmem).1
    obtain rfl := Option.some.inj (hfound.symm.trans hr)
    rw [if_pos rfl] at htypes
    exact ⟨_, htypes, Index.slotIn?_stored template hold hf hf'⟩
  · rw [if_neg hn] at htypes
    exact ⟨found, htypes, Index.slotIn?_stored_of_ne template key new hn found⟩

/-- Whoever asks after a payload was stored finds the same slot, and there the same payload unless
it is the slot that was written to. -/
theorem Index.slot?_stored (template : Document) {key : String} {new : Document}
    (hd : index.resources.names.Nodup)
    (hr : index.resources.get? name = some resource)
    (hold : (resource.field? "Properties").bind (fun properties => properties.field? key) =
      some old)
    (hf : (Index.formatOf? old).isSome) (hf' : (Index.formatOf? new).isSome) :
    (index.stored template name key resource new).slot? =
      index.slot?.map fun slot =>
        slot.map (slotAfter ["Resources", name, "Properties", key] new) := by
  match hl : index.ofType index.settings.planType with
  | [] =>
      have htypes := Index.ofType_stored template key new hd hr index.settings.planType
      rw [hl] at htypes
      rw [Index.slot?_of_nil htypes, Index.slot?_of_nil hl]
      rfl
  | [(other, found)] =>
      obtain ⟨kept, hkept, hslot⟩ :=
        Index.ofType_stored_single template hd hr hold hf hf' hl
      rw [Index.slot?_of_single hkept, Index.slot?_of_single hl, hslot]
      cases index.slotIn? other found with
      | error fault => rfl
      | ok slot => rfl
  | first :: second :: rest =>
      have hnames := Index.names_ofType_stored template key new hd hr index.settings.planType
      rw [hl] at hnames
      obtain ⟨first', more, hfirst, -, hmore⟩ := List.map_eq_cons_iff.mp hnames
      obtain ⟨second', rest', rfl, -, -⟩ := List.map_eq_cons_iff.mp hmore
      rw [Index.slot?_of_many hfirst, Index.slot?_of_many hl]
      show Except.error _ = Except.error _
      rw [hl]
      exact congrArg (fun names => Except.error (Fault.ambiguousPlan names)) hnames

end Stored

/-! ## Templates -/

theorem Index.build_settings {first : Settings} {template : Document} {index : Index}
    (hb : Index.build first template = .ok index) (second : Settings) :
    Index.build second template = .ok { index with settings := second } := by
  unfold Index.build at hb ⊢
  split at hb
  · split at hb
    · exact Except.ok.inj hb ▸ rfl
    · exact Except.ok.inj hb ▸ rfl
    · cases hb
  · cases hb

theorem Index.resources_eq {first second : Settings} {template : Document}
    {index other : Index} (hb : Index.build first template = .ok index)
    (hb' : Index.build second template = .ok other) : other.resources = index.resources := by
  obtain rfl := Except.ok.inj ((Index.build_settings hb second).symm.trans hb')
  rfl

theorem Index.nodup_resources {settings : Settings} {template : Document} {index : Index}
    (hd : template.Distinct) (hb : Index.build settings template = .ok index) :
    index.resources.names.Nodup := by
  obtain ⟨-, -, hnone | hsome⟩ := Index.build_eq_ok hb
  · rw [hnone]
    exact List.nodup_nil
  · exact (Document.distinct_object_iff.mp (hd.field? hsome)).1

/-- The payload is what stands in its slot. -/
theorem Index.at?_slot {settings : Settings} {template payload : Document} {index : Index}
    {path : List String} (hd : template.Distinct)
    (hb : Index.build settings template = .ok index)
    (hs : index.slot? = .ok (some (path, payload))) :
    template.at? (path.map .field) = some payload := by
  obtain ⟨plan, hp, rfl, rfl⟩ := Index.slot?_eq_some_iff.mp hs
  exact Index.at?_payloadPath hd hb hp

theorem Index.isSome_formatOf?_slot {index : Index} {path : List String} {payload : Document}
    (hs : index.slot? = .ok (some (path, payload))) : (Index.formatOf? payload).isSome := by
  obtain ⟨plan, hp, -, rfl⟩ := Index.slot?_eq_some_iff.mp hs
  obtain ⟨-, -, hformat⟩ := Index.plan?_eq_some_iff.mp hp
  rw [hformat]
  rfl

/-- A plan with an object in its slot is a graph already. -/
theorem Index.format_of_object {index : Index} {path : List String} {fields : Fields Document}
    {plan : DeploymentPlan} (hs : index.slot? = .ok (some (path, .object fields)))
    (hp : index.plan? = .ok (some plan)) : plan.format = .stateLanguage := by
  obtain ⟨found, hfound, -, hpayload⟩ := Index.slot?_eq_some_iff.mp hs
  obtain rfl := Option.some.inj (Except.ok.inj (hfound.symm.trans hp))
  obtain ⟨-, -, hformat⟩ := Index.plan?_eq_some_iff.mp hp
  rw [hpayload] at hformat
  exact (Option.some.inj hformat).symm

/-- No slot lies in another. -/
theorem Index.eq_of_slot_prefix {index other : Index} {path path' : List String}
    {payload payload' : Document} (hs : index.slot? = .ok (some (path, payload)))
    (hs' : other.slot? = .ok (some (path', payload'))) (h : path <+: path') : path = path' := by
  obtain ⟨plan, -, rfl, -⟩ := Index.slot?_eq_some_iff.mp hs
  obtain ⟨plan', -, rfl, -⟩ := Index.slot?_eq_some_iff.mp hs'
  exact h.eq_of_length rfl

/-- With a payload stored in the slot that was found under some settings, the template has the
same resources of every type, and under any settings the same slot, with the same payload unless
it is the slot that was written to. -/
theorem Index.build_slot_replaceAt {first second : Settings} {template old new : Document}
    {index other : Index} {path : List String} (hd : template.Distinct)
    (hb : Index.build first template = .ok index)
    (hb' : Index.build second template = .ok other)
    (hs : index.slot? = .ok (some (path, old))) {format : PlanFormat}
    (hf : Index.formatOf? new = some format) :
    ∃ stored, Index.build second (template.replaceAt path new) = .ok stored ∧
      stored.settings = second ∧
      (∀ type, Fields.names (stored.ofType type) = Fields.names (other.ofType type)) ∧
      stored.slot? = other.slot?.map fun slot => slot.map (slotAfter path new) := by
  have hold := Index.isSome_formatOf?_slot hs
  obtain ⟨plan, hp, rfl, rfl⟩ := Index.slot?_eq_some_iff.mp hs
  obtain ⟨-, hpayload, -⟩ := Index.plan?_eq_some_iff.mp hp
  have hnodup := Index.nodup_resources hd hb'
  have hget : other.resources.get? plan.name = some plan.resource := by
    rw [Index.resources_eq hb hb']
    exact Index.get?_plan hd hb hp
  obtain ⟨-, rfl, -⟩ := Index.build_eq_ok hb'
  refine ⟨_, Index.build_replaceAt hb' hget ["Properties", index.settings.payloadKey] new, rfl,
    ?_, ?_⟩
  · exact Index.names_ofType_stored _ index.settings.payloadKey new hnodup hget
  · exact Index.slot?_stored _ hnodup hget hpayload hold (Option.isSome_of_eq_some hf)

/-! ## Expanding a slot -/

/-- There is nothing to compile: no plan, or one that is a graph already. -/
inductive Settled : Option (List String × Document) → Prop
  | unplanned : Settled none
  | compiled {path : List String} {fields : Fields Document} :
      Settled (some (path, .object fields))

/-- What an expansion makes of a template, given its slot: it writes to the slot only if a list of
steps stands there. -/
inductive Rewrites (c : Compiler) (template : Document) :
    Option (List String × Document) → Document → Prop
  | settled {slot : Option (List String × Document)} :
      Settled slot → Rewrites c template slot template
  | simple {path : List String} {steps : List Document} {definition : Document} :
      c.definition (.list steps) = .ok definition →
      Rewrites c template (some (path, .list steps)) (template.replaceAt path definition)

/-- A slot holds steps, or there is nothing to compile. -/
theorem Index.settled_or_list {index : Index} {slot : Option (List String × Document)}
    (hs : index.slot? = .ok slot) :
    Settled slot ∨ ∃ path steps, slot = some (path, .list steps) := by
  cases slot with
  | none => exact .inl .unplanned
  | some found =>
      obtain ⟨path, payload⟩ := found
      have hformat := Index.isSome_formatOf?_slot hs
      cases payload with
      | list steps => exact .inr ⟨path, steps, rfl⟩
      | object fields => exact .inl .compiled
      | _ => cases hformat

/-- What is stored settles a slot, if it is a graph, and unsettles none. -/
theorem Settled.after {slot : Option (List String × Document)} (h : Settled slot)
    (path : List String) (fields : Fields Document) :
    Settled (slot.map (slotAfter path (.object fields))) := by
  cases h with
  | unplanned => exact .unplanned
  | @compiled other _ =>
      show Settled (some (slotAfter path (.object fields) (other, _)))
      rw [slotAfter]
      split
      · exact .compiled
      · exact .compiled

theorem Index.expand_of_list {index : Index} {c : Compiler} {path : List String}
    {steps : List Document} (hs : index.slot? = .ok (some (path, .list steps))) :
    index.expand c =
      ((c.definition (.list steps)).mapError .plan).map (index.template.replaceAt path) := by
  obtain ⟨plan, hp, rfl, hpayload⟩ := Index.slot?_eq_some_iff.mp hs
  obtain ⟨-, -, hformat⟩ := Index.plan?_eq_some_iff.mp hp
  rw [hpayload] at hformat
  rw [Index.expand_of_simple hp (Option.some.inj hformat).symm, hpayload]

theorem Index.expand_of_settled {index : Index} {c : Compiler}
    {slot : Option (List String × Document)} (hs : index.slot? = .ok slot) (h : Settled slot) :
    index.expand c = .ok index.template := by
  cases h with
  | unplanned => exact Index.expand_of_none (Index.slot?_eq_none_iff.mp hs)
  | compiled =>
      obtain ⟨plan, hp, -, -⟩ := Index.slot?_eq_some_iff.mp hs
      exact Index.expand_of_stateLanguage hp (Index.format_of_object hs hp)

/-- An expansion that succeeds has found a slot, and rewrites the template accordingly. -/
theorem Index.expand_eq_ok_iff {index : Index} {c : Compiler} {expanded : Document} :
    index.expand c = .ok expanded ↔
      ∃ slot, index.slot? = .ok slot ∧ Rewrites c index.template slot expanded := by
  constructor
  · intro h
    cases hs : index.slot? with
    | error fault =>
        cases hp : index.plan? with
        | error cause =>
            rw [Index.expand_of_error hp] at h
            cases h
        | ok found =>
            rw [Index.slot?, hp] at hs
            cases hs
    | ok slot =>
        refine ⟨slot, rfl, ?_⟩
        rcases Index.settled_or_list hs with hslot | ⟨path, steps, rfl⟩
        · rw [Index.expand_of_settled hs hslot] at h
          exact Except.ok.inj h ▸ .settled hslot
        · rw [Index.expand_of_list hs] at h
          obtain ⟨definition, hc, rfl⟩ := map_eq_ok.mp h
          exact .simple (mapError_eq_ok.mp hc)
  · rintro ⟨slot, hs, hr⟩
    cases hr with
    | settled hslot => exact Index.expand_of_settled hs hslot
    | simple hc =>
        rw [Index.expand_of_list hs, hc]
        rfl

theorem expand_eq_ok_iff {settings : Settings} {c : Compiler} {template expanded : Document} :
    expand settings c template = .ok expanded ↔
      ∃ index slot, Index.build settings template = .ok index ∧ index.slot? = .ok slot ∧
        Rewrites c template slot expanded := by
  rw [expand, bind_eq_ok]
  constructor
  · rintro ⟨index, hb, he⟩
    have hb := mapError_eq_ok.mp hb
    obtain ⟨rfl, -, -⟩ := Index.build_eq_ok hb
    obtain ⟨slot, hs, hr⟩ := Index.expand_eq_ok_iff.mp he
    exact ⟨index, slot, hb, hs, hr⟩
  · rintro ⟨index, slot, hb, hs, hr⟩
    obtain ⟨rfl, -, -⟩ := Index.build_eq_ok hb
    exact ⟨index, mapError_eq_ok.mpr hb, Index.expand_eq_ok_iff.mpr ⟨slot, hs, hr⟩⟩

theorem expand_of_settled {settings : Settings} {template : Document} {index : Index}
    {slot : Option (List String × Document)} (hb : Index.build settings template = .ok index)
    (hs : index.slot? = .ok slot) (h : Settled slot) (c : Compiler) :
    expand settings c template = .ok template :=
  expand_eq_ok_iff.mpr ⟨index, slot, hb, hs, .settled h⟩

theorem expand_of_list {settings : Settings} {c : Compiler} {template definition : Document}
    {index : Index} {path : List String} {steps : List Document}
    (hb : Index.build settings template = .ok index)
    (hs : index.slot? = .ok (some (path, .list steps)))
    (hc : c.definition (.list steps) = .ok definition) :
    expand settings c template = .ok (template.replaceAt path definition) :=
  expand_eq_ok_iff.mpr ⟨index, _, hb, hs, .simple hc⟩

end StepGraph.Template
