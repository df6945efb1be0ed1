/-
Expanding a template more than once.

After an expansion there is nothing left to do under the same settings: what
stands in the slot of the plan is a graph, and a graph is not compiled again,
by whatever compiler.  Other settings may find another plan in the template.
But no expansion moves a slot, and none is written to twice, so it does not
matter under which of two settings a template is expanded first.
-/
import StepGraph.Proofs.PlanSlot

namespace StepGraph.Template

open StepGraph.Plan (Compiler)

/-- Expands a template with one compiler after the other. -/
def expandAll (settings : Settings) (cs : List Compiler) (template : Document) :
    Except ExpansionFault Document :=
  cs.foldlM (fun document c => expand settings c document) template

/-- What is found in a template that was expanded, against what was found before: the same
runners, and the plan in the same resource, but as a graph that can be searched. -/
structure ReadsAlike (before after : Index) : Prop where
  runners : after.runners = before.runners
  planned : ∃ found kept, before.plan? = .ok found ∧ after.plan? = .ok kept ∧
    kept.map DeploymentPlan.name = found.map DeploymentPlan.name
  compiled : ∀ plan, after.plan? = .ok (some plan) → plan.format = .stateLanguage
  searchable : ∀ plan, before.plan? = .ok (some plan) → plan.format = .simple →
    ∀ wanted, ∃ groups, after.steps wanted = .ok groups

/-! ## What an expansion leaves behind -/

theorem exists_states_of_definition {c : Compiler} {plan definition : Document}
    (h : c.definition plan = .ok definition) :
    ∃ fields states, definition = .object fields ∧
      Fields.get? fields "States" = some (.object states) := by
  obtain ⟨_, states, _, -, -, -, rfl⟩ := Plan.compiles_of_definition h
  exact ⟨_, Plan.link states, rfl, rfl⟩

/-- Where steps were compiled, their graph stands in the slot. -/
theorem Index.slot?_compiled {settings : Settings} {c : Compiler} {template definition : Document}
    {index : Index} {path : List String} {steps : List Document} (hd : template.Distinct)
    (hb : Index.build settings template = .ok index)
    (hs : index.slot? = .ok (some (path, .list steps)))
    (hc : c.definition (.list steps) = .ok definition) :
    ∃ after fields states,
      Index.build settings (template.replaceAt path definition) = .ok after ∧
      after.slot? = .ok (some (path, .object fields)) ∧
      Fields.get? fields "States" = some (.object states) ∧
      after.runners = index.runners := by
  obtain ⟨fields, states, rfl, hstates⟩ := exists_states_of_definition hc
  obtain ⟨after, hafter, hsettings, hnames, hslot⟩ :=
    Index.build_slot_replaceAt hd hb hb hs (formatOf?_definition hc)
  refine ⟨after, fields, states, hafter, ?_, hstates, ?_⟩
  · rw [hslot, hs]
    exact congrArg (fun slot => Except.ok (some slot)) (slotAfter_self path _ _)
  · obtain ⟨-, rfl, -⟩ := Index.build_eq_ok hb
    rw [Index.runners, Index.runners, hnames, hsettings]

/-! ## Under the same settings -/

/-- Expanding again changes nothing. -/
theorem expand_expanded {settings : Settings} {c : Compiler} {template expanded : Document}
    (hd : template.Distinct) (h : expand settings c template = .ok expanded) (again : Compiler) :
    expand settings again expanded = .ok expanded := by
  obtain ⟨index, slot, hb, hs, hr⟩ := expand_eq_ok_iff.mp h
  cases hr with
  | settled hslot => exact expand_of_settled hb hs hslot again
  | simple hc =>
      obtain ⟨after, fields, _, hafter, hslot, -, -⟩ := Index.slot?_compiled hd hb hs hc
      exact expand_of_settled hafter hslot .compiled again

/-- A template that no compiler changes is not changed by any run. -/
theorem expandAll_of_expand {settings : Settings} {template : Document}
    (h : ∀ c, expand settings c template = .ok template) (cs : List Compiler) :
    expandAll settings cs template = .ok template := by
  induction cs with
  | nil => rfl
  | cons c rest ih =>
      show (expand settings c template >>= expandAll settings rest) = .ok template
      rw [h c]
      exact ih

/-- Where there is nothing to compile, everything is found as before. -/
theorem ReadsAlike.of_settled {index : Index} {slot : Option (List String × Document)}
    (hs : index.slot? = .ok slot) (h : Settled slot) : ReadsAlike index index := by
  obtain ⟨found, hfound, -⟩ := map_eq_ok.mp hs
  have hcompiled : ∀ plan, index.plan? = .ok (some plan) → plan.format = .stateLanguage := by
    intro plan hp
    cases h with
    | unplanned =>
        rw [Index.slot?_eq_none_iff.mp hs] at hp
        cases hp
    | compiled => exact Index.format_of_object hs hp
  refine ⟨rfl, ⟨found, found, hfound, hfound, rfl⟩, hcompiled, ?_⟩
  intro plan hp hsimple
  rw [hcompiled plan hp] at hsimple
  cases hsimple

/-- If a graph stands where there were steps, the plan is found there and can be searched. -/
theorem ReadsAlike.of_slots {before after : Index} {path : List String} {payload : Document}
    {fields states : Fields Document} (hbefore : before.slot? = .ok (some (path, payload)))
    (hafter : after.slot? = .ok (some (path, .object fields)))
    (hstates : Fields.get? fields "States" = some (.object states))
    (hr : after.runners = before.runners) : ReadsAlike before after := by
  have hcompiled : ∀ plan, after.plan? = .ok (some plan) → plan.format = .stateLanguage := by
    intro plan hp
    exact Index.format_of_object hafter hp
  obtain ⟨plan, hp, hpath, -⟩ := Index.slot?_eq_some_iff.mp hbefore
  obtain ⟨plan', hp', hpath', hpayload⟩ := Index.slot?_eq_some_iff.mp hafter
  have hname : plan'.name = plan.name := by
    have hpaths := hpath'.trans hpath.symm
    simp only [Index.payloadPath, List.cons.injEq] at hpaths
    exact hpaths.2.1
  refine ⟨hr, ⟨some plan, some plan', hp, hp', congrArg some hname⟩, hcompiled, ?_⟩
  intro _ _ _ wanted
  have hsearched : (plan'.payload.field? "States").bind Document.fields? = some states := by
    rw [hpayload, Document.field?, hstates]
    rfl
  exact ⟨_, Index.steps_eq hp' (hcompiled plan' hp') hsearched wanted⟩

theorem expanded_readsAlike {settings : Settings} {c : Compiler} {template expanded : Document}
    (hd : template.Distinct) (h : expand settings c template = .ok expanded) :
    ∃ before after, Index.build settings template = .ok before ∧
      Index.build settings expanded = .ok after ∧ ReadsAlike before after := by
  obtain ⟨index, slot, hb, hs, hr⟩ := expand_eq_ok_iff.mp h
  cases hr with
  | settled hslot => exact ⟨index, index, hb, hb, ReadsAlike.of_settled hs hslot⟩
  | simple hc =>
      obtain ⟨after, fields, states, hafter, hslot, hstates, hrunners⟩ :=
        Index.slot?_compiled hd hb hs hc
      exact ⟨index, after, hb, hafter, ReadsAlike.of_slots hs hslot hstates hrunners⟩

/-- Once a template is expanded, no run of compilers changes it again; and it is read as the
template was, with the plan in the same place as a graph.  No object of the template may have a
name twice; none does in what is read (`Source.parse_distinct`). -/
theorem expansion_settles {settings : Settings} {c : Compiler} {template expanded : Document}
    (hd : template.Distinct) (h : expand settings c template = .ok expanded) :
    (∀ cs, expandAll settings cs expanded = .ok expanded) ∧
      ∃ before after, Index.build settings template = .ok before ∧
        Index.build settings expanded = .ok after ∧ ReadsAlike before after := by
  constructor
  · intro cs
    exact expandAll_of_expand (expand_expanded hd h) cs
  · exact expanded_readsAlike hd h

theorem forkedTemplate_settles :
    ∃ expanded, expand {} {} forkedTemplate = .ok expanded ∧
      (∀ cs, expandAll {} cs expanded = .ok expanded) ∧
      ∃ before after, Index.build {} forkedTemplate = .ok before ∧
        Index.build {} expanded = .ok after ∧ ReadsAlike before after := by
  have hd : forkedTemplate.Distinct := by
    simp [forkedTemplate, forkedResource, Plan.forkedPlan, Fields.names]
  have hp : (⟨forkedTemplate, [("Rollout", forkedResource)], {}⟩ : Index).plan? =
      .ok (some ⟨"Rollout", forkedResource, .list Plan.forkedPlan, .simple⟩) := rfl
  have hexpand : expand {} {} forkedTemplate = .ok (forkedTemplate.replaceAt _ Plan.forkedGraph) :=
    expand_simple rfl hp rfl rfl
  exact ⟨_, hexpand, expansion_settles hd hexpand⟩

/-! ## Under two settings -/

section TwoSettings

variable {first second : Settings} {c : Compiler} {template expanded : Document}
  {index other : Index} {slot : Option (List String × Document)}

/-- Settings under which there is nothing to compile leave a template alone also after it was
expanded under others, for that puts graphs in the place of steps. -/
theorem expand_expanded_of_settled (hd : template.Distinct)
    (hb : Index.build first template = .ok index) (hs : index.slot? = .ok slot)
    (hslot : Settled slot) (h : expand second c template = .ok expanded) :
    expand first c expanded = .ok expanded := by
  obtain ⟨other, found, hb', hs', hr⟩ := expand_eq_ok_iff.mp h
  cases hr with
  | settled _ => exact expand_of_settled hb hs hslot c
  | simple hc =>
      obtain ⟨fields, _, rfl, -⟩ := exists_states_of_definition hc
      obtain ⟨after, hafter, -, -, hfound⟩ :=
        Index.build_slot_replaceAt hd hb' hb hs' (formatOf?_definition hc)
      rw [hs] at hfound
      exact expand_of_settled hafter hfound (hslot.after _ fields) c

/-- Steps in another slot than the one that was written to are compiled as before. -/
theorem expand_of_other_slot {path path' : List String} {steps : List Document}
    {definition payload new : Document} {format : PlanFormat} (hd : template.Distinct)
    (hb : Index.build first template = .ok index)
    (hs : index.slot? = .ok (some (path, .list steps)))
    (hc : c.definition (.list steps) = .ok definition)
    (hb' : Index.build second template = .ok other)
    (hs' : other.slot? = .ok (some (path', payload)))
    (hf : Index.formatOf? new = some format) (hne : path ≠ path') :
    expand first c (template.replaceAt path' new) =
      .ok ((template.replaceAt path' new).replaceAt path definition) := by
  obtain ⟨after, hafter, -, -, hslot⟩ := Index.build_slot_replaceAt hd hb' hb hs' hf
  rw [hs] at hslot
  have hsame : after.slot? = .ok (some (path, .list steps)) := by
    rw [hslot]
    exact congrArg (fun slot => Except.ok (some slot)) (slotAfter_of_ne hne _ _)
  exact expand_of_list hafter hsame hc

/-- Steps in two slots can be compiled in either order. -/
theorem expand_slots {path path' : List String} {steps steps' : List Document}
    {definition definition' : Document} (hd : template.Distinct)
    (hb : Index.build first template = .ok index)
    (hs : index.slot? = .ok (some (path, .list steps)))
    (hc : c.definition (.list steps) = .ok definition)
    (hb' : Index.build second template = .ok other)
    (hs' : other.slot? = .ok (some (path', .list steps')))
    (hc' : c.definition (.list steps') = .ok definition') (hne : path ≠ path') :
    expand first c (template.replaceAt path' definition') =
      .ok ((template.replaceAt path definition).replaceAt path' definition') := by
  have hapart : ¬ path <+: path' := fun hp => hne (Index.eq_of_slot_prefix hs hs' hp)
  have hapart' : ¬ path' <+: path := fun hp => hne (Index.eq_of_slot_prefix hs' hs hp).symm
  rw [Document.replaceAt_comm template _ _ hapart hapart']
  exact expand_of_other_slot hd hb hs hc hb' hs' (formatOf?_definition hc') hne

/-- What is done under two settings, one after the other, is done in the other order, too. -/
theorem expand_exchange {last : Document} (hd : template.Distinct)
    (h : expand first c template = .ok expanded) (h' : expand second c expanded = .ok last) :
    ∃ middle, expand second c template = .ok middle ∧ expand first c middle = .ok last := by
  obtain ⟨index, slot, hb, hs, hr⟩ := expand_eq_ok_iff.mp h
  cases hr with
  | settled hslot => exact ⟨last, h', expand_expanded_of_settled hd hb hs hslot h'⟩
  | @simple path steps definition hc =>
      have hb' := Index.build_settings hb second
      -- The second settings see the slots of the template, but for the one that was written to.
      obtain ⟨after, hafter, -, -, hslot⟩ :=
        Index.build_slot_replaceAt hd hb hb' hs (formatOf?_definition hc)
      obtain ⟨_, slot', hb'', hs', hr'⟩ := expand_eq_ok_iff.mp h'
      obtain rfl := Except.ok.inj (hafter.symm.trans hb'')
      obtain ⟨found, hfound, rfl⟩ := map_eq_ok.mp (hslot.symm.trans hs')
      rcases Index.settled_or_list hfound with hsettled | ⟨path', steps', rfl⟩
      · have hfixed := expand_expanded_of_settled hd hb' hfound hsettled h
        obtain rfl := Except.ok.inj (hfixed.symm.trans h')
        exact ⟨template, expand_of_settled hb' hfound hsettled c, h⟩
      · by_cases hpath : path' = path
        · subst hpath
          have hsame := (Index.at?_slot hd hb' hfound).symm.trans (Index.at?_slot hd hb hs)
          rw [Option.some.inj hsame] at hfound
          have hmiddle := expand_of_list hb' hfound hc
          obtain rfl := Except.ok.inj ((expand_expanded hd hmiddle c).symm.trans h')
          exact ⟨_, hmiddle, expand_expanded hd h c⟩
        · change Rewrites c _ (some (slotAfter path definition (path', .list steps'))) last at hr'
          rw [slotAfter_of_ne hpath] at hr'
          cases hr' with
          | settled hsettled => cases hsettled
          | simple hc' =>
              exact ⟨_, expand_of_list hb' hfound hc',
                expand_slots hd hb hs hc hb' hfound hc' (Ne.symm hpath)⟩

end TwoSettings

/-- Under two settings a template can be expanded in either order: both fail, or both come to the
same document.  No object of the template may have a name twice; none does in what is read
(`Source.parse_distinct`). -/
theorem expand_comm {template : Document} (hd : template.Distinct) (first second : Settings)
    (c : Compiler) :
    (∃ fault fault', (expand first c template >>= expand second c) = .error fault ∧
      (expand second c template >>= expand first c) = .error fault') ∨
    ∃ expanded, (expand first c template >>= expand second c) = .ok expanded ∧
      (expand second c template >>= expand first c) = .ok expanded := by
  have hexchange : ∀ {one two : Settings} {last : Document},
      (expand one c template >>= expand two c) = .ok last →
      (expand two c template >>= expand one c) = .ok last := by
    intro one two last h
    obtain ⟨middle, hone, htwo⟩ := bind_eq_ok.mp h
    exact bind_eq_ok.mpr (expand_exchange hd hone htwo)
  cases h : expand first c template >>= expand second c with
  | ok last => exact .inr ⟨last, rfl, hexchange h⟩
  | error fault =>
      cases h' : expand second c template >>= expand first c with
      | ok last =>
          rw [hexchange h'] at h
          cases h
      | error fault' => exact .inl ⟨fault, fault', rfl, rfl⟩

/-- A template whose only resource holds one plan under each of two keys. -/
def twofoldTemplate : Document :=
  .object [("Resources", .object
    [("Rollout", .object
      [("Type", .string "Attini::Deploy::DeploymentPlan"),
       ("Properties", .object
         [("DeploymentPlan", .list [.object [("Name", .string "Deploy")]]),
          ("Rollback", .list [.object [("Name", .string "Restore")]])])])])]

/-- Settings under which the plan stands under the second key. -/
def rollbackSettings : Settings := { payloadKey := "Rollback" }

theorem twofoldTemplate_expand_comm :
    ∃ expanded, (expand {} {} twofoldTemplate >>= expand rollbackSettings {}) = .ok expanded ∧
      (expand rollbackSettings {} twofoldTemplate >>= expand {} {}) = .ok expanded := by
  have hd : twofoldTemplate.Distinct := by
    simp [twofoldTemplate, Fields.names]
  have hok : ∃ expanded,
      (expand {} {} twofoldTemplate >>= expand rollbackSettings {}) = .ok expanded := ⟨_, rfl⟩
  rcases expand_comm hd {} rollbackSettings {} with ⟨fault, _, hfault, -⟩ | hboth
  · obtain ⟨expanded, hexpanded⟩ := hok
    rw [hexpanded] at hfault
    cases hfault
  · exact hboth

end StepGraph.Template
