/-
Two commands on one template.

`compile` prints the graph of a template's plan, `expand` the template with
that graph in it.  They get there on different ways: the one asks for the plan
and compiles it, the other rewrites the template.  `Examined` names what the
two come to on the same document, side by side; exit codes, what is printed, what
is warned of and what is said about a plan that does not compile are read off it.
-/
import StepGraph.CommandLine.Outcome
import StepGraph.Proofs.ExpansionFrame

namespace StepGraph

/-! ## Documents in files -/

theorem Source.load_distinct {path : String} {contents : Option ByteArray} {document : Document}
    (h : Source.load path contents = .ok document) : document.Distinct := by
  rw [Source.load] at h
  split at h
  · exact Source.parse_distinct h
  · cases h

theorem Source.load_text (path text : String) :
    Source.load path (some text.toUTF8) = Source.parse (.ofPath path) text := by
  have htext : String.fromUTF8? text.toUTF8 = some text := by
    unfold String.fromUTF8?
    exact dif_pos text.isValidUTF8
  rw [Source.load, Option.bind_some, htext]

end StepGraph

namespace StepGraph.CommandLine

open StepGraph.Plan (Compiler Recorded renamings)
open StepGraph.Template (DeploymentPlan Index)

/-! ## What the commands come to -/

/-- The plan that is found in a document. -/
def FoundPlan (document : Document) (plan : DeploymentPlan) : Prop :=
  ∃ index, Index.build {} document = .ok index ∧ index.plan? = .ok (some plan)

/-- Where the payload of a plan stands in its template. -/
def payloadKeys (plan : DeploymentPlan) : List Key :=
  [.field "Resources", .field plan.name, .field "Properties", .field "DeploymentPlan"]

/-- What is found out about a document that is no list, to be compiled and to be expanded.  Names
are used only where a plan is compiled, and the same on both ways. -/
inductive Examined (c : Compiler) (document : Document) :
    Recorded Fault (Document × Option String) → Recorded Fault Document → Prop
  /-- The document is no template, or has no clear plan. -/
  | refused (fault other : Fault) : (∀ plan, ¬ FoundPlan document plan) →
      Examined c document (.silent (.error fault)) (.silent (.error other))
  /-- There is no plan: a template can do without, the compiler cannot. -/
  | unplanned (fault : Fault) : (∀ plan, ¬ FoundPlan document plan) →
      Examined c document (.silent (.error fault)) (.silent (.ok document))
  | uncompilable {plan : DeploymentPlan} {cause : Plan.Fault} : FoundPlan document plan →
      plan.format = .simple → c.definition plan.payload = .error cause →
      Examined c document ⟨(c.recordDefinition plan.payload).uses, .error (.compilation cause)⟩
        ⟨(c.recordDefinition plan.payload).uses, .error (.expansion (.plan cause))⟩
  | compiled {plan : DeploymentPlan} {graph expanded : Document} : FoundPlan document plan →
      plan.format = .simple → c.definition plan.payload = .ok graph →
      Document.ReplacedAt (payloadKeys plan) plan.payload graph document expanded →
      (∃ resource, FoundPlan expanded ⟨plan.name, resource, graph, .stateLanguage⟩) →
      Examined c document ⟨(c.recordDefinition plan.payload).uses, .ok (graph, none)⟩
        ⟨(c.recordDefinition plan.payload).uses, .ok expanded⟩
  | already {plan : DeploymentPlan} : FoundPlan document plan → plan.format = .stateLanguage →
      Examined c document (.silent (.ok (plan.payload, some plan.name))) (.silent (.ok document))

theorem FoundPlan.unique {document : Document} {plan other : DeploymentPlan}
    (h : FoundPlan document plan) (h' : FoundPlan document other) : plan = other := by
  obtain ⟨index, hb, hp⟩ := h
  obtain ⟨index', hb', hp'⟩ := h'
  obtain rfl := Except.ok.inj (hb.symm.trans hb')
  exact Option.some.inj (Except.ok.inj (hp.symm.trans hp'))

/-- Only an object is a template. -/
theorem FoundPlan.items?_eq_none {document : Document} {plan : DeploymentPlan}
    (h : FoundPlan document plan) : document.items? = none := by
  obtain ⟨index, hb, -⟩ := h
  cases document with
  | list items => cases hb
  | _ => rfl

/-- The payload of a plan stands in its template where an expansion writes to. -/
theorem FoundPlan.at?_payloadKeys {document : Document} {plan : DeploymentPlan}
    (hd : document.Distinct) (h : FoundPlan document plan) :
    document.at? (payloadKeys plan) = some plan.payload := by
  obtain ⟨index, hb, hp⟩ := h
  obtain ⟨-, hsettings, -⟩ := Index.build_eq_ok hb
  have hat := Index.at?_payloadPath hd hb hp
  rw [Index.payloadPath, hsettings] at hat
  exact hat

section Cases

variable {c : Compiler} {document : Document} {index : Index}

theorem definitionOf_of_build (hl : document.items? = none)
    (hb : Index.build {} document = .ok index) :
    definitionOf c document = (do
      let plan ← .silent (index.plan.mapError .template)
      match plan.format with
      | .simple => return (← compilePlan c plan.payload, none)
      | .stateLanguage => return (plan.payload, some plan.name)) := by
  rw [definitionOf, hl, indexOf, hb]
  exact Recorded.silent_ok_bind _ _

theorem expansionOf_of_build (hb : Index.build {} document = .ok index) :
    expansionOf c document = (index.recordExpand c).mapError .expansion := by
  rw [expansionOf, indexOf, hb]
  exact Recorded.silent_ok_bind _ _

theorem definitionOf_of_error {fault : Template.Fault} (hl : document.items? = none)
    (hb : Index.build {} document = .ok index) (hp : index.plan? = .error fault) :
    definitionOf c document = .silent (.error (.template fault)) := by
  rw [definitionOf_of_build hl hb, Index.plan, hp]
  exact Recorded.silent_error_bind _ _

theorem definitionOf_of_none (hl : document.items? = none)
    (hb : Index.build {} document = .ok index) (hp : index.plan? = .ok none) :
    definitionOf c document = .silent (.error (.template .noPlan)) := by
  rw [definitionOf_of_build hl hb, Index.plan, hp]
  exact Recorded.silent_error_bind _ _

theorem definitionOf_of_stateLanguage {plan : DeploymentPlan} (h : FoundPlan document plan)
    (hf : plan.format = .stateLanguage) :
    definitionOf c document = .silent (.ok (plan.payload, some plan.name)) := by
  have hl := h.items?_eq_none
  obtain ⟨index, hb, hp⟩ := h
  rw [definitionOf_of_build hl hb, Index.plan, hp]
  refine (Recorded.silent_ok_bind _ _).trans ?_
  simp only [hf]
  rfl

theorem definitionOf_of_simple {plan : DeploymentPlan} (h : FoundPlan document plan)
    (hf : plan.format = .simple) :
    definitionOf c document =
      ((c.recordDefinition plan.payload).mapError .compilation).map (·, none) := by
  have hl := h.items?_eq_none
  obtain ⟨index, hb, hp⟩ := h
  rw [definitionOf_of_build hl hb, Index.plan, hp]
  refine (Recorded.silent_ok_bind _ _).trans ?_
  simp only [hf]
  exact Recorded.bind_pure _ _

end Cases

/-- Where an index finds no plan, the document has none. -/
theorem not_foundPlan {document : Document} {index : Index}
    (hb : Index.build {} document = .ok index)
    (hp : ∀ plan, index.plan? ≠ .ok (some plan)) (plan : DeploymentPlan) :
    ¬ FoundPlan document plan := by
  rintro ⟨other, hb', hp'⟩
  obtain rfl := Except.ok.inj (hb.symm.trans hb')
  exact hp plan hp'

/-- The graph of a plan is found as the plan of the expanded template. -/
theorem FoundPlan.replaceAt {document graph : Document} {plan : DeploymentPlan} {c : Compiler}
    {index : Index} (hd : document.Distinct) (hb : Index.build {} document = .ok index)
    (hp : index.plan? = .ok (some plan)) (hc : c.definition plan.payload = .ok graph) :
    ∃ resource, FoundPlan (document.replaceAt (index.payloadPath plan.name) graph)
      ⟨plan.name, resource, graph, .stateLanguage⟩ := by
  obtain ⟨index', resource, hb', hp'⟩ :=
    Index.plan?_replaceAt hd hb hp (Template.formatOf?_definition hc)
  exact ⟨resource, index', hb', hp'⟩

/-- Whatever the plan of a document is, the two commands come to the same about it. -/
theorem examined (c : Compiler) {document : Document} (hd : document.Distinct)
    (hl : document.items? = none) :
    Examined c document (definitionOf c document) (expansionOf c document) := by
  cases hb : Index.build {} document with
  | error fault =>
      have hnone : ∀ plan, ¬ FoundPlan document plan := by
        rintro plan ⟨index, hb', -⟩
        cases hb.symm.trans hb'
      rw [definitionOf, expansionOf, hl, indexOf, hb]
      exact .refused (.template fault) (.template fault) hnone
  | ok index =>
      rw [expansionOf_of_build hb]
      obtain ⟨htemplate, hsettings, -⟩ := Index.build_eq_ok hb
      cases hp : index.plan? with
      | error fault =>
          rw [definitionOf_of_error hl hb hp, Index.recordExpand_of_error hp]
          exact .refused _ _ (not_foundPlan hb fun plan h => nomatch hp.symm.trans h)
      | ok found =>
          cases found with
          | none =>
              rw [definitionOf_of_none hl hb hp, Index.recordExpand_of_none hp, htemplate]
              exact .unplanned _ (not_foundPlan hb fun plan h => nomatch hp.symm.trans h)
          | some plan =>
              have hfound : FoundPlan document plan := ⟨index, hb, hp⟩
              cases hf : plan.format with
              | stateLanguage =>
                  rw [definitionOf_of_stateLanguage hfound hf,
                    Index.recordExpand_of_stateLanguage hp hf, htemplate]
                  exact .already hfound hf
              | simple =>
                  rw [definitionOf_of_simple hfound hf, Index.recordExpand_of_simple hp hf]
                  simp only [Recorded.map, Recorded.mapError]
                  cases hc : (c.recordDefinition plan.payload).result with
                  | error cause => exact .uncompilable hfound hf hc
                  | ok graph =>
                      have hreplaced :=
                        Document.replacedAt_replaceAt graph (Index.at?_payloadPath hd hb hp)
                      have hagain := FoundPlan.replaceAt hd hb hp hc
                      rw [Index.payloadPath, hsettings] at hreplaced hagain
                      rw [htemplate, Index.payloadPath, hsettings]
                      exact .compiled hfound hf hc hreplaced hagain

/-! ## What the commands print -/

section Runs

variable {c : Compiler} {path : String} {contents : Option ByteArray} {document : Document}

theorem run_compile (h : Source.load path contents = .ok document) :
    (Command.compile path).run c contents =
      .of ((definitionOf c document).map fun found => .definition found.1 found.2) := by
  rw [Command.run, Command.path, h]
  refine congrArg Outcome.of ((Recorded.silent_ok_bind _ _).trans ?_)
  exact Recorded.bind_pure _ _

theorem run_expand {format : Source.Format} (h : Source.load path contents = .ok document) :
    (Command.expand path format).run c contents =
      .of ((expansionOf c document).map fun expanded => .template expanded format) := by
  rw [Command.run, Command.path, h]
  refine congrArg Outcome.of ((Recorded.silent_ok_bind _ _).trans ?_)
  exact Recorded.bind_pure _ _

end Runs

/-- What the program says on the error stream about a plan that is a graph already. -/
def alreadyCompiled (plan : DeploymentPlan) : String :=
  "Deployment plan '" ++ plan.name ++ "' is already compiled.\n"

/-- What is warned of where a plan is compiled; nothing if it is a graph already. -/
def planRenamings (c : Compiler) (plan : DeploymentPlan) : List Plan.Renaming :=
  if plan.format = .simple then renamings (c.recordDefinition plan.payload).uses else []

/-- How a run of `compile` and a run of `expand` on one document agree. -/
structure Agree (c : Compiler) (format : Source.Format) (document : Document)
    (compiled expanded : Outcome) : Prop where
  succeeds : compiled.exitCode = 0 ↔ expanded.exitCode = 0 ∧ ∃ plan, FoundPlan document plan
  /-- Both warn of the same inserted states, whether they succeed or not. -/
  warns : compiled.warnings = expanded.warnings
  /-- The graph that one prints is where the plan was in the template that the other prints; and
  whoever reads this template and compiles it gets the same graph, without a warning. -/
  prints : compiled.exitCode = 0 → ∃ plan template graph, FoundPlan document plan ∧
    compiled.output = render .json graph ++ "\n" ∧
    compiled.warnings = planRenamings c plan ∧
    compiled.errors = (if plan.format = .simple then "" else alreadyCompiled plan) ∧
    expanded.output = render format template ++ "\n" ∧
    template.at? (payloadKeys plan) = some graph ∧
    ∀ (other : Compiler) (path : String) (contents : Option ByteArray),
      Source.load path contents = .ok template →
      (Command.compile path).run other contents =
        { exitCode := 0, output := compiled.output, warnings := [],
          errors := alreadyCompiled plan }
  /-- Both blame a plan that does not compile in the same words. -/
  fails : ∀ plan cause, FoundPlan document plan → plan.format = .simple →
    c.definition plan.payload = .error cause →
    compiled =
      { exitCode := 1, warnings := planRenamings c plan,
        errors := "\nError: " ++ ("Compilation failed: " ++ cause.message) ++ "\n" } ∧
    expanded =
      { exitCode := 1, warnings := planRenamings c plan,
        errors := "\nError: " ++ ("Expansion failed: " ++ cause.message) ++ "\n" }

/-- A template with a graph for its plan is compiled by printing this graph. -/
theorem FoundPlan.run_compile {document : Document} {plan : DeploymentPlan}
    (h : FoundPlan document plan) (hf : plan.format = .stateLanguage) (c : Compiler) {path : String}
    {contents : Option ByteArray} (hload : Source.load path contents = .ok document) :
    (Command.compile path).run c contents =
      { exitCode := 0, output := render .json plan.payload ++ "\n", warnings := [],
        errors := alreadyCompiled plan } := by
  rw [CommandLine.run_compile hload, definitionOf_of_stateLanguage h hf]
  rfl

theorem Examined.agree {c : Compiler} {format : Source.Format} {document : Document}
    {definition : Recorded Fault (Document × Option String)}
    {expansion : Recorded Fault Document} (hd : document.Distinct)
    (h : Examined c document definition expansion) :
    Agree c format document
      (.of (definition.map fun found => .definition found.1 found.2))
      (.of (expansion.map fun expanded => .template expanded format)) := by
  cases h with
  | refused fault other hnone =>
      refine ⟨?_, rfl, ?_, ?_⟩
      · exact ⟨nofun, nofun⟩
      · exact nofun
      · intro plan cause hplan
        exact absurd hplan (hnone plan)
  | unplanned fault hnone =>
      refine ⟨?_, rfl, ?_, ?_⟩
      · refine ⟨nofun, ?_⟩
        rintro ⟨-, plan, hplan⟩
        exact absurd hplan (hnone plan)
      · exact nofun
      · intro plan cause hplan
        exact absurd hplan (hnone plan)
  | @uncompilable plan cause hplan hf hc =>
      refine ⟨?_, rfl, ?_, ?_⟩
      · exact ⟨nofun, nofun⟩
      · exact nofun
      · intro other cause' hother _ hc'
        obtain rfl := hplan.unique hother
        obtain rfl := Except.error.inj (hc.symm.trans hc')
        rw [planRenamings, if_pos hf]
        exact ⟨rfl, rfl⟩
  | @compiled plan graph expanded hplan hf hc hreplaced hagain =>
      obtain ⟨resource, hagain⟩ := hagain
      refine ⟨?_, rfl, ?_, ?_⟩
      · exact ⟨fun _ => ⟨rfl, plan, hplan⟩, fun _ => rfl⟩
      · intro _
        have hgraph : expanded.at? (payloadKeys plan) = some graph := by
          have hinside := hreplaced.inside []
          rwa [List.append_nil] at hinside
        refine ⟨plan, expanded, graph, hplan, rfl, ?_, ?_, rfl, hgraph, ?_⟩
        · rw [planRenamings, if_pos hf]
          rfl
        · rw [if_pos hf]
          rfl
        · intro other path contents hload
          exact hagain.run_compile rfl other hload
      · intro other cause hother _ hc'
        obtain rfl := hplan.unique hother
        cases hc.symm.trans hc'
  | @already plan hplan hf =>
      refine ⟨?_, rfl, ?_, ?_⟩
      · exact ⟨fun _ => ⟨rfl, plan, hplan⟩, fun _ => rfl⟩
      · intro _
        refine ⟨plan, document, plan.payload, hplan, rfl, ?_, ?_, rfl, hplan.at?_payloadKeys hd, ?_⟩
        · rw [planRenamings, hf]
          rfl
        · rw [hf]
          rfl
        · intro other path contents hload
          exact hplan.run_compile hf other hload
      · intro other cause hother hsimple _
        obtain rfl := hplan.unique hother
        cases hf.symm.trans hsimple

/-- The commands `compile` and `expand` agree on every file that is read as a document that is no
list, whatever the compiler. -/
theorem compile_expand_agree {path : String} {contents : Option ByteArray} {document : Document}
    (hload : Source.load path contents = .ok document) (hl : document.items? = none)
    (c : Compiler) (format : Source.Format) :
    Agree c format document ((Command.compile path).run c contents)
      ((Command.expand path format).run c contents) := by
  have hd := Source.load_distinct hload
  rw [run_compile hload, run_expand hload]
  exact (examined c hd hl).agree hd

-- The plan of this template leaves an inserted state another name, and both commands warn of it.
example :
    let run : Command → Outcome := fun command => .of (command.examine {} Template.forkedTemplate)
    (run (.compile "plan.json")).warnings = [⟨"FanMerge", "FanMerge2"⟩] ∧
      (run (.expand "plan.json" .yaml)).warnings = [⟨"FanMerge", "FanMerge2"⟩] := ⟨rfl, rfl⟩

/-- A template whose plan is one step, as text. -/
def rolloutText : String :=
  "\x7b\"Resources\":\x7b\"Rollout\":\x7b\"Type\":\"Attini::Deploy::DeploymentPlan\"," ++
  "\"Properties\":\x7b\"DeploymentPlan\":[\x7b\"Name\":\"Deploy\"\x7d]\x7d\x7d\x7d\x7d"

def rolloutTemplate : Document :=
  .object [("Resources", .object [("Rollout", .object
    [("Type", .string "Attini::Deploy::DeploymentPlan"),
     ("Properties", .object
       [("DeploymentPlan", .list [.object [("Name", .string "Deploy")]])])])])]

theorem rolloutText_parse : Json.parse? rolloutText = some rolloutTemplate := by
  unfold Json.parse? rolloutText rolloutTemplate
  simp only [String.toList_append]
  cbv

/-- So the commands agree on a file with this template. -/
theorem rollout_compile_expand :
    Source.load "plan.json" (some rolloutText.toUTF8) = .ok rolloutTemplate ∧
      rolloutTemplate.items? = none ∧
      Agree {} .yaml rolloutTemplate
        ((Command.compile "plan.json").run {} (some rolloutText.toUTF8))
        ((Command.expand "plan.json" .yaml).run {} (some rolloutText.toUTF8)) := by
  have hload : Source.load "plan.json" (some rolloutText.toUTF8) = .ok rolloutTemplate := by
    have hformat : Source.Format.ofPath "plan.json" = .json := by decide
    rw [Source.load_text, hformat, Source.parse, rolloutText_parse]
  exact ⟨hload, rfl, compile_expand_agree hload rfl {} .yaml⟩

end StepGraph.CommandLine
