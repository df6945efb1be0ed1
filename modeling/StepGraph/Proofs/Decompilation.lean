/-
Reading a compiled plan back.

Compiling rearranges a step: its name becomes that of its state, its shape is
written into `Type`, its lists become graphs, and `Next` or `End` is added.
`decompile` takes a graph apart again without the plan; it only has to be
told which names the author wrote.  What comes out are the steps in normal
form, with every field in its place.
-/
import StepGraph.Proofs.AuthoredNames
import StepGraph.Proofs.Placement

namespace StepGraph.Plan

/-! ## Normal form -/

/-- Fields with other values where the lists of a shape stand. -/
def refill (shape : Shape) (values : List Document) (fields : Fields Document) :
    Fields Document :=
  match shape, values with
  | .parallel, values => fields.replace "Branches" (.list values)
  | .choice, [yes] => fields.replace "IsTrue" yes
  | .choice, [yes, no] => (fields.replace "IsTrue" yes).replace "IsFalse" no
  | _, _ => fields

/-- Fields with a shape written out: in place where there is a `Type`, behind all others
otherwise. -/
def writeShape (shape : Shape) (fields : Fields Document) : Fields Document :=
  match shape with
  | .plain => fields
  | .parallel => fields.insert "Type" (.string "Parallel")
  | .choice => fields.insert "Type" (.string "Choice")

/-- Fields with the name in front of all others. -/
def nameFirst (fields : Fields Document) : Fields Document :=
  match fields.get? "Name" with
  | some name => ("Name", name) :: fields.erase "Name"
  | none => fields

theorem nameFirst_eq {fields : Fields Document} {name : Document}
    (h : fields.get? "Name" = some name) :
    nameFirst fields = ("Name", name) :: fields.erase "Name" := by
  rw [nameFirst, h]

theorem get?_refill (shape : Shape) (values : List Document) (fields : Fields Document) :
    (refill shape values fields).get? "Name" = fields.get? "Name" := by
  unfold refill
  split
  · rw [Fields.get?_replace_of_ne _ _ (by decide)]
  · rw [Fields.get?_replace_of_ne _ _ (by decide)]
  · rw [Fields.get?_replace_of_ne _ _ (by decide), Fields.get?_replace_of_ne _ _ (by decide)]
  · rfl

theorem erase_refill (shape : Shape) (values : List Document) (fields : Fields Document) :
    (refill shape values fields).erase "Name" = refill shape values (fields.erase "Name") := by
  unfold refill
  split
  · rw [Fields.erase_replace_of_ne _ _ (by decide)]
  · rw [Fields.erase_replace_of_ne _ _ (by decide)]
  · rw [Fields.erase_replace_of_ne _ _ (by decide), Fields.erase_replace_of_ne _ _ (by decide)]
  · rfl

theorem get?_writeShape (shape : Shape) (fields : Fields Document) :
    (writeShape shape fields).get? "Name" = fields.get? "Name" := by
  cases shape with
  | plain => rfl
  | parallel => exact Fields.get?_insert_of_ne _ _ (by decide)
  | choice => exact Fields.get?_insert_of_ne _ _ (by decide)

theorem erase_writeShape (shape : Shape) (fields : Fields Document) :
    (writeShape shape fields).erase "Name" = writeShape shape (fields.erase "Name") := by
  cases shape with
  | plain => rfl
  | parallel => exact Fields.erase_insert_of_ne _ _ (by decide)
  | choice => exact Fields.erase_insert_of_ne _ _ (by decide)

/-- An entry in normal form, given its lists in normal form. -/
def normalEntry : Document → List Document → Document
  | .object fields, lists =>
      .object (nameFirst (writeShape (Shape.of fields) (refill (Shape.of fields) lists fields)))
  | entry, _ => entry

/-- A list of steps in normal form: in each step the name comes first and the shape is written
out, and so in the lists that the step's shape compiles. -/
def normal (steps : List Document) : List Document :=
  steps.attach.map fun ⟨entry, he⟩ =>
    normalEntry entry ((entryLists entry).attach.map fun ⟨sub, hs⟩ =>
      have : sizeOf sub < sizeOf steps :=
        Nat.lt_trans (sizeOf_lt_of_mem_entryLists hs) (List.sizeOf_lt_of_mem he)
      .list (normal sub))
termination_by sizeOf steps

theorem normal_eq (steps : List Document) :
    normal steps = steps.map fun entry =>
      normalEntry entry ((entryLists entry).map fun sub => .list (normal sub)) := by
  rw [normal]
  simp only [List.map_subtype, List.unattach_attach]

/-! ## Reading back -/

/-- The shape of a state. -/
def shapeOf (state : Document) : Shape :=
  if state.textAt? "Type" = some "Parallel" then .parallel
  else if state.textAt? "Type" = some "Choice" then .choice
  else .plain

/-- The step of a state with a name, given the steps of its graphs. -/
def restore (name : String) (state : Document) (lists : List Document) : Document :=
  .object (("Name", .string name) ::
    refill (shapeOf state) lists (((state.fields?.getD []).erase "Next").erase "End"))

/-- The steps of a graph.  States with a name that the author did not write are left out. -/
def decompile (authored : List String) (graph : Document) : List Document :=
  (statesOf graph).attach.flatMap fun ⟨named, hn⟩ =>
    if named.1 ∈ authored then
      [restore named.1 named.2 ((subGraphs named.2).attach.map fun ⟨sub, hs⟩ =>
        have : sizeOf sub < sizeOf graph :=
          Nat.lt_trans (sizeOf_lt_of_mem_subGraphs hs) (sizeOf_lt_of_mem_statesOf hn)
        .list (decompile authored sub))]
    else []
termination_by sizeOf graph

/-- The steps of one state. -/
def decompileState (authored : List String) (named : String × Document) : List Document :=
  if named.1 ∈ authored then
    [restore named.1 named.2 ((subGraphs named.2).map fun sub => .list (decompile authored sub))]
  else []

theorem decompile_eq (authored : List String) (graph : Document) :
    decompile authored graph = (statesOf graph).flatMap (decompileState authored) := by
  rw [decompile]
  simp only [List.map_subtype, List.unattach_attach, List.flatMap_subtype]
  rfl

/-! ## The steps of a compiled list -/

theorem erase_chained {state : State} {key : String} (value : Document)
    (hk : key = "Next" ∨ key = "End") (hnext : state.get? "Next" = none)
    (hend : state.get? "End" = none) :
    ((state.insert key value).erase "Next").erase "End" = state := by
  rcases hk with rfl | rfl
  · rw [Fields.erase_insert_of_get?_none value hnext, Fields.erase_of_get?_none hend]
  · rw [Fields.erase_insert_of_ne _ value (by decide), Fields.erase_of_get?_none hnext,
      Fields.erase_insert_of_get?_none value hend]

/-- The shape that was written into a state is that of its step. -/
theorem StateOf.shapeOf_eq {fields : Fields Document} {lists : List (List Document)}
    {graphs : List Document} {state : State} (h : StateOf fields lists graphs state) :
    shapeOf (.object state) = Shape.of fields := by
  have ht : (Document.object state).textAt? "Type" = typeOf? state := rfl
  rw [shapeOf, ht, h.typeOf?_eq]
  cases hs : Shape.of fields with
  | plain =>
      obtain ⟨hp, hc⟩ := Shape.of_eq_plain hs
      simp only [if_neg hp, if_neg hc]
  | parallel => rfl
  | choice => rfl

/-- Graphs are stored where the lists stood, so lists put in their place stand there again. -/
theorem StateOf.refill_eq {fields : Fields Document} {lists : List (List Document)}
    {graphs : List Document} {state : State} (h : StateOf fields lists graphs state)
    (f : List Document → Document) :
    refill (Shape.of fields) (lists.map f) state =
      writeShape (Shape.of fields)
        (refill (Shape.of fields) (lists.map f) (fields.erase "Name")) := by
  cases h with
  | plain hs => rw [hs]; rfl
  | parallel hs _ _ =>
      rw [hs]
      simp only [refill, writeShape]
      rw [Fields.replace_insert_of_ne _ _ _ (by decide), Fields.replace_replace]
  | choice hs _ _ =>
      rw [hs]
      simp only [List.map_cons, List.map_nil, refill, writeShape]
      rw [Fields.replace_insert_of_ne _ _ _ (by decide), Fields.replace_replace]
  | choiceBoth hs _ _ =>
      rw [hs]
      simp only [List.map_cons, List.map_nil, refill, writeShape]
      rw [Fields.replace_insert_of_ne _ _ _ (by decide),
        Fields.replace_insert_of_ne _ _ _ (by decide),
        Fields.replace_comm _ _ _ (show "IsFalse" ≠ "IsTrue" by decide),
        Fields.replace_replace, Fields.replace_replace]

/-- The state of a step gives the step in normal form. -/
theorem StateOf.restore_eq {fields : Fields Document} {lists : List (List Document)}
    {graphs : List Document} {state : State} (h : StateOf fields lists graphs state)
    {name key : String} (value : Document) (hk : key = "Next" ∨ key = "End")
    (hname : fields.get? "Name" = some (.string name)) (hnext : fields.get? "Next" = none)
    (hend : fields.get? "End" = none) (f : List Document → Document) :
    restore name (.object (state.insert key value)) (lists.map f) =
      normalEntry (.object fields) (lists.map f) := by
  have hshape : shapeOf (.object (state.insert key value)) = Shape.of fields := by
    rw [← h.shapeOf_eq]
    simp only [shapeOf, textAt?_chained value hk]
  have herase : ((state.insert key value).erase "Next").erase "End" = state :=
    erase_chained value hk ((h.get?_eq (by decide)).trans hnext)
      ((h.get?_eq (by decide)).trans hend)
  have hfirst : (writeShape (Shape.of fields)
      (refill (Shape.of fields) (lists.map f) fields)).get? "Name" = some (.string name) := by
    rw [get?_writeShape, get?_refill, hname]
  rw [restore, hshape, Document.fields?, Option.getD_some, herase, h.refill_eq]
  rw [normalEntry, nameFirst_eq hfirst, erase_writeShape, erase_refill]

/-- A state that was inserted gives no step. -/
theorem decompileState_of_not_mem {authored : List String} {named : String × Document}
    (h : named.1 ∉ authored) : decompileState authored named = [] :=
  if_neg h

mutual

theorem Compiles.decompile_eq {c : Compiler} {names final : Names} {steps : List Document}
    {states : List (String × State)} (hn : names.claimed.Nodup)
    (hsub : authoredNames steps ⊆ names.authored) :
    Compiles c names steps states final →
    (chain states).flatMap (decompileState names.authored) = normal steps
  | .nil => by
      rw [normal_eq]
      rfl
  | @Compiles.cons _ _ _ _ _ name _ _ _ _ state merge states hchecked hall hof hins hrest => by
      obtain ⟨hadd, hafter, hbehind⟩ := step_claims hn hchecked hall hins
      rw [authoredNames_eq, List.flatMap_cons, ← authoredNames_eq, entryNames_object,
        ownNames_of_named hchecked.named, hof.subLists_eq] at hsub
      obtain ⟨hown, hsubRest⟩ := List.append_subset.mp hsub
      obtain ⟨hname, hsubLists⟩ := List.cons_subset.mp hown
      have hlists := hall.decompile_eq hadd.nodup hsubLists
      rw [hadd.authored] at hlists
      have htail := hrest.decompile_eq hbehind.nodup (hbehind.authored ▸ hsubRest)
      rw [hbehind.authored] at htail
      have hmerge : (chain (merge ++ states)).flatMap (decompileState names.authored) =
          (chain states).flatMap (decompileState names.authored) := by
        rcases Compiler.inserted_eq hins with ⟨-, rfl, -⟩ | ⟨mergeName, -, rfl, -, hfree⟩
        · rfl
        · obtain ⟨key, value, -, hc⟩ := chain_cons (mergeName, c.mergeState) states
          have hnew := (Names.taken_eq_false_iff.mp hfree).2
          rw [hafter.authored] at hnew
          rw [List.singleton_append, hc, List.flatMap_cons, decompileState_of_not_mem hnew,
            List.nil_append]
      obtain ⟨key, value, hk, hc⟩ := chain_cons (name, state) (merge ++ states)
      rw [List.cons_append, hc, List.flatMap_cons, hmerge, htail]
      rw [normal_eq (_ :: _), List.map_cons, ← normal_eq]
      rw [decompileState, if_pos hname, subGraphs_chained value hk, hof.subGraphs_eq, hlists,
        hof.restore_eq value hk hchecked.named hchecked.noNext hchecked.noEnd, entryLists,
        hof.subLists_eq]
      rfl

theorem CompilesAll.decompile_eq {c : Compiler} {names final : Names}
    {lists : List (List Document)} {graphs : List Document} (hn : names.claimed.Nodup)
    (hsub : lists.flatMap authoredNames ⊆ names.authored) :
    CompilesAll c names lists graphs final →
    graphs.map (fun graph => .list (decompile names.authored graph)) =
      lists.map (fun list => Document.list (normal list))
  | .nil => rfl
  | .cons hfirst _ hrest => by
      have hclaims := hfirst.claims hn
      obtain ⟨hsubFirst, hsubRest⟩ := List.append_subset.mp hsub
      have htail := hrest.decompile_eq hclaims.nodup (hclaims.authored ▸ hsubRest)
      rw [hclaims.authored] at htail
      have hhead := hfirst.decompile_eq hn hsubFirst
      rw [List.map_cons, List.map_cons, htail]
      rw [Plan.decompile_eq, statesOf_graphOf, link_eq_chain (hfirst.names_nodup hn), hhead]

end

/-- Reading a compiled plan back gives its steps in normal form.  So nothing that the author
wrote is lost, and none of it depends on the settings of the compiler. -/
theorem decompile_definition {c : Compiler} {plan : List Document} {definition : Document}
    (h : c.definition (.list plan) = .ok definition) :
    decompile (authoredNames plan) definition = normal plan ∧
      ∀ (c' : Compiler) (definition' : Document), c'.definition (.list plan) = .ok definition' →
        decompile (authoredNames plan) definition' = decompile (authoredNames plan) definition := by
  have hnormal : ∀ (c : Compiler) (definition : Document),
      c.definition (.list plan) = .ok definition →
      decompile (authoredNames plan) definition = normal plan := by
    intro c definition h
    obtain ⟨steps, states, final, hs, hc, -, rfl⟩ := compiles_of_definition h
    obtain rfl : plan = steps := Document.list.inj hs
    rw [decompile_eq, statesOf_graphOf, link_eq_chain (hc.names_nodup List.nodup_nil)]
    exact hc.decompile_eq List.nodup_nil (List.Subset.refl _)
  refine ⟨hnormal c definition h, fun c' definition' h' => ?_⟩
  rw [hnormal c' definition' h', hnormal c definition h]

/-- `forkedPlan` in normal form. -/
def forkedNormal : List Document :=
  [.object [("Name", .string "Fan"), ("Branches", .list
    [.list [.object [("Name", .string "FanMerge"), ("Type", .string "Job")]],
     .list [.object [("Name", .string "Check"),
       ("IsFalse", .list [.object [("Name", .string "No")]]),
       ("IsTrue", .list [.object [("Name", .string "Yes"), ("Type", .string "Job")]]),
       ("Type", .string "Choice")]]]),
    ("Type", .string "Parallel")]]

/-- The plan is read back without the merge state behind the fan-out. -/
theorem decompile_forkedGraph :
    ({} : Compiler).definition (.list forkedPlan) = .ok forkedGraph ∧
      decompile (authoredNames forkedPlan) forkedGraph = forkedNormal := by
  have hd : ({} : Compiler).definition (.list forkedPlan) = .ok forkedGraph := rfl
  have hn : normal forkedPlan = forkedNormal := by cbv
  exact ⟨hd, (decompile_definition hd).1.trans hn⟩

end StepGraph.Plan
