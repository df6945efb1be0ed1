/-
Findings of a reading, and the first fault among them.

Whoever reads a plan for what is wrong with it comes across faults and steps.
A fault is wrong wherever it stands; a step is wrong only behind another of
its name.  `FirstFault` says of a fault that everything in front of it is in
order.  `read` goes through the findings one by one and stops where something
is wrong; it stops at the first fault and nowhere else.
-/
import Mathlib.Data.List.Induction
import StepGraph.Plan.Fault
import StepGraph.Proofs.Success

namespace StepGraph.Plan

/-- What a reading comes across: something wrong, or a step with its name. -/
inductive Finding where
  | wrong (fault : Fault)
  | step (name : String)
deriving DecidableEq

namespace Finding

/-- What is wrong with a finding behind others: the fault that it is, or that a step has the
name of an earlier one. -/
def fault? (before : List Finding) : Finding → Option Fault
  | .wrong fault => some fault
  | .step name => if .step name ∈ before then some (.duplicateName name) else none

/-- The name of a step that was come across. -/
def name? : Finding → Option String
  | .wrong _ => none
  | .step name => some name

end Finding

/-- Findings of which none is wrong behind those in front of it. -/
def Clean (findings : List Finding) : Prop :=
  ∀ before finding behind, findings = before ++ finding :: behind → finding.fault? before = none

/-- A fault stands among findings, and nothing in front of it is wrong. -/
def FirstFault (findings : List Finding) (fault : Fault) : Prop :=
  ∃ before finding behind, findings = before ++ finding :: behind ∧ Clean before ∧
    finding.fault? before = some fault

/-- Goes through findings behind those that were in order, up to the first that is wrong. -/
def read (before : List Finding) : List Finding → Except Fault (List Finding)
  | [] => .ok before
  | finding :: rest =>
      match finding.fault? before with
      | some fault => .error fault
      | none => read (before ++ [finding]) rest

/-- The names of the steps among findings. -/
def stepsFound (findings : List Finding) : List String := findings.filterMap Finding.name?

/-! ## Clean findings -/

theorem clean_nil : Clean [] := by
  intro before finding behind h
  simp at h

theorem clean_concat {findings : List Finding} {finding : Finding} :
    Clean (findings ++ [finding]) ↔ Clean findings ∧ finding.fault? findings = none := by
  constructor
  · intro h
    refine ⟨?_, h findings finding [] rfl⟩
    intro before middle behind he
    exact h before middle (behind ++ [finding]) (by rw [he, List.append_assoc]; rfl)
  · rintro ⟨hclean, hlast⟩ before middle behind he
    rcases List.eq_nil_or_concat behind with rfl | ⟨behind, last, rfl⟩
    · obtain ⟨rfl, hm⟩ := List.append_inj' he rfl
      obtain rfl := List.head_eq_of_cons_eq hm
      exact hlast
    · have he' : findings ++ [finding] = (before ++ middle :: behind) ++ [last] := by
        rw [he, List.concat_eq_append, List.append_assoc]
        rfl
      exact hclean before middle behind (List.append_inj' he' rfl).1

theorem Clean.of_append {findings more : List Finding} (h : Clean (findings ++ more)) :
    Clean findings := by
  intro before finding behind he
  exact h before finding (behind ++ more) (by rw [he, List.append_assoc]; rfl)

theorem stepsFound_append (findings more : List Finding) :
    stepsFound (findings ++ more) = stepsFound findings ++ stepsFound more :=
  List.filterMap_append

theorem mem_stepsFound_iff {findings : List Finding} {name : String} :
    name ∈ stepsFound findings ↔ .step name ∈ findings := by
  rw [stepsFound, List.mem_filterMap]
  constructor
  · rintro ⟨finding, hm, hn⟩
    cases finding with
    | wrong fault => simp [Finding.name?] at hn
    | step other =>
        obtain rfl := Option.some.inj hn
        exact hm
  · intro hm
    exact ⟨.step name, hm, rfl⟩

/-- Findings are clean if there is no fault among them and the steps differ in name. -/
theorem clean_iff {findings : List Finding} :
    Clean findings ↔ (∀ fault, .wrong fault ∉ findings) ∧ (stepsFound findings).Nodup := by
  induction findings using List.reverseRecOn with
  | nil => exact ⟨fun _ => ⟨fun _ => List.not_mem_nil, List.nodup_nil⟩, fun _ => clean_nil⟩
  | append_singleton findings finding ih =>
      rw [clean_concat, ih, stepsFound_append]
      cases finding with
      | wrong fault =>
          constructor
          · rintro ⟨-, hf⟩
            simp [Finding.fault?] at hf
          · rintro ⟨hf, -⟩
            exact absurd (List.mem_append_right findings List.mem_cons_self) (hf fault)
      | step name =>
          have hlast : (Finding.step name).fault? findings = none ↔ name ∉ stepsFound findings := by
            rw [mem_stepsFound_iff, Finding.fault?]
            simp
          have hnames : stepsFound [.step name] = [name] := rfl
          rw [hlast, hnames, List.perm_append_comm.nodup_iff, List.singleton_append,
            List.nodup_cons]
          simp only [List.mem_append, List.mem_singleton, reduceCtorEq, or_false]
          tauto

/-! ## Going through findings -/

theorem read_append (before findings more : List Finding) :
    read before (findings ++ more) = read before findings >>= fun found => read found more := by
  induction findings generalizing before with
  | nil => rfl
  | cons finding rest ih =>
      rw [List.cons_append, read, read]
      cases finding.fault? before with
      | some fault => rfl
      | none => exact ih (before ++ [finding])

/-- What was gone through to the end is clean, and so the other way round. -/
theorem read_eq_ok {before findings found : List Finding} (hb : Clean before) :
    read before findings = .ok found ↔ Clean (before ++ findings) ∧ found = before ++ findings := by
  induction findings generalizing before with
  | nil =>
      rw [read, List.append_nil, Except.ok.injEq, eq_comm]
      exact ⟨fun h => ⟨hb, h⟩, fun h => h.2⟩
  | cons finding rest ih =>
      rw [read, List.append_cons before finding rest]
      cases hf : finding.fault? before with
      | some fault =>
          constructor
          · intro h
            simp at h
          · rintro ⟨hclean, -⟩
            have hlast := (clean_concat.mp hclean.of_append).2
            rw [hf] at hlast
            simp at hlast
      | none => exact ih (clean_concat.mpr ⟨hb, hf⟩)

/-- The reading stops at the first fault and says which it is. -/
theorem read_eq_error {before findings : List Finding} {fault : Fault} (hb : Clean before) :
    read before findings = .error fault ↔
      ∃ more finding behind, findings = more ++ finding :: behind ∧ Clean (before ++ more) ∧
        finding.fault? (before ++ more) = some fault := by
  induction findings generalizing before with
  | nil => simp [read]
  | cons finding rest ih =>
      rw [read]
      cases hf : finding.fault? before with
      | some first =>
          constructor
          · intro h
            obtain rfl := Except.error.inj h
            exact ⟨[], finding, rest, rfl, by rwa [List.append_nil], by rwa [List.append_nil]⟩
          · rintro ⟨more, other, behind, he, hclean, hother⟩
            cases more with
            | nil =>
                obtain ⟨rfl, -⟩ := List.cons.inj he
                rw [List.append_nil, hf] at hother
                rw [Option.some.inj hother]
            | cons head more =>
                -- then the finding in front of the fault would be in order
                obtain ⟨rfl, -⟩ := List.cons.inj he
                rw [List.append_cons] at hclean
                have hhead := (clean_concat.mp hclean.of_append).2
                rw [hf] at hhead
                simp at hhead
      | none =>
          refine (ih (clean_concat.mpr ⟨hb, hf⟩)).trans ?_
          constructor
          · rintro ⟨more, other, behind, rfl, hclean, hother⟩
            rw [← List.append_cons] at hclean hother
            exact ⟨finding :: more, other, behind, rfl, hclean, hother⟩
          · rintro ⟨more, other, behind, he, hclean, hother⟩
            cases more with
            | nil =>
                obtain ⟨rfl, -⟩ := List.cons.inj he
                rw [List.append_nil, hf] at hother
                simp at hother
            | cons head more =>
                obtain ⟨rfl, rfl⟩ := List.cons.inj he
                rw [List.append_cons] at hclean hother
                exact ⟨more, other, behind, rfl, hclean, hother⟩

theorem read_nil_eq_error {findings : List Finding} {fault : Fault} :
    read [] findings = .error fault ↔ FirstFault findings fault :=
  read_eq_error clean_nil

end StepGraph.Plan
