import EventRules.Proofs.Processor.Parts
import Mathlib.Logic.Function.Basic

/-! Running processors on a record. What an expression gives in a record, and what the processors do
that set nothing, is left to a machine; on derivations in place of values one run stands for all. -/
namespace EventRules

/-- The value of an expression in a record, and the record after a processor that is no set. -/
structure Machine (V : Type) where
  eval : String → (String → V) → V
  other : Processor → (String → V) → String → V

namespace Machine

variable {V : Type} (m : Machine V)

/-- The value of an expression depends only on the fields that it references. -/
def Local : Prop := ∀ expression record record',
  (∀ f ∈ Text.referencedFields expression, record f = record' f) →
    m.eval expression record = m.eval expression record'

/-- Store the value of the expression under the key. -/
def assign (record : String → V) (update : String × String) : String → V :=
  Function.update record update.1 (m.eval update.2 record)

/-- Take the updates one after the other, each in the record as it is by then. -/
def assignAll (record : String → V) (updates : List (String × String)) : String → V :=
  updates.foldl m.assign record

/-- One processor. -/
def step (record : String → V) : Processor → String → V
  | .set updates => m.assignAll record updates
  | processor => m.other processor record

/-- Some processors in order. -/
def run (processors : List Processor) (record : String → V) : String → V :=
  processors.foldl m.step record

@[simp] theorem assignAll_nil (record : String → V) : m.assignAll record [] = record := rfl

@[simp] theorem assignAll_cons (record : String → V) (update : String × String)
    (updates : List (String × String)) :
    m.assignAll record (update :: updates) = m.assignAll (m.assign record update) updates := rfl

theorem assignAll_append (record : String → V) (front back : List (String × String)) :
    m.assignAll record (front ++ back) = m.assignAll (m.assignAll record front) back :=
  List.foldl_append

@[simp] theorem step_set (record : String → V) (updates : List (String × String)) :
    m.step record (.set updates) = m.assignAll record updates := rfl

@[simp] theorem run_nil (record : String → V) : m.run [] record = record := rfl

@[simp] theorem run_cons (processor : Processor) (rest : List Processor) (record : String → V) :
    m.run (processor :: rest) record = m.run rest (m.step record processor) := rfl

theorem run_append (front back : List Processor) (record : String → V) :
    m.run (front ++ back) record = m.run back (m.run front record) :=
  List.foldl_append

theorem run_single (assignments : List (String × String)) (record : String → V) :
    m.run (assignments.map fun assignment => .set [assignment]) record =
      m.assignAll record assignments := by
  induction assignments generalizing record with
  | nil => rfl
  | cons assignment rest ih => simp [ih]

/-- Where the runs have the same effect both ways, so have all parts together. -/
theorem run_merged {parts : List Part} (h : ∀ assignments, .run assignments ∈ parts →
      ∀ record, m.assignAll record (Ordered.ofPairs assignments) = m.assignAll record assignments)
    (record : String → V) :
    m.run (parts.map Part.merged) record = m.run (parts.flatMap Part.single) record := by
  induction parts generalizing record with
  | nil => rfl
  | cons part rest ih =>
    have hrest := ih fun assignments ha => h assignments (by simp [ha])
    rw [List.map_cons, run_cons, List.flatMap_cons, run_append, hrest]
    cases part with
    | run assignments =>
      rw [Part.merged, step_set, h assignments (by simp), Part.single, run_single]
    | own processor => rfl

end Machine

/-- How the value of a field comes about: it is there from the beginning, or an expression gives it
from the values of the fields that it references, or a processor leaves it in a record. -/
inductive Derivation where
  | initial (field : String)
  | result (expression : String) (inputs : String → Derivation)
  | after (processor : Processor) (record : String → Derivation) (field : String)

namespace Derivation

/-- The machine that keeps derivations. -/
def machine : Machine Derivation where
  eval expression record := .result expression fun f =>
    if f ∈ Text.referencedFields expression then record f else .initial f
  other processor record := .after processor record

theorem machine_local : machine.Local := by
  intro expression record record' h
  have hinputs : (fun f => if f ∈ Text.referencedFields expression then record f else initial f) =
      fun f => if f ∈ Text.referencedFields expression then record' f else initial f := by
    funext f
    split
    next hf => exact h f hf
    next => rfl
  simp only [machine, hinputs]

variable {V : Type} (m : Machine V) (start : String → V)

/-- The value that a derivation has in a machine from a record on. -/
def value : Derivation → V
  | .initial f => start f
  | .result expression inputs => m.eval expression fun f => value (inputs f)
  | .after processor record f => m.other processor (fun k => value (record k)) f

variable {m}

theorem value_eval (hm : m.Local) (expression : String) (record : String → Derivation) :
    (machine.eval expression record).value m start =
      m.eval expression fun f => (record f).value m start := by
  apply hm
  intro f hf
  simp [hf]

theorem value_assignAll (hm : m.Local) (updates : List (String × String))
    (record : String → Derivation) :
    (fun f => (machine.assignAll record updates f).value m start) =
      m.assignAll (fun f => (record f).value m start) updates := by
  induction updates generalizing record with
  | nil => rfl
  | cons update rest ih =>
    have hone : (fun f => (machine.assign record update f).value m start) =
        m.assign (fun f => (record f).value m start) update := by
      funext f
      by_cases hf : f = update.1
      · subst hf
        simp [Machine.assign, value_eval start hm]
      · simp [Machine.assign, hf]
    rw [Machine.assignAll_cons, ih, hone, Machine.assignAll_cons]

/-- A run on derivations gives the derivations of what any other run gives. -/
theorem value_run (hm : m.Local) (processors : List Processor) (record : String → Derivation) :
    (fun f => (machine.run processors record f).value m start) =
      m.run processors fun f => (record f).value m start := by
  induction processors generalizing record with
  | nil => rfl
  | cons processor rest ih =>
    rw [Machine.run_cons, ih, Machine.run_cons]
    cases processor with
    | set updates => rw [Machine.step_set, value_assignAll start hm, Machine.step_set]
    | _ => rfl

/-- Two translations do the same in every machine whose expressions read what they reference, on
every record, exactly when they derive the same from the fields of the record. -/
theorem run_eq_iff {first second : List Processor} :
    (∀ (V : Type) (m : Machine V), m.Local → ∀ record, m.run first record = m.run second record) ↔
      machine.run first initial = machine.run second initial := by
  constructor
  · intro h
    exact h Derivation machine machine_local initial
  · intro h V m hm record
    have hfirst := value_run record hm first initial
    have hsecond := value_run record hm second initial
    simp only [value] at hfirst hsecond
    rw [← hfirst, ← hsecond, h]

end Derivation
end EventRules
