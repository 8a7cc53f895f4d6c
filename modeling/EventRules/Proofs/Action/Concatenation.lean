import EventRules.Proofs.Dependency.Resolution
import EventRules.Proofs.Processor.Updates
import EventRules.Proofs.Text.Seam

/-! What a concatenation reads. It is emitted as one joined text, but its dependencies are taken
from its values one by one. -/
namespace EventRules.Action

variable {a : Action} {source : Source}

/-- A concatenation is emitted as its joined values. Its dependencies are the fields that this text
references, in the same order, just when every reference that comes about where two values meet has
a blank path; then it depends on exactly the actions that write one of these fields. -/
theorem concat_reads_exact (h : a.effect = .concat source) :
    a.assignment? = some (a.target, source.joined) ∧
      (Text.referencedFields source.joined = a.reads ↔
        ∀ path, Text.Cut (source.values.map String.toList) path → ∀ c ∈ path, Text.isBlankChar c) ∧
      (Text.referencedFields source.joined = a.reads →
        ∀ b : Action, a.dependsOn b ↔ b.field ∈ Text.referencedFields source.joined) := by
  have hreads : a.reads = source.values.flatMap Text.referencedFields := by
    rw [reads, sources, h]
    rfl
  refine ⟨by rw [assignment?, h], ?_, fun hsame b => ?_⟩
  · rw [hreads]
    exact Text.referencedFields_join_iff source.values
  · rw [hsame]
    exact dependsOn_iff

/-- Two seams cut a reference of which the path is a blank. -/
theorem concat_reads_exact_blank :
    let a : Action := .concat "X" ["${A}$", "\x7b", " \x7d${B}"]
    a.check.accepts ∧ a.reads = ["A", "B"] ∧
      Text.Cut (a.sources.map String.toList) [' '] ∧
      (∀ path, Text.Cut (a.sources.map String.toList) path → ∀ c ∈ path, Text.isBlankChar c) ∧
      ∀ b : Action, a.dependsOn b ↔ b.field ∈ ["A", "B"] := by
  intro a
  obtain ⟨-, hsame, hdepends⟩ := concat_reads_exact (rfl : a.effect = .concat _)
  have hjoined : Text.referencedFields (String.join ["${A}$", "\x7b", " \x7d${B}"]) =
      ["A", "B"] := by decide +kernel
  have hreads : a.reads = ["A", "B"] := by decide +kernel
  have hfront : ["${A}$".toList].flatten = "${A}".toList ++ ['$'] := by decide +kernel
  have hback : ["\x7b".toList, " \x7d${B}".toList].flatten =
      ['{', ' '] ++ '}' :: "${B}".toList := by decide +kernel
  have hcut : Text.Cut (["${A}$".toList] ++ ["\x7b".toList, " \x7d${B}".toList]) [' '] :=
    .intro hfront hback trivial (by simp) rfl (by simp)
  have hdepends : ∀ b : Action, a.dependsOn b ↔ b.field ∈ ["A", "B"] := by
    simpa only [Source.joined, hjoined] using hdepends (hjoined.trans hreads.symm)
  exact ⟨by decide +kernel, hreads, hcut, hsame.mp (hjoined.trans hreads.symm), hdepends⟩

/-- A reference that comes about where two values meet: the concatenation reads a field that it does
not depend on, and is left before the action that writes it. -/
theorem concat_reads_unseen :
    let a : Action := .concat "X" ["$", "{Y}"]
    let b : Action := .copy "Y" "1"
    let r : Rule := { description := "d", actions := [a, b] }
    a.check.accepts ∧ a.assignment? = some ("X", "${Y}") ∧
      Text.referencedFields "${Y}" = ["Y"] ∧ b.field = "Y" ∧ a.reads = [] ∧
      a.dependsOn b = false ∧ r.resolveActions = .ok r := by
  intro a b r
  have horder : r.actionGraph.order = [0, 1] := by decide +kernel
  have hresolves : r.resolveActions = .ok r :=
    Rule.resolveActions_eq_ok.mpr ⟨by decide +kernel, by rw [horder]; rfl⟩
  exact ⟨by decide +kernel, by decide +kernel, by decide +kernel, by decide +kernel,
    by decide +kernel, by decide +kernel, hresolves⟩

end EventRules.Action
