import EventRules.Proofs.History
import EventRules.Proofs.Rule.Json
import EventRules.Proofs.RuleSet.Preservation

/-! Editing rulesets. A run of operations starts from the empty ruleset; validation and resolution
replace the ruleset when they succeed. In every run the rules stand under distinct keys that are not
blank and are their identifiers, and a run of edits alone leaves the rules that its history leaves.
-/
namespace EventRules

open Ordered (Change)

namespace Rule

/-- The rule has a group identifier that is not blank and, when trimmed, names the group. -/
def InGroup (group : String) (r : Rule) : Prop :=
  ∃ text, r.groupId = some text ∧ ¬ Text.isBlank text ∧ Text.trim text = group

theorem group?_eq_some_iff {group : String} {r : Rule} :
    r.group? = some group ↔ r.InGroup group := by
  unfold group? InGroup Text.nonBlank
  cases r.groupId with
  | none => simp
  | some text => by_cases hblank : Text.isBlank text <;> simp [hblank]

instance (group : String) : DecidablePred (InGroup group) :=
  fun _ => decidable_of_iff _ group?_eq_some_iff

theorem not_isBlank_identified {fresh : String} (hfresh : ¬ Text.isBlank fresh) (r : Rule) :
    ¬ Text.isBlank (r.identified fresh).uid := by
  unfold identified
  split
  next => exact hfresh
  next huid => exact huid

end Rule

namespace RuleSet

/-- What can be done to a ruleset. Where rules may need identifiers, fresh ones come with them. -/
inductive Operation where
  | add (fresh : String) (rule : Rule)
  | remove (uid : String)
  | removeGroup (group : String)
  | syncIds
  | ofRules (fresh : ℕ → String) (rules : List Rule)
  | validate (catalog : Option Catalog)
  | resolve

namespace Operation

/-- Validation and resolution leave the ruleset as it is when they fail. -/
def apply (s : RuleSet) : Operation → RuleSet
  | add fresh rule => (s.add fresh rule).2
  | remove uid => s.remove uid
  | removeGroup group => (s.removeGroup group).2
  | syncIds => s.syncIds
  | ofRules fresh rules => .ofRules fresh rules
  | validate catalog => (s.imported catalog).toOption.getD s
  | resolve => s.resolveRules.toOption.getD s

/-- No identifier that comes with the operation is blank. -/
def Supplied : Operation → Prop
  | add fresh _ => ¬ Text.isBlank fresh
  | ofRules fresh rules => ∀ i < rules.length, ¬ Text.isBlank (fresh i)
  | _ => True

/-- The operation is neither validation nor resolution. -/
def Edits : Operation → Prop
  | validate _ | resolve => False
  | _ => True

/-- A rule that is added, under its identifier. -/
def given (fresh : String) (rule : Rule) : String × Change Rule :=
  ((rule.identified fresh).uid, .give (rule.identified fresh))

/-- What an edit does to the keys. -/
def changes (s : RuleSet) : Operation → List (String × Change Rule)
  | add fresh rule => [given fresh rule]
  | remove uid => [(uid, .drop)]
  | removeGroup group =>
    (s.entries.filter fun entry => entry.2.InGroup group).map fun entry => (entry.1, .drop)
  | ofRules fresh rules =>
    (s.ids.map fun uid => (uid, .drop)) ++
      rules.zipIdx.map fun entry => given (fresh entry.2) entry.1
  | syncIds | validate _ | resolve => []

end Operation

/-- The ruleset after the operations. -/
def run (s : RuleSet) (ops : List Operation) : RuleSet := ops.foldl Operation.apply s

/-- What the operations do to the keys, one after another. -/
def history (s : RuleSet) : List Operation → List (String × Change Rule)
  | [] => []
  | op :: rest => op.changes s ++ history (op.apply s) rest

/-- The rules stand under distinct keys that are not blank and are their identifiers. -/
structure WellKeyed (s : RuleSet) : Prop where
  nodup : s.ids.Nodup
  filled : ∀ id ∈ s.ids, ¬ Text.isBlank id
  synced : ∀ entry ∈ s.entries, entry.2.uid = entry.1

namespace WellKeyed

variable {s t : RuleSet}

theorem empty : WellKeyed {} := ⟨List.nodup_nil, by simp [ids], by simp⟩

theorem of_subperm (h : s.WellKeyed) (hst : t.entries.Subperm s.entries) : t.WellKeyed := by
  obtain ⟨entries, hperm, hsublist⟩ := hst
  have hids : (entries.map Prod.fst).Perm t.ids := hperm.map Prod.fst
  have hkept : (entries.map Prod.fst).Sublist s.ids := hsublist.map Prod.fst
  exact ⟨hids.nodup_iff.mp (hkept.nodup h.nodup),
    fun id hid => h.filled id (hkept.subset (hids.mem_iff.mpr hid)),
    fun entry hentry => h.synced entry (hsublist.subset (hperm.mem_iff.mpr hentry))⟩

theorem add (h : s.WellKeyed) {fresh : String} (hfresh : ¬ Text.isBlank fresh) (rule : Rule) :
    (s.add fresh rule).2.WellKeyed where
  nodup := Ordered.keys_insert_nodup h.nodup
  filled := by
    intro id hid
    rcases Ordered.mem_keys_insert.mp hid with hid | rfl
    · exact h.filled id hid
    · exact rule.not_isBlank_identified hfresh
  synced := by
    intro entry hentry
    rcases (Ordered.mem_insert h.nodup).mp hentry with rfl | ⟨hentry, -⟩
    · rfl
    · exact h.synced entry hentry

theorem ofRules {fresh : ℕ → String} {rules : List Rule}
    (hfresh : ∀ i < rules.length, ¬ Text.isBlank (fresh i)) : (ofRules fresh rules).WellKeyed := by
  have hnumbered : ∀ entry ∈ rules.zipIdx, ¬ Text.isBlank (fresh entry.2) := fun entry hentry =>
    hfresh entry.2 (by simpa using List.snd_lt_add_of_mem_zipIdx hentry)
  unfold RuleSet.ofRules
  -- the numbers play no part but in the choice of the fresh identifiers
  generalize rules.zipIdx = numbered at hnumbered
  induction numbered using List.reverseRecOn with
  | nil => exact empty
  | append_singleton numbered entry ih =>
    rw [List.foldl_concat]
    simp only [List.mem_append, List.mem_singleton] at hnumbered
    exact (ih fun e he => hnumbered e (.inl he)).add (hnumbered entry (.inr rfl)) entry.1

theorem imported (h : s.WellKeyed) {catalog : Option Catalog}
    (ht : s.imported catalog = .ok t) : t.WellKeyed where
  nodup := ids_of_imported ht ▸ h.nodup
  filled := ids_of_imported ht ▸ h.filled
  synced := by
    intro entry hentry
    obtain ⟨e, -, hkey, actions, hrule, -⟩ := exists_of_forall₂ (imports_of_imported ht) hentry
    rw [hrule, hkey]

/-- No operation puts a rule under a key that another rule has, a blank one or one that is not its
identifier. -/
theorem apply (h : s.WellKeyed) {op : Operation} (hop : op.Supplied) : (op.apply s).WellKeyed := by
  cases op with
  | add fresh rule => exact h.add hop rule
  | remove uid => exact h.of_subperm List.filter_sublist.subperm
  | removeGroup group => exact h.of_subperm List.filter_sublist.subperm
  | syncIds =>
    show s.syncIds.WellKeyed
    rwa [syncIds_eq_self h.synced]
  | ofRules fresh rules => exact ofRules hop
  | validate catalog =>
    show ((s.imported catalog).toOption.getD s).WellKeyed
    cases ht : s.imported catalog with
    | error problems => exact h
    | ok t => exact h.imported ht
  | resolve =>
    show (s.resolveRules.toOption.getD s).WellKeyed
    cases ht : s.resolveRules with
    | error problem => exact h
    | ok t => exact h.of_subperm (entries_perm_of_resolveRules ht).subperm

/-- What one operation preserves, a run preserves. -/
theorem run (h : s.WellKeyed) {ops : List Operation} (hops : ∀ op ∈ ops, op.Supplied) :
    (s.run ops).WellKeyed := by
  induction ops generalizing s with
  | nil => exact h
  | cons op rest ih =>
    rw [List.forall_mem_cons] at hops
    exact ih (h.apply hops.1) hops.2

end WellKeyed

variable {s : RuleSet}

/-- Removing a group removes the rules that are in it, counts them, and keeps the others. -/
theorem removeGroup_eq (group : String) (s : RuleSet) : s.removeGroup group =
    (s.entries.countP fun entry => entry.2.InGroup group,
      { s with entries := s.entries.filter fun entry => ¬ entry.2.InGroup group }) := by
  have hkept : s.entries.filter (fun entry => entry.2.group? ≠ some group) =
      s.entries.filter fun entry => ¬ entry.2.InGroup group :=
    List.filter_congr fun entry _ => by simp only [ne_eq, Rule.group?_eq_some_iff]
  have hcount : s.size - (s.entries.filter fun entry => ¬ entry.2.InGroup group).length =
      s.entries.countP fun entry => entry.2.InGroup group := by
    have hsize := s.entries.length_eq_countP_add_countP fun entry => entry.2.InGroup group
    rw [size, ← List.countP_eq_length_filter]
    simp only [decide_eq_true_eq] at hsize
    omega
  simp only [removeGroup, hkept, hcount]

/-- Rules that are added one after another are given to their identifiers. -/
theorem entries_ofRules (fresh : ℕ → String) (rules : List Rule) : (ofRules fresh rules).entries =
    (rules.zipIdx.map fun entry => Operation.given (fresh entry.2) entry.1).foldl
      Ordered.change [] := by
  unfold ofRules
  generalize rules.zipIdx = numbered
  induction numbered using List.reverseRecOn with
  | nil => rfl
  | append_singleton numbered entry ih =>
    rw [List.foldl_concat, List.map_append, List.map_singleton, List.foldl_concat, ← ih]
    rfl

/-- An edit does to the table of rules what it does to the keys. -/
theorem WellKeyed.entries_apply (h : s.WellKeyed) {op : Operation} (hop : op.Edits) :
    (op.apply s).entries = (op.changes s).foldl Ordered.change s.entries := by
  cases op with
  | add fresh rule => rfl
  | remove uid => rfl
  | removeGroup group =>
    have hdropped : (Operation.removeGroup group).changes s =
        ((s.entries.filter fun entry => entry.2.InGroup group).map Prod.fst).map
          fun uid => (uid, Change.drop) := by
      rw [List.map_map]
      rfl
    rw [hdropped, Ordered.foldl_change_drop]
    show (s.removeGroup group).2.entries = _
    rw [removeGroup_eq]
    refine List.filter_congr fun entry hentry => decide_eq_decide.mpr (not_congr ?_)
    -- an entry of the same key is the entry itself
    constructor
    · intro hgroup
      exact List.mem_map_of_mem (List.mem_filter.mpr ⟨hentry, decide_eq_true hgroup⟩)
    · intro hmem
      obtain ⟨other, hother, hkey⟩ := List.mem_map.mp hmem
      obtain ⟨hother, hgroup⟩ := List.mem_filter.mp hother
      obtain rfl := List.inj_on_of_nodup_map h.nodup hother hentry hkey
      exact of_decide_eq_true hgroup
  | syncIds =>
    show s.syncIds.entries = _
    rw [syncIds_eq_self h.synced]
    rfl
  | ofRules fresh rules =>
    have hnone : s.entries.filter (fun entry => entry.1 ∉ s.ids) = [] := by
      rw [List.filter_eq_nil_iff]
      intro entry hentry
      have hid : entry.1 ∈ s.ids := List.mem_map_of_mem hentry
      simpa using hid
    unfold Operation.changes
    rw [List.foldl_append, Ordered.foldl_change_drop, hnone]
    exact entries_ofRules fresh rules
  | validate catalog => exact hop.elim
  | resolve => exact hop.elim

theorem WellKeyed.entries_run (h : s.WellKeyed) {ops : List Operation}
    (hops : ∀ op ∈ ops, op.Supplied) (hedits : ∀ op ∈ ops, op.Edits) :
    (s.run ops).entries = (s.history ops).foldl Ordered.change s.entries := by
  induction ops generalizing s with
  | nil => rfl
  | cons op rest ih =>
    rw [List.forall_mem_cons] at hops hedits
    unfold history
    rw [List.foldl_append, ← h.entries_apply hedits.1]
    exact ih (h.apply hops.1) hops.2 hedits.2

end RuleSet

open RuleSet

end EventRules
