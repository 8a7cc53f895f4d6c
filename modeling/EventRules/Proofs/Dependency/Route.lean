import EventRules.Proofs.Dependency.Graph
import Mathlib.Data.List.Chain

/-! Routes through the dependencies of a list. A route climbs from item to item, each one depending
on the next and numbered below it, and takes one more step of any direction to its end. Routes are
compared number by number, and one that continues another precedes it. -/
namespace EventRules

/-- One route stands before another: smaller where they first differ, or a continuation of it. -/
def Precedes : List ℕ → List ℕ → Prop
  | [], _ => False
  | _ :: _, [] => True
  | a :: p, b :: q => a < b ∨ a = b ∧ Precedes p q

@[simp] theorem not_nil_precedes (q : List ℕ) : ¬ Precedes [] q := by simp [Precedes]

@[simp] theorem cons_precedes_nil (a : ℕ) (p : List ℕ) : Precedes (a :: p) [] := by
  simp [Precedes]

@[simp] theorem cons_precedes_cons (a b : ℕ) (p q : List ℕ) :
    Precedes (a :: p) (b :: q) ↔ a < b ∨ a = b ∧ Precedes p q := by
  simp [Precedes]

/-- The comparison of two routes, decided number by number. -/
def decidePrecedes : (p q : List ℕ) → Decidable (Precedes p q)
  | [], q => .isFalse (not_nil_precedes q)
  | a :: p, [] => .isTrue (cons_precedes_nil a p)
  | a :: p, b :: q =>
    have := decidePrecedes p q
    decidable_of_iff _ (cons_precedes_cons a b p q).symm

instance : DecidableRel Precedes := decidePrecedes

theorem precedes_irrefl (p : List ℕ) : ¬ Precedes p p := by
  induction p with
  | nil => simp
  | cons a p ih => simp [ih]

theorem Precedes.trans {p q r : List ℕ} (hpq : Precedes p q) (hqr : Precedes q r) :
    Precedes p r := by
  induction p generalizing q r with
  | nil => simp at hpq
  | cons a p ih =>
    cases q with
    | nil => simp at hqr
    | cons b q =>
      cases r with
      | nil => simp
      | cons c r =>
        simp only [cons_precedes_cons] at *
        rcases hpq with hab | ⟨rfl, hpq⟩
        · rcases hqr with hbc | ⟨rfl, -⟩
          · exact .inl (hab.trans hbc)
          · exact .inl hab
        · rcases hqr with hbc | ⟨rfl, hqr⟩
          · exact .inl hbc
          · exact .inr ⟨rfl, ih hpq hqr⟩

theorem Precedes.asymm {p q : List ℕ} (h : Precedes p q) : ¬ Precedes q p :=
  fun h' => precedes_irrefl p (h.trans h')

/-- Two different routes are ordered one way or the other. -/
theorem precedes_or_precedes {p q : List ℕ} (h : p ≠ q) : Precedes p q ∨ Precedes q p := by
  induction p generalizing q with
  | nil =>
    cases q with
    | nil => exact absurd rfl h
    | cons b q => simp
  | cons a p ih =>
    cases q with
    | nil => simp
    | cons b q =>
      rcases lt_trichotomy a b with hab | rfl | hab
      · simp [hab]
      · have hpq : p ≠ q := fun hpq => h (by rw [hpq])
        simpa using ih hpq
      · simp [hab]

theorem Precedes.of_not {p q : List ℕ} (h : ¬ Precedes p q) (hne : p ≠ q) : Precedes q p :=
  (precedes_or_precedes hne).resolve_left h

theorem Precedes.of_not_of {p q r : List ℕ} (hqp : ¬ Precedes q p) (hqr : Precedes q r) :
    Precedes p r := by
  by_cases hne : q = p
  · exact hne ▸ hqr
  · exact (Precedes.of_not hqp hne).trans hqr

theorem Precedes.of_of_not {p q r : List ℕ} (hpq : Precedes p q) (hrq : ¬ Precedes r q) :
    Precedes p r := by
  by_cases hne : r = q
  · exact hne ▸ hpq
  · exact hpq.trans (Precedes.of_not hrq hne)

theorem append_precedes_append (r p q : List ℕ) :
    Precedes (r ++ p) (r ++ q) ↔ Precedes p q := by
  induction r with
  | nil => rfl
  | cons a r ih => simp [ih]

theorem append_precedes (p : List ℕ) (x : ℕ) : Precedes (p ++ [x]) p := by
  simpa using append_precedes_append p [x] []

theorem Precedes.append_left {p q : List ℕ} (h : Precedes p q) (s : List ℕ) :
    Precedes (p ++ s) q := by
  have hn : ¬ Precedes p (p ++ s) := by
    simpa using (append_precedes_append p [] s).not.mpr (not_nil_precedes s)
  exact .of_not_of hn h

/-- A route before another one that it does not continue is before its continuations too. -/
theorem Precedes.append {p q : List ℕ} (h : Precedes p q) (hqp : ¬ q <+: p) (s : List ℕ) :
    Precedes p (q ++ s) := by
  induction p generalizing q with
  | nil => simp at h
  | cons a p ih =>
    cases q with
    | nil => simp at hqp
    | cons b q =>
      simp only [cons_precedes_cons, List.cons_append] at *
      rcases h with hab | ⟨rfl, h⟩
      · exact .inl hab
      · exact .inr ⟨rfl, ih h (by simpa using hqp)⟩

/-- A route that does not precede another one, nor is continued by it, still does not when both
take the same further steps. -/
theorem not_append_precedes_append {p q : List ℕ} (h : ¬ Precedes p q) (hpq : p <+: q → p = q)
    (s : List ℕ) : ¬ Precedes (p ++ s) (q ++ s) := by
  by_cases hne : p = q
  · rw [hne]
    exact precedes_irrefl _
  · exact (((Precedes.of_not h hne).append (fun hp => hne (hpq hp)) s).append_left s).asymm

/-- A climb: every item depends on the next one, which has a higher number. -/
def Climbs (R : ℕ → ℕ → Prop) (path : List ℕ) : Prop := path.IsChain fun i j => i < j ∧ R i j

/-- A climb whose last item depends on the item in question; the empty one leads anywhere. -/
def Reaches (R : ℕ → ℕ → Prop) (path : List ℕ) (x : ℕ) : Prop :=
  Climbs R path ∧ ∀ i ∈ path.getLast?, R i x

/-- An item leaves another one behind that it depends on: a route with a step back from a higher
number to the item stands before every route to the other one. -/
def LeavesBehind (R : ℕ → ℕ → Prop) (a b : ℕ) : Prop :=
  R a b ∧ ∃ path, Reaches R path a ∧ (∃ i ∈ path.getLast?, a < i) ∧
    ∀ other, Reaches R other b → Precedes (path ++ [a]) (other ++ [b])

section Reaches

variable {R : ℕ → ℕ → Prop} {path : List ℕ} {i j x : ℕ}

theorem reaches_nil (R : ℕ → ℕ → Prop) (x : ℕ) : Reaches R [] x := by
  simp [Reaches, Climbs]

theorem reaches_append : Reaches R (path ++ [i]) x ↔
    Reaches R path i ∧ (∀ j ∈ path.getLast?, j < i) ∧ R i x := by
  simp only [Reaches, Climbs, List.isChain_append, List.isChain_singleton, List.getLast?_append,
    List.getLast?_singleton, Option.some_or, Option.mem_def, Option.some.injEq, forall_eq',
    List.head?_cons, true_and]
  grind

/-- All items on a climb are numbered below its last one. -/
theorem Reaches.lt_of_mem (h : Reaches R (path ++ [i]) x) (hj : j ∈ path) : j < i := by
  have hp : (path ++ [i]).Pairwise (· < ·) :=
    List.isChain_iff_pairwise.mp (h.1.imp fun _ _ h => h.1)
  exact (List.pairwise_append.mp hp).2.2 j hj i (by simp)

end Reaches

end EventRules
