import EventRules.Proofs.Check.Additive
import EventRules.Proofs.Correspondence

/-! Checks that give the same answer, while the problems that they name may differ. -/
namespace EventRules.Check

/-- Both checks accept or neither does, whatever was found before. -/
def Agrees (check check' : Check) : Prop := ∀ found found', (check found).1 = (check' found').1

variable {α β : Type} {R : α → β → Prop} {check check' first first' second second' : Check}
  {problem problem' : Problem}

theorem Agrees.accepts_eq (h : check.Agrees check') : check.accepts = check'.accepts := h [] []

theorem agrees_pass : pass.Agrees pass := fun _ _ => rfl

theorem agrees_report : (report problem).Agrees (report problem') := fun _ _ => rfl

theorem agrees_require {holds holds' : Bool} (h : holds = holds') :
    (require holds problem).Agrees (require holds' problem') := by
  subst h
  cases holds
  · exact agrees_report
  · exact agrees_pass

theorem Agrees.both (hf : first.Agrees first') (hs : second.Agrees second') :
    (Check.both first second).Agrees (Check.both first' second') := by
  intro found found'
  show ((first found).1 && (second (first found).2).1) =
    ((first' found').1 && (second' (first' found').2).1)
  rw [hf found found', hs (first found).2 (first' found').2]

theorem agrees_all {checks checks' : List Check} (h : List.Forall₂ Agrees checks checks') :
    (all checks).Agrees (all checks') := by
  induction h with
  | nil => exact agrees_pass
  | cons hfirst _ ih => exact hfirst.both ih

theorem agrees_each {check : α → Check} {check' : β → Check}
    (hcheck : ∀ a b, R a b → (check a).Agrees (check' b)) {as : List α} {bs : List β}
    (h : List.Forall₂ R as bs) : (each check as).Agrees (each check' bs) :=
  agrees_all (List.rel_map hcheck h)

theorem agrees_option {check : α → Check} {check' : β → Check}
    (hcheck : ∀ a b, R a b → (check a).Agrees (check' b)) {a? : Option α} {b? : Option β}
    (h : Option.Rel R a? b?) : ((a?.map check).getD pass).Agrees ((b?.map check').getD pass) := by
  cases h with
  | none => exact agrees_pass
  | some hab => exact hcheck _ _ hab

theorem Agrees.problems_eq_nil_iff (h : check.Agrees check') (hb : check.Built)
    (hb' : check'.Built) : check.problems = [] ↔ check'.problems = [] := by
  rw [hb.problems_eq_nil_iff, hb'.problems_eq_nil_iff, h.accepts_eq]

end EventRules.Check
