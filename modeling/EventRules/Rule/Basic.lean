import EventRules.Action.Basic

/-!
Rules and rulesets. A rule is a condition with actions in their order; it may belong to a group and
run in a phase of its own. A ruleset is an ordered table of rules under their identifiers, and the
order is the order of execution. Optional texts count as absent when they are blank, and are
trimmed where they are used.
-/
namespace EventRules

structure Rule where
  uid : String := ""
  description : String := ""
  actions : List Action := []
  condition : Option Condition := none
  groupId : Option String := none
  phaseName : Option String := none
  entryPhase : Option String := none
  publishPhase : Option String := none
  notifyId : Option String := none
  version : Option String := none
  eventType : Option String := none

namespace Rule

instance : Inhabited Rule := ⟨{}⟩

def group? (r : Rule) : Option String := Text.nonBlank r.groupId

def phase? (r : Rule) : Option String := Text.nonBlank r.phaseName

def entry? (r : Rule) : Option String := Text.nonBlank r.entryPhase

def publish? (r : Rule) : Option String := Text.nonBlank r.publishPhase

def notify? (r : Rule) : Option String := Text.nonBlank r.notifyId

/-- The phase in which the rule runs: its own, or else the run phase. -/
def phaseOr (run : String) (r : Rule) : String := r.phase?.getD run

/-- The expressions that the actions and then the condition read. -/
def sources (r : Rule) : List String :=
  r.actions.flatMap Action.sources ++ (r.condition.map Condition.sources).getD []

/-- A rule with an identifier: its own unless that is blank, and then the fresh one. -/
def identified (fresh : String) (r : Rule) : Rule :=
  if Text.isBlank r.uid then { r with uid := fresh } else r

def withAction (r : Rule) (action : Action) : Rule := { r with actions := r.actions ++ [action] }

end Rule

structure RuleSet where
  version : Option String := none
  eventType : Option String := none
  notifyId : Option String := none
  entryPhase : Option String := none
  publishPhase : Option String := none
  entries : List (String × Rule) := []

namespace RuleSet

instance : Inhabited RuleSet := ⟨{}⟩

def rules (s : RuleSet) : List Rule := s.entries.map (·.2)

def ids (s : RuleSet) : List String := Ordered.keys s.entries

def size (s : RuleSet) : Nat := s.entries.length

def get? (s : RuleSet) (uid : String) : Option Rule := s.entries.lookup uid

/-- Put a rule under its identifier, which is the fresh one when it has none. A rule that was
there is replaced at its place. -/
def add (fresh : String) (rule : Rule) (s : RuleSet) : String × RuleSet :=
  let rule := rule.identified fresh
  (rule.uid, { s with entries := Ordered.insert rule.uid rule s.entries })

/-- The ruleset of some rules, added in order; the i-th rule may take the i-th fresh identifier. -/
def ofRules (fresh : Nat → String) (rules : List Rule) : RuleSet :=
  rules.zipIdx.foldl (fun s entry => (s.add (fresh entry.2) entry.1).2) {}

def remove (uid : String) (s : RuleSet) : RuleSet :=
  { s with entries := Ordered.erase uid s.entries }

def removeGroup (group : String) (s : RuleSet) : Nat × RuleSet :=
  let kept := s.entries.filter fun entry => entry.2.group? ≠ some group
  (s.size - kept.length, { s with entries := kept })

/-- Give each rule the identifier under which it stands. -/
def syncIds (s : RuleSet) : RuleSet :=
  { s with entries := s.entries.map fun entry => (entry.1, { entry.2 with uid := entry.1 }) }

/-- What the ruleset declares itself, or else the first rule that declares it. -/
def declared (own : Option String) (ofRule : Rule → Option String) (s : RuleSet) :
    Option String :=
  (Text.nonBlank own).or (s.rules.findSome? ofRule)

def notify? (s : RuleSet) : Option String := s.declared s.notifyId Rule.notify?

def entry? (s : RuleSet) : Option String := s.declared s.entryPhase Rule.entry?

def publish? (s : RuleSet) : Option String := s.declared s.publishPhase Rule.publish?

end RuleSet

end EventRules
