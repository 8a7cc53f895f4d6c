import EventRules.Json.Sentinel
import EventRules.Phases
import EventRules.Processor
import EventRules.Rule.Basic

/-!
Pipeline documents. A document is a list of blocks, each with the phase in which it runs, perhaps
a filter, and processors. The first block is entered from outside and jumps to the rules, the last
one belongs to the run phase and jumps to the publish phase, and between them stands a block for
each rule.

Where some rule has a group, the rules are collected by group, and the last block before a phase
that was not entered yet jumps to it; in the end the run phase is entered if no group has it.
-/
namespace EventRules

structure PhaseBlock where
  phase : String
  filter : Option Filter := none
  processors : List Processor := []

namespace PhaseBlock

def jumpingTo (phase : String) (b : PhaseBlock) : PhaseBlock :=
  { b with processors := b.processors ++ [.runPhase phase] }

def toJson (b : PhaseBlock) : Json :=
  .record
    [some ("phase", .text b.phase), b.filter.map fun f => ("filter", f.toJson),
      some ("processors", .array (b.processors.map Processor.toJson))]

end PhaseBlock

structure Pipeline where
  blocks : List PhaseBlock

namespace Pipeline

/-- A document as it stands, with the sentinel for the empty text. -/
def toRawJson (p : Pipeline) : Json :=
  .object [("processing", .array (p.blocks.map PhaseBlock.toJson))]

def toJson (p : Pipeline) : Json := p.toRawJson.unquote

end Pipeline

/-- The entry phase whose events have to be converted first. -/
def snmpEntryPhase : String := "snmp_map"

namespace Rule

def filter? (r : Rule) : Except FilterFault (Option Filter) :=
  match r.condition with
  | none => .ok none
  | some condition => condition.filter.map some

def block (phases : Phases) (r : Rule) : Except FilterFault PhaseBlock :=
  match r.filter? with
  | .error fault => .error fault
  | .ok filter =>
    (Action.processors r.actions).map fun processors =>
      { phase := r.phaseOr phases.run, filter, processors }

def blocks (phases : Phases) : List Rule → Except FilterFault (List PhaseBlock)
  | [] => .ok []
  | r :: rest =>
    match r.block phases with
    | .error fault => .error fault
    | .ok first => (blocks phases rest).map fun others => first :: others

end Rule

/-- The items collected by a key: a list for each key, in the order in which keys first occur. -/
def collectBy {α κ : Type} [BEq κ] (key : α → κ) (items : List α) : List (List α) :=
  let put := fun (buckets : List (κ × List α)) (item : α) =>
    if buckets.any fun bucket => bucket.1 == key item then
      buckets.map fun bucket =>
        if bucket.1 == key item then (bucket.1, bucket.2 ++ [item]) else bucket
    else buckets ++ [(key item, [item])]
  (items.foldl put []).map (·.2)

def changeLast {α : Type} (change : α → α) : List α → List α
  | [] => []
  | [a] => [change a]
  | a :: rest => a :: changeLast change rest

namespace Pipeline

/-- The phase of a group, which is that of its first rule. -/
def groupPhase (phases : Phases) (group : List Rule) : String :=
  ((group.head?).map (Rule.phaseOr phases.run)).getD phases.run

/-- The phases entered with a group: those before it, and its own. -/
def enter (entered : List String) (phase : String) : List String :=
  if entered.contains phase then entered else entered ++ [phase]

/-- The blocks of groups, with a jump at the end of each group whose successor has a phase that
was not entered yet. The run phase succeeds the last group. -/
def chain (phases : Phases) (entered : List String) :
    List (List Rule) → Except FilterFault (List PhaseBlock)
  | [] => .ok []
  | group :: rest =>
    let entered := enter entered (groupPhase phases group)
    let next := ((rest.head?).map (groupPhase phases)).getD phases.run
    match Rule.blocks phases group with
    | .error fault => .error fault
    | .ok own =>
      let own := if entered.contains next then own else changeLast (·.jumpingTo next) own
      (chain phases entered rest).map fun others => own ++ others

/-- The first block: it converts events where the entry phase asks for that, and jumps to the
first phase of the rules. -/
def entryBlock (phases : Phases) (notify : Option String) (first : String) : PhaseBlock :=
  { phase := phases.entry
    filter := notify.map Filter.forNotification
    processors :=
      (if phases.entry = snmpEntryPhase then [.convertSnmp] else []) ++ [.runPhase first] }

def publishBlock (phases : Phases) : PhaseBlock :=
  { phase := phases.run, processors := [.runPhase phases.publish] }

def ruleBlocks (phases : Phases) (s : RuleSet) : Except FilterFault (String × List PhaseBlock) :=
  if s.rules.any fun r => r.group?.isSome then
    let groups := collectBy Rule.group? s.rules
    let first := ((groups.head?).map (groupPhase phases)).getD phases.run
    (chain phases [] groups).map fun blocks => (first, blocks)
  else (Rule.blocks phases s.rules).map fun blocks => (phases.run, blocks)

def ofRuleSet (phases : Phases) (s : RuleSet) : Except FilterFault Pipeline :=
  (ruleBlocks phases s).map fun (first, blocks) =>
    ⟨entryBlock phases s.notify? first :: blocks ++ [publishBlock phases]⟩

end Pipeline

end EventRules
