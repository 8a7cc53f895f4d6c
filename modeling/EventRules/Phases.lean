/-!
The names of the three phases around the blocks of the rules.
-/
namespace EventRules

/-- The phase that is entered first, the phase of the rules that have none of their own, and the
phase that is run last. -/
structure Phases where
  entry : String := "snmp_map"
  run : String := "phase_1"
  publish : String := "map_publish"
  deriving DecidableEq

namespace Phases

/-- The names, with declared ones in place of entry and publish. -/
def override (p : Phases) (entry publish : Option String) : Phases :=
  { p with entry := entry.getD p.entry, publish := publish.getD p.publish }

end Phases

end EventRules
