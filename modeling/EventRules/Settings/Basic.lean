import EventRules.Host.Path
import EventRules.Phases
import EventRules.Text.Blank

/-!
Settings of the compiler: the phase names and the place of a catalog. They come from environment
variables, of which blank ones count as unset.
-/
namespace EventRules

structure Settings where
  phases : Phases := {}
  catalog : Option Path := none
  deriving DecidableEq

namespace Settings

def entryVariable : String := "RULEMAP_ENTRY_PHASE"

def runVariable : String := "RULEMAP_RUN_PHASE"

def publishVariable : String := "RULEMAP_PUBLISH_PHASE"

def catalogVariable : String := "RULEMAP_SCHEMA_CATALOG"

def variableNames : List String := [entryVariable, runVariable, publishVariable, catalogVariable]

/-- The settings in an environment. Values are taken as they are, unless they are blank. -/
def ofEnvironment (lookup : String → Option String) : Settings :=
  let read (name : String) := (lookup name).filter fun value => !Text.isBlank value
  let defaults : Phases := {}
  { phases :=
      { entry := (read entryVariable).getD defaults.entry
        run := (read runVariable).getD defaults.run
        publish := (read publishVariable).getD defaults.publish }
    catalog := (read catalogVariable).map Path.ofText }

def withEntry (s : Settings) (phase : String) : Settings :=
  { s with phases := { s.phases with entry := phase } }

def withRun (s : Settings) (phase : String) : Settings :=
  { s with phases := { s.phases with run := phase } }

def withPublish (s : Settings) (phase : String) : Settings :=
  { s with phases := { s.phases with publish := phase } }

def withCatalog (s : Settings) (path : Path) : Settings := { s with catalog := some path }

end Settings

end EventRules
