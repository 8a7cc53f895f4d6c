import EventRules.Schema.Violation

/-!
The schemas of event type documents and of catalog documents. An event type document maps event
types to lists of distinct, filled field paths; a catalog document maps versions to such maps.
Neither document is empty, though a version of a catalog may be.
-/
namespace EventRules.Schema

def fieldPaths : Schema := distinctItems filledText

def eventTypes : Schema := fun value => someMember value ++ everyMember fieldPaths value

def catalog : Schema := fun value =>
  someMember value ++ everyMember (everyMember fieldPaths) value

end EventRules.Schema
