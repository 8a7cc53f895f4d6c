import EventRules.Json.Token

/-!
Reading JSON texts. A machine takes the tokens one by one over a stack of open containers; a
repeated key keeps its first place and takes its last value. A fault of the grammar is reported
where the text stops being the start of a JSON text, and a text that stays one to its end without
being complete is truncated.
-/
namespace EventRules.Json

/-- A container that is open around the value to come. -/
inductive Frame where
  /-- An array, with its items so far in reverse. -/
  | array (done : List Json)
  /-- An object, with its members so far and the key of the value to come. -/
  | object (done : List (String × Json)) (key : String)

/-- What may stand next, and the containers that are open. -/
inductive State where
  /-- A value. -/
  | value (stack : List Frame)
  /-- The first item of an array, or its end. -/
  | firstItem (stack : List Frame)
  /-- The first key of an object, or its end. -/
  | firstKey (stack : List Frame)
  /-- A further key of an object. -/
  | nextKey (members : List (String × Json)) (stack : List Frame)
  /-- The colon after a key. -/
  | colon (members : List (String × Json)) (key : String) (stack : List Frame)
  /-- What follows a complete value: a comma or an end, or nothing at the outermost level. -/
  | complete (value : Json) (stack : List Frame)

def startValue (limit : Nat) (stack : List Frame) : Token → Except JsonFault State
  | .openArray => if stack.length < limit then .ok (.firstItem stack) else .error .malformed
  | .openObject => if stack.length < limit then .ok (.firstKey stack) else .error .malformed
  | .scalar value => .ok (.complete value stack)
  | .text value => .ok (.complete (.text value) stack)
  | _ => .error .malformed

/-- One token. The limit is the number of containers that may be open at a time. -/
def State.step (limit : Nat) : State → Token → Except JsonFault State
  | .value stack, token => startValue limit stack token
  | .firstItem stack, .closeArray => .ok (.complete (.array []) stack)
  | .firstItem stack, token => startValue limit (.array [] :: stack) token
  | .firstKey stack, .closeObject => .ok (.complete (.object []) stack)
  | .firstKey stack, .text key => .ok (.colon [] key stack)
  | .nextKey members stack, .text key => .ok (.colon members key stack)
  | .colon members key stack, .colon => .ok (.value (.object members key :: stack))
  | .complete v (.array done :: stack), .comma => .ok (.value (.array (v :: done) :: stack))
  | .complete v (.array done :: stack), .closeArray =>
    .ok (.complete (.array (v :: done).reverse) stack)
  | .complete v (.object done key :: stack), .comma =>
    .ok (.nextKey (Ordered.insert key v done) stack)
  | .complete v (.object done key :: stack), .closeObject =>
    .ok (.complete (.object (Ordered.insert key v done)) stack)
  | _, _ => .error .malformed

/-- The fault to report when the next token is faulty: its own where a token of its kind may
stand, otherwise that it may not stand there. -/
def State.reject : State → JsonFault → Bool → JsonFault
  | .value _, fault, _ => fault
  | .firstItem _, fault, _ => fault
  | .firstKey _, fault, quoted => if quoted then fault else .malformed
  | .nextKey _ _, fault, quoted => if quoted then fault else .malformed
  | _, _, _ => .malformed

def State.run (limit : Nat) : State → Lexed → Except JsonFault Json
  | .complete v [], .finished => .ok v
  | _, .finished => .error .truncated
  | state, .broken fault quoted => .error (state.reject fault quoted)
  | state, .token first rest =>
    match state.step limit first with
    | .ok next => next.run limit rest
    | .error fault => .error fault

/-- Read a JSON text with at most `limit` containers open at a time. -/
def parseWithin (limit : Nat) (source : String) : Except JsonFault Json :=
  (State.value []).run limit (lex source.toList)

/-- The number of containers that a text may have open at a time. -/
def maxOpen : Nat := 127

def parse (source : String) : Except JsonFault Json := parseWithin maxOpen source

end EventRules.Json
