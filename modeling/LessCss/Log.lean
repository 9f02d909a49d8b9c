import LessCss.Error

/-! What a run reports beside its result: a list of entries, kept also when the
run fails. -/

set_option autoImplicit false

namespace LessCss

inductive Level where
  | error
  | warn
  | info
  | debug
  | trace
  deriving DecidableEq, Repr

def Level.rank : Level → Nat
  | .error => 0
  | .warn => 1
  | .info => 2
  | .debug => 3
  | .trace => 4

structure LogEntry where
  level : Level
  message : String
  deriving DecidableEq, Repr

abbrev Log := List LogEntry

/-- The entries that are at least as urgent as a level, in the order in which they were made. -/
def Log.atLevel (log : Log) (level : Level) : List LogEntry :=
  (log.filter fun entry => entry.level.rank ≤ level.rank).reverse

abbrev Logged := EStateM Error Log

namespace Logged

def report (level : Level) (message : String) : Logged Unit :=
  modify (⟨level, message⟩ :: ·)

def ofExcept {α : Type} : Except Error α → Logged α
  | .ok value => pure value
  | .error error => throw error

theorem ofExcept_bind {α β : Type} (first : Except Error α) (next : α → Except Error β) :
    ofExcept (first >>= next) = ofExcept first >>= fun value => ofExcept (next value) := by
  cases first <;> rfl

def outcome {α : Type} (action : Logged α) : Except Error α × Log :=
  match action.run [] with
  | .ok value log => (.ok value, log)
  | .error error log => (.error error, log)

end Logged

end LessCss
