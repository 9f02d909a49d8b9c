import LessCss.Expression.Scope
import LessCss.Sheet.Basic

/-! Frames: where evaluation stands. A frame is pushed for each ruleset that is
evaluated and for each definition that is expanded; a call leaves variables and
closures behind in the frame that made it.

The scope of a stack of frames has, from the innermost frame outwards, the
variables of the ruleset, the arguments and what calls have left behind, then
the variables and arguments of the rulesets around it, and at last the
variables of the sheet. -/

set_option autoImplicit false

namespace LessCss

/-- The arguments with which a definition around a closure was called. -/
structure Captured (sheet : Sheet) where
  ruleset : sheet.Id
  arguments : Variables

/-- A definition that stays callable after the call around it, with the arguments of that call. -/
structure Closure (sheet : Sheet) where
  ruleset : sheet.Id
  captured : List (Captured sheet)

inductive Purpose where
  /-- The evaluation of a ruleset, or of what stands outside all rulesets. -/
  | ruleset
  /-- The test of the guard of a definition. -/
  | guard
  /-- The expansion of a definition. -/
  | expansion
  deriving DecidableEq, Repr

structure Frame (sheet : Sheet) where
  /-- Nothing for the frame outside all rulesets. -/
  ruleset : Option sheet.Id
  arguments : Variables
  /-- Variables that finished calls have left behind. -/
  returned : Variables
  /-- Closures that finished calls have left behind. -/
  closures : List (Closure sheet)
  /-- Arguments that came with a closure. -/
  captured : List (Captured sheet)
  purpose : Purpose

namespace Frame

variable {sheet : Sheet}

def root : Frame sheet := ⟨none, .empty, .empty, [], [], .ruleset⟩

def ofRuleset (id : sheet.Id) : Frame sheet := ⟨some id, .empty, .empty, [], [], .ruleset⟩

def ofCall (id : sheet.Id) (arguments : Variables) (captured : List (Captured sheet)) : Frame sheet :=
  ⟨some id, arguments, .empty, [], captured, .expansion⟩

/-- Like the frame of a call, but only as long as the guard is tested. -/
def ofGuard (id : sheet.Id) (arguments : Variables) (captured : List (Captured sheet)) : Frame sheet :=
  { ofCall id arguments captured with purpose := .guard }

/-- A definition is seen with its arguments also while its guard is tested. -/
def isCall (frame : Frame sheet) : Bool := frame.purpose != .ruleset

def callee? (frame : Frame sheet) : Option sheet.Id :=
  if frame.isCall then frame.ruleset else none

def addClosures (frame : Frame sheet) (closures : List (Closure sheet)) : Frame sheet :=
  { frame with closures := frame.closures ++ closures }

def addReturned (frame : Frame sheet) (vars : Variables) : Frame sheet :=
  { frame with returned := frame.returned.merge vars }

end Frame

abbrev Stack (sheet : Sheet) := List (Frame sheet)

namespace Stack

variable {sheet : Sheet}

def calls (stack : Stack sheet) : List sheet.Id :=
  stack.filterMap Frame.callee?

def isActive (stack : Stack sheet) (id : sheet.Id) : Bool :=
  stack.calls.contains id

def callOf? (stack : Stack sheet) (id : sheet.Id) : Option (Frame sheet) :=
  stack.find? fun frame => frame.callee? == some id

/-- The arguments of a definition around a frame: those that came with the
closure, else those of the call further out and of what it came with. -/
def outerArguments (frame : Frame sheet) (outer : Stack sheet) (ancestor : sheet.Id) : Scope :=
  match frame.captured.find? fun captured => captured.ruleset = ancestor with
  | some captured => [captured.arguments]
  | none =>
    match outer.callOf? ancestor with
    | some call => call.arguments :: call.captured.map Captured.arguments
    | none => []

def ancestorScope (frame : Frame sheet) (outer : Stack sheet) (ancestor : sheet.Id) : Scope :=
  (sheet.ruleset ancestor).vars ::
    if (sheet.ruleset ancestor).isMixin then outerArguments frame outer ancestor else []

def frameScope (frame : Frame sheet) (outer : Stack sheet) : Scope :=
  match frame.ruleset with
  | none => [frame.returned]
  | some id =>
    (sheet.ruleset id).vars :: frame.arguments :: frame.returned ::
      (sheet.ancestors id).flatMap (ancestorScope frame outer)

def scope : Stack sheet → Scope
  | [] => [sheet.vars]
  | frame :: outer => frameScope frame outer ++ scope outer

def closuresOf (stack : Stack sheet) (ruleset : Option sheet.Id) : List (Closure sheet) :=
  match stack.find? fun frame => frame.ruleset = ruleset with
  | some frame => frame.closures
  | none => []

/-- The arguments that a closure takes along from the calls around its definition. -/
def capture (stack : Stack sheet) (id : sheet.Id) : List (Captured sheet) :=
  (sheet.ancestors id).flatMap fun ancestor =>
    if (sheet.ruleset ancestor).isMixin then
      match stack.callOf? ancestor with
      | some call => ⟨ancestor, call.arguments⟩ :: call.captured
      | none => []
    else []

def idle (calls : List sheet.Id) : Nat :=
  ((List.finRange sheet.rulesets.size).filter fun id => !calls.contains id).length

theorem idle_cons_lt {calls : List sheet.Id} {id : sheet.Id} (fresh : id ∉ calls) :
    idle (id :: calls) < idle calls := by
  have shrink : ((List.finRange sheet.rulesets.size).filter fun key => !(id :: calls).contains key) =
      ((List.finRange sheet.rulesets.size).filter fun key => !calls.contains key).filter (· != id) := by
    rw [List.filter_filter]
    congr 1
    funext key
    simp only [List.contains_cons, Bool.not_or, bne]
  unfold idle
  rw [shrink]
  apply List.length_filter_lt_length_iff_exists.mpr
  exact ⟨id, by simp [fresh], by simp⟩

end Stack

end LessCss
