import LessCss.Evaluation.Frame
import LessCss.Extension

/-! A stack of frames that is driven step by step from outside, with closures
that wait for a frame and directives that wait to be applied. -/

set_option autoImplicit false

namespace LessCss

structure Context (sheet : Sheet) where
  stack : Stack sheet
  extensions : List Extension
  pending : List (Closure sheet)

namespace Context

variable {sheet : Sheet}

def start : Context sheet := ⟨[.root], [], []⟩

def push (context : Context sheet) (frame : Frame sheet) : Context sheet :=
  { context with stack := frame :: context.stack }

def pop (context : Context sheet) : Option (Frame sheet) × Context sheet :=
  (context.stack.head?, { context with stack := context.stack.tail })

def lookup? (context : Context sheet) (name : String) : Option Tokens :=
  context.stack.scope.find? name

def addClosure (context : Context sheet) (closure : Closure sheet) : Context sheet :=
  { context with pending := context.pending ++ [closure] }

def modifyTop (context : Context sheet) (change : Frame sheet → Frame sheet) : Context sheet :=
  match context.stack with
  | [] => context
  | frame :: outer => { context with stack := change frame :: outer }

def saveClosures (context : Context sheet) : Context sheet :=
  { context.modifyTop (·.addClosures context.pending) with pending := [] }

def addReturned (context : Context sheet) (vars : Variables) : Context sheet :=
  context.modifyTop (·.addReturned vars)

def addExtension (context : Context sheet) (extension : Extension) : Context sheet :=
  { context with extensions := context.extensions ++ [extension] }

def takeExtensions (context : Context sheet) : List Extension × Context sheet :=
  (context.extensions, { context with extensions := [] })

end Context

end LessCss
