import LessCss.Evaluation.Sheet
import LessCss.Function.Builtin
import LessCss.Sheet.Read

/-! Compilation of LESS texts to CSS texts. -/

set_option autoImplicit false

namespace LessCss

def defaultSourceName : String := "<input>"

structure Options where
  minify : Bool
  sourceName : Option String
  deriving DecidableEq, Repr

def Css.print (minify : Bool) (nodes : Css.Stylesheet) : String :=
  if minify then Css.minified nodes else Css.pretty nodes

def compileWith (library : Library) (options : Options) (text : String) : Logged String := do
  let sheet ← Sheet.read (options.sourceName.getD defaultSourceName) text
  return Css.print options.minify (← sheet.evaluate library)

def compile (options : Options) (text : String) : Logged String :=
  compileWith .builtin options text

/-- Compiles a file, given its bytes or the reason why there are none. The path
names the text in messages unless the options do. -/
def compileFile (options : Options) (path : String) (content : Except FileFault ByteArray) : Logged String :=
  match content with
  | .error fault => throw (.file path fault)
  | .ok bytes =>
    match String.fromUTF8? bytes with
    | none => throw (.file path .notText)
    | some text => compile { options with sourceName := options.sourceName.or (some path) } text

end LessCss
