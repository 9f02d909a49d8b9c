import LessCss.Token.Basic
import LessCss.Value.Kind

/-! The causes for which a compilation fails, and their texts. -/

set_option autoImplicit false

namespace LessCss

inductive Expectation where
  | commentEnd
  | stringEnd
  | urlEnd
  | endOfInput
  | block
  | blockEnd
  | selector
  | variableValue
  | closingParen
  | operand
  | condition
  | conjunction
  | statement
  deriving DecidableEq, Repr

def Expectation.text : Expectation → String
  | .commentEnd => "注释结束标记 '*/'"
  | .stringEnd => "字符串结束引号"
  | .urlEnd => "url 结束括号 ')'"
  | .endOfInput => "输入结尾"
  | .block => "声明块 ('\x7b...\x7d')"
  | .blockEnd => "块结束 ('\x7d')"
  | .selector => "选择器"
  | .variableValue => "变量的值"
  | .closingParen => "')'"
  | .operand => "常量或 @ 变量"
  | .condition => "条件"
  | .conjunction => "'and' 或条件结束"
  | .statement => "变量、mixin 或声明"

inductive ValueFault where
  | undefinedVariable (name : String)
  | undefinedHole (name : String)
  | recursiveVariable (name : String)
  | notBoolean (kind : ValueKind)
  | operation (cause : OperationError)
  | unclosedGroup
  | unknownFunction (name : String)
  | signatureMismatch (signature : String)
  | looseDeclaration (property : String)
  | noDefinition
  deriving DecidableEq, Repr

def ValueFault.text : ValueFault → String
  | .undefinedVariable name => "未定义的变量 " ++ name
  | .undefinedHole name => "插值引用了未定义的变量 " ++ name
  | .recursiveVariable name => "变量 " ++ name ++ " 递归引用了自身"
  | .notBoolean kind => "条件必须得到布尔值，实际得到 " ++ kind.name
  | .operation cause => cause.message
  | .unclosedGroup => "括号没有闭合，缺少 ')'"
  | .unknownFunction name => "未知函数 " ++ name
  | .signatureMismatch signature => "参数不符合函数签名 " ++ signature
  | .looseDeclaration property => "顶层 mixin 调用产生了无法附加的声明 " ++ property
  | .noDefinition => "没有匹配的 mixin 定义，也不是合法的声明"

inductive FileFault where
  | missing
  | directory
  | notText
  deriving DecidableEq, Repr

def FileFault.text : FileFault → String
  | .missing => "No such file or directory (os error 2)"
  | .directory => "Is a directory (os error 21)"
  | .notText => "stream did not contain valid UTF-8"

inductive Error where
  | parse (position : Position) (found : String) (expected : Expectation)
  | value (position : Position) (found : String) (fault : ValueFault)
  | cyclicMixin (position : Position) (name : String)
  | file (path : String) (fault : FileFault)
  deriving DecidableEq, Repr

namespace Error

def message : Error → String
  | .parse position found expected =>
    position.text ++ " 解析失败: 遇到 `" ++ found ++ "`，期待 " ++ expected.text
  | .value position found fault =>
    position.text ++ " 求值失败: `" ++ found ++ "`: " ++ fault.text
  | .cyclicMixin position name => position.text ++ " 检测到循环调用的 mixin: " ++ name
  | .file path fault => "读取文件 " ++ path ++ " 失败: " ++ fault.text

def unexpected (token : Token) (expected : Expectation) : Error :=
  .parse token.position token.shown expected

def faulty (token : Token) (fault : ValueFault) : Error :=
  .value token.position token.shown fault

end Error

end LessCss
