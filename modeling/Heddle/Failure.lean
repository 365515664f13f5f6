import Heddle.Token
import Heddle.Diagnostic

/-!
# Why a construct could not be read

A construct fails for one of four causes, at the place of the token that could not be used. The
wording of each cause is decided here and nowhere else.
-/

set_option autoImplicit false

namespace Heddle

/-- What the grammar asks for at a place. Each case is one phrase of the messages, so a message
can be read back as what was wanted. -/
inductive Wanted where
  | mark (m : Mark)
  | keyword (word : String)
  | name | variableName | functionName | parameterName | typeName | builtinName
  | loopVariable | configurationName
  | type | selector | expression | statement | hexColor | foreignBlock | string
  /-- The sign between the target of an assignment and its value. -/
  | assignmentSign
  /-- Another branch of a switch, or its end. -/
  | branchOrEnd
deriving DecidableEq, Repr

/-- How it is called in a diagnostic: a text of the language stands in quotes, but for a keyword. -/
def Wanted.text : Wanted → String
  | .mark m => "'" ++ m.spelling ++ "'"
  | .keyword word => word
  | .name => "name"
  | .variableName => "variable name"
  | .functionName => "function name"
  | .parameterName => "parameter name"
  | .typeName => "type name"
  | .builtinName => "builtin name"
  | .loopVariable => "loop variable"
  | .configurationName => "configuration name"
  | .type => "type"
  | .selector => "selector"
  | .expression => "expression"
  | .statement => "statement"
  | .hexColor => "hex color"
  | .foreignBlock => "foreign block"
  | .string => "string"
  | .assignmentSign => "':' or '='"
  | .branchOrEnd => "'case', 'default' or '\x7d'"

/-- Why a construct failed. Only the first cause quotes the source, by the text of the token that
was found. -/
inductive Cause where
  /-- Something else stands where the grammar asks for `wanted`; `none` for the end of the text. -/
  | expected (wanted : Wanted) (found : Option String)
  /-- A keyword that only goes on with a statement begins one. -/
  | orphan (word : String)
  /-- A brace that closes nothing. -/
  | strayBrace
  | tooDeep
deriving DecidableEq, Repr

/-- The message of a cause. -/
def Cause.message : Cause → String
  | .expected wanted (some found) => "expected " ++ wanted.text ++ ", found '" ++ found ++ "'"
  | .expected wanted none => "expected " ++ wanted.text ++ ", found end of input"
  | .orphan word => "'" ++ word ++ "' without a matching statement"
  | .strayBrace => "unexpected '\x7d'"
  | .tooDeep => "nesting too deep"

/-- A cause with the place where it shows. -/
structure Failure where
  cause : Cause
  position : Position
deriving DecidableEq, Repr

/-- The diagnostic of a failure in a file. -/
def Failure.diagnostic (file : Option String) (f : Failure) : Diagnostic :=
  ⟨f.cause.message, file, f.position.line, f.position.column⟩

end Heddle
