/-!
# Kinds of nodes

Every construct of the language has a kind, and every kind a name, under which the kind is shown
in tree dumps. No two kinds share a name, so a name can be read back.
-/

set_option autoImplicit false

namespace Heddle

/-- What construct a node stands for. Several productions can share a kind: what a type, an
expression or a combinator looks like is told by the content of the node. -/
inductive NodeKind where
  | document | block
  -- literals
  | number | string | rawString | constant | color | array
  -- types
  | type | functionType | pointerType | multipleType | objectType | arrayType | mapType
  -- declarations and expressions
  | declaration | assignment | expression | unary | valuePath | indexAccessor
  -- the selection of elements
  | selector | objectSelector | combinator | filter | flag | selectorChain | rule
  | objectDefinition
  -- functions
  | functionDeclaration | parameter | functionCall | selectorCall | singleArgumentCall
  | builtinCall | argument
  -- the flow of control
  | ifStatement | elseBranch | switchStatement | caseBranch | defaultBranch
  | loopStatement | forStatement | finallyBranch
  | returnStatement | repeatStatement | breakStatement | continueStatement
  -- instructions
  | newObject | needs | configure | foreign
  /-- Tokens skipped behind an error. -/
  | invalid
deriving DecidableEq, Repr

namespace NodeKind

/-- The name of a kind in dumps and style classes. -/
def name : NodeKind → String
  | document => "document"
  | block => "block"
  | number => "number"
  | string => "string"
  | rawString => "raw-string"
  | constant => "constant"
  | color => "color"
  | array => "array"
  | type => "type"
  | functionType => "function-type"
  | pointerType => "pointer-type"
  | multipleType => "multiple-type"
  | objectType => "object-type"
  | arrayType => "array-type"
  | mapType => "map-type"
  | declaration => "declaration"
  | assignment => "assignment"
  | expression => "expression"
  | unary => "unary"
  | valuePath => "value-path"
  | indexAccessor => "index-accessor"
  | selector => "selector"
  | objectSelector => "object-selector"
  | combinator => "combinator"
  | filter => "filter"
  | flag => "flag"
  | selectorChain => "selector-chain"
  | rule => "rule"
  | objectDefinition => "object-definition"
  | functionDeclaration => "function-declaration"
  | parameter => "parameter"
  | functionCall => "function-call"
  | selectorCall => "selector-call"
  | singleArgumentCall => "single-argument-call"
  | builtinCall => "builtin-call"
  | argument => "argument"
  | ifStatement => "if"
  | elseBranch => "else"
  | switchStatement => "switch"
  | caseBranch => "case"
  | defaultBranch => "default"
  | loopStatement => "loop"
  | forStatement => "for"
  | finallyBranch => "finally"
  | returnStatement => "return"
  | repeatStatement => "repeat"
  | breakStatement => "break"
  | continueStatement => "continue"
  | newObject => "new"
  | needs => "needs"
  | configure => "configure"
  | foreign => "foreign"
  | invalid => "invalid"

/-- Every kind, once. -/
def all : List NodeKind :=
  [document, block, number, string, rawString, constant, color, array,
   type, functionType, pointerType, multipleType, objectType, arrayType, mapType,
   declaration, assignment, expression, unary, valuePath, indexAccessor,
   selector, objectSelector, combinator, filter, flag, selectorChain, rule, objectDefinition,
   functionDeclaration, parameter, functionCall, selectorCall, singleArgumentCall, builtinCall,
   argument, ifStatement, elseBranch, switchStatement, caseBranch, defaultBranch,
   loopStatement, forStatement, finallyBranch,
   returnStatement, repeatStatement, breakStatement, continueStatement,
   newObject, needs, configure, foreign, invalid]

/-- The kind of a name. -/
def ofName? (s : String) : Option NodeKind :=
  all.find? (·.name == s)

/-- A name is read back as the kind it names. -/
theorem ofName?_name (k : NodeKind) : ofName? k.name = some k := by
  cases k <;> decide

end NodeKind

end Heddle
