/-!
# Roles of tokens

A token inside a node plays a role there: it names a variable, separates arguments, or is nothing
but a blank. The tag of a piece of data is that role.
-/

set_option autoImplicit false

namespace Heddle

/-- The role of a piece of text in the node it stands in. One kind of token can have many roles,
as a name has. -/
inductive DataTag where
  | keyword
  /-- What a function declaration does to an earlier one: override it or insert into it. -/
  | modifier
  | punctuation | operator | comparator | combinator
  | number | stringChunk | rawString | color | constant
  | typeName | varName | propertyName | functionName | parameterName
  | elementName | className | idName | flagName | objectKeyword
  /-- The language of an embedded block, in either of its tags. -/
  | language
  | foreignContent
  | whitespace | comment
  | invalid
deriving DecidableEq, Repr

namespace DataTag

/-- The name of a tag in dumps. -/
def name : DataTag → String
  | keyword => "Keyword"
  | modifier => "Modifier"
  | punctuation => "Punctuation"
  | operator => "Operator"
  | comparator => "Comparator"
  | combinator => "Combinator"
  | number => "Number"
  | stringChunk => "StringChunk"
  | rawString => "RawString"
  | color => "Color"
  | constant => "Constant"
  | typeName => "TypeName"
  | varName => "VarName"
  | propertyName => "PropertyName"
  | functionName => "FunctionName"
  | parameterName => "ParameterName"
  | elementName => "ElementName"
  | className => "ClassName"
  | idName => "IdName"
  | flagName => "FlagName"
  | objectKeyword => "ObjectKeyword"
  | language => "Language"
  | foreignContent => "ForeignContent"
  | whitespace => "Whitespace"
  | comment => "Comment"
  | invalid => "Invalid"

/-- Every tag, once. -/
def all : List DataTag :=
  [keyword, modifier, punctuation, operator, comparator, combinator, number, stringChunk,
   rawString, color, constant, typeName, varName, propertyName, functionName, parameterName,
   elementName, className, idName, flagName, objectKeyword, language, foreignContent,
   whitespace, comment, invalid]

/-- The tag of a name. -/
def ofName? (s : String) : Option DataTag :=
  all.find? (·.name == s)

/-- Blanks and comments play no role. A blank that combines two selectors is no trivia in this
sense: it has the role of a combinator. -/
def isTrivia : DataTag → Bool
  | whitespace | comment => true
  | _ => false

/-- A name is read back as the tag it names. -/
theorem ofName?_name (t : DataTag) : ofName? t.name = some t := by
  cases t <;> decide

end DataTag

end Heddle
