/-! The kinds of syntax that nodes have, with the name and the number each goes by. -/

namespace Lossless

inductive Kind where
  | token
  | newline
  | program
  | statement
  | statementList
  | enclosedBody
  | expression
  | assignment
  | returnStatement
  | identifier
  | call
  | importStatement
  | importList
  | function
  | method
  | classDefinition
  | member
  | classMemberList
  | property
  | typeReference
  | typeOptional
  | returnTypeOptional
  | extendsType
  | extendsOptional
  | extendsList
  | extendsListOptional
  | decorator
  | decoratorList
  | parameter
  | parameterList
  | parameterListOptional
  | namedParameterList
  | namedParameterListOptional
  | parameters
  | argument
  | argumentList
  | argumentListOptional
  | ifStatement
  | condition
  | elseClause
  | elseClauseOptional
  | elseIfClause
  | elseIfClauseList
  | tryStatement
  | catchClause
  | catchClauseList
  | finallyClause
  | finallyClauseOptional
  | comment
  | commentText
deriving DecidableEq, Inhabited, Repr

namespace Kind

def all : List Kind := [
  .token, .newline, .program, .statement, .statementList, .enclosedBody, .expression,
  .assignment, .returnStatement, .identifier, .call, .importStatement, .importList, .function,
  .method, .classDefinition, .member, .classMemberList, .property, .typeReference, .typeOptional,
  .returnTypeOptional, .extendsType, .extendsOptional, .extendsList, .extendsListOptional,
  .decorator, .decoratorList, .parameter, .parameterList, .parameterListOptional,
  .namedParameterList, .namedParameterListOptional, .parameters, .argument, .argumentList,
  .argumentListOptional, .ifStatement, .condition, .elseClause, .elseClauseOptional,
  .elseIfClause, .elseIfClauseList, .tryStatement, .catchClause, .catchClauseList,
  .finallyClause, .finallyClauseOptional, .comment, .commentText]

def name : Kind → String
  | .token => "token"
  | .newline => "newline"
  | .program => "program"
  | .statement => "statement"
  | .statementList => "statement_list"
  | .enclosedBody => "enclosed_body"
  | .expression => "expression"
  | .assignment => "assignment"
  | .returnStatement => "return"
  | .identifier => "identifier"
  | .call => "call"
  | .importStatement => "import"
  | .importList => "import_list"
  | .function => "function"
  | .method => "method"
  | .classDefinition => "class"
  | .member => "member"
  | .classMemberList => "class_member_list"
  | .property => "property"
  | .typeReference => "type"
  | .typeOptional => "type_optional"
  | .returnTypeOptional => "return_type_optional"
  | .extendsType => "extends_type"
  | .extendsOptional => "extends_optional"
  | .extendsList => "extends_list"
  | .extendsListOptional => "extends_list_optional"
  | .decorator => "decorator"
  | .decoratorList => "decorator_list"
  | .parameter => "parameter"
  | .parameterList => "parameter_list"
  | .parameterListOptional => "parameter_list_optional"
  | .namedParameterList => "named_parameter_list"
  | .namedParameterListOptional => "named_parameter_list_optional"
  | .parameters => "parameters"
  | .argument => "argument"
  | .argumentList => "argument_list"
  | .argumentListOptional => "argument_list_optional"
  | .ifStatement => "if"
  | .condition => "condition"
  | .elseClause => "else_clause"
  | .elseClauseOptional => "else_clause_optional"
  | .elseIfClause => "else_if_clause"
  | .elseIfClauseList => "else_if_clause_list"
  | .tryStatement => "try"
  | .catchClause => "catch_clause"
  | .catchClauseList => "catch_clause_list"
  | .finallyClause => "finally_clause"
  | .finallyClauseOptional => "finally_clause_optional"
  | .comment => "comment"
  | .commentText => "comment_text"

def number : Kind → Nat
  | .token => 0
  | .newline => 1
  | .program => 10
  | .statement => 11
  | .statementList => 12
  | .enclosedBody => 13
  | .expression => 14
  | .assignment => 15
  | .returnStatement => 16
  | .identifier => 17
  | .call => 18
  | .importStatement => 50
  | .importList => 51
  | .function => 52
  | .method => 53
  | .classDefinition => 54
  | .member => 55
  | .classMemberList => 56
  | .property => 57
  | .typeReference => 58
  | .typeOptional => 59
  | .returnTypeOptional => 60
  | .extendsType => 61
  | .extendsOptional => 62
  | .extendsList => 63
  | .extendsListOptional => 64
  | .decorator => 65
  | .decoratorList => 66
  | .parameter => 100
  | .parameterList => 101
  | .parameterListOptional => 102
  | .namedParameterList => 103
  | .namedParameterListOptional => 104
  | .parameters => 105
  | .argument => 106
  | .argumentList => 107
  | .argumentListOptional => 108
  | .ifStatement => 150
  | .condition => 151
  | .elseClause => 152
  | .elseClauseOptional => 153
  | .elseIfClause => 154
  | .elseIfClauseList => 155
  | .tryStatement => 156
  | .catchClause => 157
  | .catchClauseList => 158
  | .finallyClause => 159
  | .finallyClauseOptional => 160
  | .comment => 200
  | .commentText => 201

def ofName? (name : String) : Option Kind :=
  all.find? (·.name == name)

/-- Kinds of tokens; every other kind is a container's. -/
def isToken : Kind → Bool
  | .token | .newline => true
  | _ => false

def isComment : Kind → Bool
  | .comment | .commentText => true
  | _ => false

end Kind

end Lossless
