import Lossless.Grammar.Basic

/-! The JavaScript grammar: bodies in braces, clauses on the line of the closing brace. -/

namespace Lossless.Grammar

def javaScript : Grammar where
  language := .javaScript
  indentWidth := 2
  shapes := [
    (.statementList, .list (.onLines .statement
      [.function, .classDefinition, .importStatement, .ifStatement, .tryStatement,
        .returnStatement, .expression, .assignment, .call]
      [⟨.function, 1, .always⟩, ⟨.classDefinition, 1, .always⟩])),
    (.classMemberList, .list (.onLines .member [.method, .property] [⟨.method, 1, .always⟩])),
    (.importList, .list (.onLines .statement [.importStatement] [])),
    (.decoratorList, .list { element := .decorator, multiline := true, above := .never }),
    (.parameterList, .list (.delimited .parameter ",")),
    (.namedParameterList, .list (.delimited .parameter ",")),
    (.argumentList, .list (.delimited .argument ",")),
    (.elseIfClauseList, .list (.clauses .elseIfClause false)),
    (.catchClauseList, .list (.clauses .catchClause false)),
    (.enclosedBody, .block),
    (.parameters, .tuple ","),
    (.parameterListOptional, .optional { element := .parameterList, inner := [.parameter] }),
    (.namedParameterListOptional, .optional
      { element := .namedParameterList, inner := [.parameter],
        opening := "\x7b", closing := "\x7d" }),
    (.argumentListOptional, .optional
      { element := .argumentList, inner := [.argument], opening := "(", closing := ")" }),
    (.extendsOptional, .optional
      { element := .extendsType, inner := [.typeReference, .identifier], opening := "extends " }),
    (.elseClauseOptional, .optional { element := .elseClause, placement := .trailingInline }),
    (.finallyClauseOptional, .optional
      { element := .finallyClause, placement := .trailingInline }),
    (.typeOptional, .optional
      { element := .typeReference, opening := ": ", placement := .adjacent })]
  aliases := [
    ("function_declaration", .function),
    ("class_declaration", .classDefinition),
    ("method_definition", .method),
    ("statement_block", .enclosedBody),
    ("class_body", .enclosedBody),
    ("import_statement", .importStatement),
    ("expression_statement", .expression),
    ("if_statement", .ifStatement),
    ("try_statement", .tryStatement),
    ("return_statement", .returnStatement),
    ("call_expression", .call)]
  commentTypes := ["comment", "html_comment"]

end Lossless.Grammar
