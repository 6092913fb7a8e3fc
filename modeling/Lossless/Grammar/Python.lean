import Lossless.Grammar.Basic

/-! The Python grammar: bodies by indentation, `pass` in empty bodies, two blank lines around
definitions at the top level. -/

namespace Lossless.Grammar

def python : Grammar where
  language := .python
  indentWidth := 4
  shapes := [
    (.statementList, .list
      { ListRule.onLines .statement
          [.function, .classDefinition, .importStatement, .ifStatement, .tryStatement,
            .returnStatement, .expression, .assignment, .call]
          [⟨.function, 2, .topLevel⟩, ⟨.classDefinition, 2, .topLevel⟩, ⟨.method, 1, .always⟩] with
        below := .nested
        placeholder := some ⟨"pass", .nested⟩ }),
    (.classMemberList, .list
      { ListRule.onLines .member
          [.method, .function, .classDefinition, .property, .assignment]
          [⟨.method, 1, .always⟩, ⟨.function, 1, .always⟩] with
        below := .nested
        placeholder := some ⟨"pass", .always⟩ }),
    (.importList, .list (.onLines .statement [.importStatement] [])),
    (.decoratorList, .list { element := .decorator, multiline := true, above := .never }),
    (.parameterList, .list
      { ListRule.delimited .parameter "," with retained := ["self", "cls"] }),
    (.argumentList, .list (.delimited .argument ",")),
    (.extendsList, .list (.delimited .extendsType ",")),
    (.elseIfClauseList, .list (.clauses .elseIfClause true)),
    (.catchClauseList, .list (.clauses .catchClause true)),
    (.enclosedBody, .block),
    (.classDefinition, .plain .tight),
    (.extendsListOptional, .optional
      { element := .extendsList, inner := [.extendsType], opening := "(", closing := ")" }),
    (.typeOptional, .optional
      { element := .typeReference, opening := ": ", placement := .adjacent }),
    (.returnTypeOptional, .optional { element := .typeReference, opening := "-> " }),
    (.elseClauseOptional, .optional { element := .elseClause, placement := .multiline }),
    (.finallyClauseOptional, .optional { element := .finallyClause, placement := .multiline })]
  aliases := [
    ("module", .program),
    ("function_definition", .function),
    ("class_definition", .classDefinition),
    ("import_statement", .importStatement),
    ("import_from_statement", .importStatement),
    ("expression_statement", .expression),
    ("if_statement", .ifStatement),
    ("elif_clause", .elseIfClause),
    ("try_statement", .tryStatement),
    ("except_clause", .catchClause),
    ("return_statement", .returnStatement)]

end Lossless.Grammar
