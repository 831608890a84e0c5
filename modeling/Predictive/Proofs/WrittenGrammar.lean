import Mathlib.Data.List.Permutation
import Predictive.Grammar.Text
import Predictive.Postfix.Grammar
import Predictive.Proofs.Cutting

/-!
# The grammar of the postfix language as it is written

The grammar is written with comments that show the forms that the rules are for, and with alternatives on
lines of their own. What is read from the text is the grammar, with its rules in the same order
(`ofText_writtenGrammar`).

The text is read by evaluation. The characters of a long string take far more steps to find than to read, so
the lines are made lists of characters first (`map_toList_cons`), which needs no steps.
-/

namespace Predictive.Postfix

/-- The lines of the written grammar. -/
def writtenLines : List String :=
  ["# Parenthesized reverse-Polish language, LL(1) continuation grammar.",
    "#",
    "# A program is a sequence of lines, each line is one parenthesized form. Operands come first and",
    "# the operator last, optionally followed by the variable that stores the result.",
    "",
    "Program -> Line MoreLines",
    "MoreLines -> Line MoreLines | EPSILON",
    "Line -> OPEN_PAREN Content CLOSE_PAREN",
    "",
    "Content -> Expression",
    "         | FOR ForLoop",
    "         | WHILE WhileLoop",
    "         | IFELSE Conditional",
    "",
    "Expression -> NUMBER AfterNumber",
    "            | IDENTIFIER AfterIdentifier",
    "            | OPEN_PAREN Expression CLOSE_PAREN AfterGroup",
    "",
    "Operand -> NUMBER",
    "         | IDENTIFIER",
    "         | OPEN_PAREN Expression CLOSE_PAREN",
    "",
    "# (5), (5 RES), (5 A), (5 3 +), (5 3 + A)",
    "AfterNumber -> Operand Operation | RES | EPSILON",
    "# (A), (A B), (A B *), (A B * C)",
    "AfterIdentifier -> Operand Operation | EPSILON",
    "# ((A B +)), ((A B +) C), ((A B >) !), ((A B +) (C D *) +)",
    "AfterGroup -> Operand Operation | NOT | EPSILON",
    "",
    "Operation -> Operator Target | EPSILON",
    "Target -> IDENTIFIER | EPSILON",
    "",
    "Operator -> ArithmeticOp | ComparisonOp | LogicalOp",
    "ArithmeticOp -> PLUS | MINUS | TIMES | REAL_DIVIDE | INTEGER_DIVIDE | MODULO | POWER",
    "ComparisonOp -> LESS | GREATER | EQUAL | LESS_EQUAL | GREATER_EQUAL | NOT_EQUAL",
    "LogicalOp -> AND | OR | NOT",
    "",
    "# Loop and conditional bodies are lines; a line may chain several groups, as in",
    "# (WHILE (X 5 <) (((X 1 +) X) ((X 2 *) Y)))",
    "ForLoop -> OPEN_PAREN NUMBER CLOSE_PAREN OPEN_PAREN NUMBER CLOSE_PAREN OPEN_PAREN NUMBER CLOSE_PAREN Line",
    "         | NUMBER NUMBER IDENTIFIER Line",
    "WhileLoop -> OPEN_PAREN Expression CLOSE_PAREN Line",
    "Conditional -> OPEN_PAREN Expression CLOSE_PAREN Line Line"]

/-- The written grammar. -/
def writtenGrammar : String := String.join (writtenLines.map (· ++ "\n"))

theorem map_toList_cons {line : List Char} {ls : List String} {css : List (List Char)}
    (h : ls.map String.toList = css) : (String.ofList line :: ls).map String.toList = line :: css := by
  rw [List.map_cons, String.toList_ofList, h]

theorem toList_writtenGrammar :
    writtenGrammar.toList = (writtenLines.map String.toList).flatMap (· ++ ['\n']) := by
  simp [writtenGrammar, String.toList_join, List.flatMap_map]

theorem readLines_writtenGrammar :
    Grammar.readLines 1 none (Text.lines writtenGrammar.toList) = .ok rules := by
  obtain ⟨css, hcss, hends, hread⟩ : ∃ css, writtenLines.map String.toList = css ∧
      css.all (fun line => !line.contains '\n' && line.getLast? != some '\r') = true ∧
      Grammar.readLines 1 none css = .ok rules := by
    -- the first part says what `css` is
    apply Exists.intro
    refine ⟨?_, ?_, ?_⟩
    · repeat apply map_toList_cons
      exact List.map_nil
    · cbv
    · cbv
  have hlines : Text.lines (css.flatMap (· ++ ['\n'])) = css := by
    refine Text.lines_flatMap fun line hline => ?_
    simpa using List.all_eq_true.1 hends line hline
  rw [toList_writtenGrammar, hcss, hlines, hread]

/-- The written grammar is read as the grammar of the language. -/
theorem ofText_writtenGrammar : Grammar.ofText writtenGrammar = .ok grammar := by
  rw [Grammar.ofText, readLines_writtenGrammar]
  exact ofRules_eq_ok

end Predictive.Postfix
