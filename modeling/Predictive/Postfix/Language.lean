import Predictive.Postfix.Kind

/-!
# The postfix language

The strings of kinds that are expressions, lines and programs, said without a grammar: an operand comes
before what is done with it, an operator after its two operands, and the variable that takes the result
last. A control form is a line whose content begins with its keyword.
-/

namespace Predictive.Postfix
open Kind

/-- The operators that can stand after two operands; negation is one of them. -/
def binaryOperators : List Kind :=
  [plus, minus, times, realDivide, integerDivide, modulo, power, less, greater, equal, lessEqual,
    greaterEqual, notEqual, Kind.and, Kind.or, Kind.not]

/-- Kinds in parentheses. -/
def inParens (u : List Kind) : List Kind := openParen :: (u ++ [closeParen])

mutual

inductive IsOperand : List Kind → Prop where
  | number : IsOperand [number]
  | identifier : IsOperand [identifier]
  | group {u : List Kind} : IsExpression u → IsOperand (inParens u)

inductive IsExpression : List Kind → Prop where
  | operand {u : List Kind} : IsOperand u → IsExpression u
  /-- The result of an earlier line, so many lines back. -/
  | recall : IsExpression [number, res]
  | negation {u : List Kind} : IsExpression u → IsExpression (inParens u ++ [Kind.not])
  /-- An operand and the variable or the operand after it. -/
  | pair {u v : List Kind} : IsOperand u → IsOperand v → IsExpression (u ++ v)
  | binary {u v : List Kind} {op : Kind} : IsOperand u → IsOperand v → op ∈ binaryOperators →
    IsExpression (u ++ v ++ [op])
  | assignment {u v : List Kind} {op : Kind} : IsOperand u → IsOperand v → op ∈ binaryOperators →
    IsExpression (u ++ v ++ [op, identifier])

end

mutual

inductive IsContent : List Kind → Prop where
  | expression {u : List Kind} : IsExpression u → IsContent u
  /-- A loop over bounds given in parentheses. -/
  | bounds {line : List Kind} : IsLine line →
    IsContent (forLoop :: (inParens [number] ++ inParens [number] ++ inParens [number] ++ line))
  | counter {line : List Kind} : IsLine line →
    IsContent (forLoop :: number :: number :: identifier :: line)
  | whileLoop {u line : List Kind} : IsExpression u → IsLine line →
    IsContent (Kind.whileLoop :: (inParens u ++ line))
  | ifElse {u yes no : List Kind} : IsExpression u → IsLine yes → IsLine no →
    IsContent (Kind.ifElse :: (inParens u ++ yes ++ no))

inductive IsLine : List Kind → Prop where
  | mk {u : List Kind} : IsContent u → IsLine (inParens u)

end

/-- One line or more. -/
inductive IsProgram : List Kind → Prop where
  | line {u : List Kind} : IsLine u → IsProgram u
  | cons {u v : List Kind} : IsLine u → IsProgram v → IsProgram (u ++ v)

section
variable {u v : List Kind}

theorem IsLine.ne_nil (h : IsLine u) : u ≠ [] := by
  cases h
  exact List.cons_ne_nil _ _

theorem IsProgram.append (hu : IsProgram u) (hv : IsProgram v) : IsProgram (u ++ v) := by
  induction hu with
  | line hu => exact .cons hu hv
  | cons hu _ ih =>
    rw [List.append_assoc]
    exact .cons hu ih

theorem IsProgram.eq_cons (h : IsProgram u) : ∃ v, u = openParen :: v := by
  cases h with
  | line hu =>
    cases hu
    exact ⟨_, rfl⟩
  | cons hu _ =>
    cases hu
    exact ⟨_, rfl⟩

theorem IsProgram.ne_nil (h : IsProgram u) : u ≠ [] := by
  obtain ⟨v, rfl⟩ := h.eq_cons
  exact List.cons_ne_nil _ _

theorem IsProgram.eq_concat (h : IsProgram u) : ∃ v, u = v ++ [closeParen] := by
  induction h with
  | line hu =>
    cases hu with
    | @mk c _ => exact ⟨openParen :: c, rfl⟩
  | @cons l _ _ _ ih =>
    obtain ⟨v, rfl⟩ := ih
    exact ⟨l ++ v, (List.append_assoc ..).symm⟩

end

/-! ### Induction over operands and expressions, and over contents and lines -/

section
variable {P Q : List Kind → Prop}

theorem expression_induction (hnumber : P [number]) (hidentifier : P [identifier])
    (hgroup : ∀ u, Q u → P (inParens u)) (hoperand : ∀ u, P u → Q u) (hrecall : Q [number, res])
    (hnegation : ∀ u, Q u → Q (inParens u ++ [Kind.not])) (hpair : ∀ u v, P u → P v → Q (u ++ v))
    (hbinary : ∀ u v op, P u → P v → op ∈ binaryOperators → Q (u ++ v ++ [op]))
    (hassignment : ∀ u v op, P u → P v → op ∈ binaryOperators → Q (u ++ v ++ [op, identifier])) :
    (∀ u, IsOperand u → P u) ∧ ∀ u, IsExpression u → Q u := by
  constructor
  · intro u hu
    exact @IsOperand.rec (fun u _ => P u) (fun u _ => Q u) hnumber hidentifier (fun _ => hgroup _)
      (fun _ => hoperand _) hrecall (fun _ => hnegation _) (fun _ _ => hpair _ _)
      (fun _ _ hop hu hv => hbinary _ _ _ hu hv hop) (fun _ _ hop hu hv => hassignment _ _ _ hu hv hop) u hu
  · intro u hu
    exact @IsExpression.rec (fun u _ => P u) (fun u _ => Q u) hnumber hidentifier (fun _ => hgroup _)
      (fun _ => hoperand _) hrecall (fun _ => hnegation _) (fun _ _ => hpair _ _)
      (fun _ _ hop hu hv => hbinary _ _ _ hu hv hop) (fun _ _ hop hu hv => hassignment _ _ _ hu hv hop) u hu

theorem line_induction (hexpression : ∀ u, IsExpression u → P u)
    (hbounds : ∀ line, Q line →
      P (forLoop :: (inParens [number] ++ inParens [number] ++ inParens [number] ++ line)))
    (hcounter : ∀ line, Q line → P (forLoop :: number :: number :: identifier :: line))
    (hwhile : ∀ u line, IsExpression u → Q line → P (Kind.whileLoop :: (inParens u ++ line)))
    (hif : ∀ u yes no, IsExpression u → Q yes → Q no → P (Kind.ifElse :: (inParens u ++ yes ++ no)))
    (hline : ∀ u, P u → Q (inParens u)) :
    (∀ u, IsContent u → P u) ∧ ∀ u, IsLine u → Q u := by
  constructor
  · intro u hu
    exact @IsContent.rec (fun u _ => P u) (fun u _ => Q u) (hexpression _) (fun _ => hbounds _)
      (fun _ => hcounter _) (fun hu _ => hwhile _ _ hu) (fun hu _ _ => hif _ _ _ hu) (fun _ => hline _) u hu
  · intro u hu
    exact @IsLine.rec (fun u _ => P u) (fun u _ => Q u) (hexpression _) (fun _ => hbounds _)
      (fun _ => hcounter _) (fun hu _ => hwhile _ _ hu) (fun hu _ _ => hif _ _ _ hu) (fun _ => hline _) u hu

end

end Predictive.Postfix
