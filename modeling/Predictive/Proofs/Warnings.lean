import Predictive.Journal
import Predictive.Postfix.Grammar
import Predictive.Proofs.Reachability
import Predictive.Proofs.Validation

/-!
# Warnings about unreachable nonterminals

Whoever makes a grammar from rules is warned about the nonterminals that no string derived from the start
symbol contains: about each of them once, in order, and about no others (`warnings_exact`). The warnings
tell them apart, since no two nonterminals have one name.

What is unreachable is what the walk through right-hand sides leaves out. It does not matter to the walk
whether rules lead back to where it came from, or derive no string of terminals at all.
-/

namespace Predictive

namespace Grammar
variable {T : Type} {g : Grammar T} {x y : g.Nonterminal}

/-- The warning about `x`. -/
def warning (g : Grammar T) (x : g.Nonterminal) : Record :=
  ⟨.warn, .grammar, s!"nonterminal `{g.name x}` is unreachable from `{g.name g.start}`"⟩

theorem warnings_eq (g : Grammar T) : g.warnings = g.unreachable.map g.warning := rfl

theorem name_eq_of_warning_eq (h : g.warning x = g.warning y) : g.name x = g.name y := by
  have htext := congrArg (·.text.toList) h
  simp only [warning, String.toList_append, List.append_cancel_left_eq, List.append_cancel_right_eq] at htext
  exact String.toList_inj.1 htext

theorem mem_unreachable_iff : x ∈ g.unreachable ↔ ¬ g.IsReachable x := by
  rw [unreachable, List.mem_filter, decide_eq_true_eq, mem_reachable_iff]
  exact and_iff_right (List.mem_finRange x)

theorem pairwise_unreachable (g : Grammar T) : g.unreachable.Pairwise (· < ·) :=
  (List.pairwise_lt_finRange g.size).filter _

variable [Terminal T]

/-- If rules make a grammar, the warnings are about the nonterminals that stand in no string derived from
the start symbol, each of them once and in order. If they make none, there is no warning. -/
theorem warnings_exact (start : String) (rules : List (Rule T)) :
    (∀ g, ofRules start rules = .ok g → ∃ xs : List g.Nonterminal,
      buildRecords (ofRules start rules) = xs.map g.warning ∧ xs.Pairwise (· < ·) ∧
      (∀ x, x ∈ xs ↔ ¬ g.IsReachable x) ∧
      ∀ x y, g.warning x = g.warning y → x = y) ∧
    ∀ e, ofRules start rules = .error e → buildRecords (ofRules start rules) = [] := by
  refine ⟨fun g h => ?_, fun e h => by rw [h, buildRecords]⟩
  have hmade := (madeOf_of_ofRules h).2
  refine ⟨g.unreachable, ?_, g.pairwise_unreachable, fun x => mem_unreachable_iff, fun x y hxy => ?_⟩
  · rw [h, buildRecords, warnings_eq]
  · exact hmade.name_inj x y (name_eq_of_warning_eq hxy)

end Grammar

/-! ### Rules that lead only to one another -/

namespace Island
open Postfix (Kind)

/-- Lists of numbers in parentheses, where what is behind a minus does not end. Sums and differences are made
of each other and of items, and nothing is made of them. -/
def rules : List (Rule Kind) :=
  [⟨"Line", [.terminal .openParen, .nonterminal "Items", .terminal .closeParen]⟩,
    ⟨"Items", [.terminal .number, .nonterminal "Items"]⟩,
    ⟨"Items", [.terminal .minus, .nonterminal "Endless"]⟩, ⟨"Items", [.epsilon]⟩,
    ⟨"Sum", [.terminal .plus, .nonterminal "Difference"]⟩, ⟨"Sum", [.nonterminal "Items"]⟩,
    ⟨"Endless", [.terminal .number, .nonterminal "Endless"]⟩,
    ⟨"Difference", [.terminal .minus, .nonterminal "Sum", .nonterminal "Items"]⟩]

theorem isSome_ofRules : (Grammar.ofRules "Line" rules).toOption.isSome := by decide +kernel

def grammar : Grammar Kind := (Grammar.ofRules "Line" rules).toOption.get isSome_ofRules

def line : grammar.Nonterminal := grammar.start

def items : grammar.Nonterminal := ⟨1, by decide +kernel⟩

def sum : grammar.Nonterminal := ⟨2, by decide +kernel⟩

def endless : grammar.Nonterminal := ⟨3, by decide +kernel⟩

def difference : grammar.Nonterminal := ⟨4, by decide +kernel⟩

theorem reachable_grammar : grammar.reachable = [line, items, endless] := by
  have hline : grammar.successors line = [items] := by decide +kernel
  have hitems : grammar.successors items = [items, endless] := by decide +kernel
  have hendless : grammar.successors endless = [endless] := by decide +kernel
  rw [Grammar.reachable, preorder, walk_cons_of_unmarked (by decide +kernel), ← line, hline,
    List.singleton_append, walk_cons_of_unmarked (by decide +kernel), hitems, List.cons_append,
    walk_cons_of_marked (by decide +kernel), List.singleton_append,
    walk_cons_of_unmarked (by decide +kernel), hendless, List.singleton_append,
    walk_cons_of_marked (by decide +kernel), walk_nil]

theorem unreachable_grammar : grammar.unreachable = [sum, difference] := by
  rw [Grammar.unreachable, reachable_grammar]
  decide +kernel

end Island

/-- The warnings are about sums and differences, which lead to each other, but not about what does not end. With
an undefined start symbol there is no grammar to warn about. -/
theorem warnings_exact_island :
    Grammar.ofRules "Line" Island.rules = .ok Island.grammar ∧
    Grammar.buildRecords (Grammar.ofRules "Line" Island.rules) =
      [⟨.warn, .grammar, "nonterminal `Sum` is unreachable from `Line`"⟩,
        ⟨.warn, .grammar, "nonterminal `Difference` is unreachable from `Line`"⟩] ∧
    ¬ Island.grammar.IsReachable Island.sum ∧ ¬ Island.grammar.IsReachable Island.difference ∧
    Island.grammar.IsReachable Island.endless ∧
    Grammar.ofRules "Total" Island.rules = .error (.undefinedStart "Total") ∧
    Grammar.buildRecords (Grammar.ofRules "Total" Island.rules) = [] := by
  have hgrammar : Grammar.ofRules "Line" Island.rules = .ok Island.grammar :=
    Postfix.eq_ok_get Island.isSome_ofRules
  have herror : Grammar.ofRules "Total" Island.rules = .error (.undefinedStart "Total") := by decide +kernel
  have hrecords : Grammar.buildRecords (Grammar.ofRules "Line" Island.rules) =
      [Island.sum, Island.difference].map Island.grammar.warning := by
    rw [hgrammar, Grammar.buildRecords, Grammar.warnings_eq, Island.unreachable_grammar]
  obtain ⟨xs, hxs, -, hunreachable, hinjective⟩ := (Grammar.warnings_exact "Line" Island.rules).1 _ hgrammar
  -- the warnings tell nonterminals apart, so the records settle which ones they are about
  obtain rfl : xs = [Island.sum, Island.difference] :=
    List.map_injective_iff.2 hinjective (hxs.symm.trans hrecords)
  refine ⟨hgrammar, ?_, (hunreachable _).1 (by simp), (hunreachable _).1 (by simp), ?_, herror,
    (Grammar.warnings_exact "Total" Island.rules).2 _ herror⟩
  · rw [hrecords]
    decide +kernel
  · by_contra hendless
    exact absurd ((hunreachable _).2 hendless) (by decide +kernel)

end Predictive
