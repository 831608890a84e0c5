import Predictive.Command.Run
import Predictive.Proofs.Cutting
import Predictive.Proofs.Runs

/-!
# What is printed on one line

Nothing that the command prints holds a line feed or a carriage return, whatever the text is that it
checks: lexemes and characters of the text are quoted, and all else is names and numbers. So the lines
that are printed can be read back from the output (`lines_unlines`).
-/

namespace Predictive

/-- The text has no line feed and no carriage return. -/
def OneLine (s : String) : Prop := ∀ c ∈ s.toList, c ≠ '\n' ∧ c ≠ '\r'

-- along the text, and not along all characters
instance (s : String) : Decidable (OneLine s) := List.decidableBAll (fun c => c ≠ '\n' ∧ c ≠ '\r') s.toList

namespace OneLine
variable {s t : String}

theorem append (hs : OneLine s) (ht : OneLine t) : OneLine (s ++ t) := by
  intro c hc
  rw [String.toList_append] at hc
  exact (List.mem_append.1 hc).elim (hs c) (ht c)

theorem intercalate {l : List String} (hs : OneLine s) (hl : ∀ t ∈ l, OneLine t) :
    OneLine (s.intercalate l) := by
  intro c hc
  rw [String.toList_intercalate] at hc
  rcases Text.mem_intercalate hc with hc | ⟨w, hw, hc⟩
  · exact hs c hc
  · obtain ⟨t, ht, rfl⟩ := List.mem_map.1 hw
    exact hl t ht c hc

end OneLine

/-! ### Numbers and quoted texts -/

theorem plain_of_mem_toDigits {b n : Nat} (hb : 1 < b) (hle : b ≤ 16) {c : Char} (hc : c ∈ Nat.toDigits b n) :
    c ≠ '\n' ∧ c ≠ '\r' := by
  have hall : ∀ k < 16, k.digitChar ≠ '\n' ∧ k.digitChar ≠ '\r' := by decide
  induction n using Nat.strongRecOn with
  | ind n ih =>
    rw [Nat.toDigits_eq_if hb] at hc
    split at hc
    · rw [List.mem_singleton.1 hc]
      exact hall n (by omega)
    · rcases List.mem_append.1 hc with hc | hc
      · exact ih (n / b) (Nat.div_lt_self (by omega) hb) hc
      · have hlt := Nat.mod_lt n (by omega : b > 0)
        rw [List.mem_singleton.1 hc]
        exact hall (n % b) (by omega)

theorem oneLine_nat (n : Nat) : OneLine (toString n) := by
  intro c hc
  rw [Nat.toString_eq_repr, Nat.toList_repr] at hc
  exact plain_of_mem_toDigits (by decide) (by decide) hc

theorem oneLine_point (p : Point) : OneLine (toString p) :=
  ((oneLine_nat p.line).append (by decide)).append (oneLine_nat p.column)

namespace Text
variable {mark c d : Char}

theorem plain_of_mem_escape (hd : d ∈ escape mark c) : d ≠ '\n' ∧ d ≠ '\r' := by
  have hfixed {w : List Char} (hw : OneLine (String.ofList w)) (hd : d ∈ w) : d ≠ '\n' ∧ d ≠ '\r' :=
    hw d (by rwa [String.toList_ofList])
  unfold escape at hd
  split_ifs at hd with hzero htab hfeed hreturn hslash hquote hascii hcode
  · exact hfixed (by decide) hd
  · exact hfixed (by decide) hd
  · exact hfixed (by decide) hd
  · exact hfixed (by decide) hd
  · exact hfixed (by decide) hd
  · rcases List.mem_pair.1 hd with rfl | rfl
    · exact ⟨by decide, by decide⟩
    · exact ⟨hfeed, hreturn⟩
  · obtain rfl := List.mem_singleton.1 hd
    exact ⟨hfeed, hreturn⟩
  · rw [escapeCode, List.mem_cons, List.mem_cons, List.mem_cons, List.mem_append, List.mem_singleton] at hd
    rcases hd with rfl | rfl | rfl | hd | rfl
    · exact ⟨by decide, by decide⟩
    · exact ⟨by decide, by decide⟩
    · exact ⟨by decide, by decide⟩
    · exact plain_of_mem_toDigits (by decide) (by decide) hd
    · exact ⟨by decide, by decide⟩
  · obtain rfl := List.mem_singleton.1 hd
    exact ⟨hfeed, hreturn⟩

theorem oneLine_enclose (hmark : mark ≠ '\n' ∧ mark ≠ '\r') (s : List Char) :
    OneLine (enclose mark s) := by
  intro d hd
  rw [enclose, String.toList_ofList] at hd
  rcases List.mem_cons.1 hd with rfl | hd
  · exact hmark
  rcases List.mem_append.1 hd with hd | hd
  · obtain ⟨c, -, hd⟩ := List.mem_flatMap.1 hd
    exact plain_of_mem_escape hd
  · rw [List.mem_singleton.1 hd]
    exact hmark

theorem oneLine_quote (s : String) : OneLine (quote s) := oneLine_enclose (by decide) _

theorem oneLine_quoteChar (c : Char) : OneLine (quoteChar c) := oneLine_enclose (by decide) _

end Text

/-! ### Messages and steps -/

section
open Postfix

theorem oneLine_scanError (e : ScanError) : OneLine e.message :=
  (((OneLine.append (by decide) (Text.oneLine_quoteChar _)).append (by decide)).append (oneLine_point _))

theorem oneLine_kind (k : Kind) : OneLine (Terminal.name k) := by
  cases k <;> decide

theorem oneLine_tokenText (t : Lookahead Kind) : OneLine (ParseError.tokenText t) :=
  ((oneLine_kind _).append (by decide)).append (Text.oneLine_quote _)

/-- A syntax error is told on one line if the name in it is. -/
theorem oneLine_parseError {e : ParseError Kind}
    (h : ∀ name found expected, e = .noRule name found expected → OneLine name) : OneLine e.message := by
  have hposition : OneLine s!"{e.found.position}: " := (oneLine_point _).append (by decide)
  refine hposition.append ?_
  cases e with
  | noRule name found expected =>
    have hexpected : OneLine (", ".intercalate (expected.map Terminal.name)) := by
      refine .intercalate (by decide) fun t ht => ?_
      obtain ⟨k, -, rfl⟩ := List.mem_map.1 ht
      exact oneLine_kind k
    have hfound : OneLine ("unexpected " ++ ParseError.tokenText found) :=
      .append (by decide) (oneLine_tokenText found)
    exact (((hfound.append (by decide)).append (h _ _ _ rfl)).append (by decide)).append hexpected
  | unexpectedToken expected found =>
    have hkind : OneLine ("expected " ++ Terminal.name expected) := .append (by decide) (oneLine_kind expected)
    exact (hkind.append (by decide)).append (oneLine_tokenText found)
  | trailingInput found remaining =>
    have hcount : OneLine ("input not fully consumed, " ++ toString remaining) :=
      .append (by decide) (oneLine_nat remaining)
    exact (hcount.append (by decide)).append (oneLine_tokenText found)

theorem oneLine_name (x : grammar.Nonterminal) : OneLine (grammar.name x) := by
  have hall : ∀ x, OneLine (grammar.name x) := by decide +kernel
  exact hall x

theorem oneLine_symbolName (s : Symbol Kind grammar.Nonterminal) : OneLine (grammar.symbolName s) := by
  cases s with
  | terminal k => exact oneLine_kind k
  | nonterminal x => exact oneLine_name x
  | epsilon => show OneLine "ε"; decide

theorem oneLine_step (step : Step grammar) : OneLine step.describe := by
  cases step with
  | matched token =>
    have hkind : OneLine ("match " ++ Terminal.name token.kind) := .append (by decide) (oneLine_kind _)
    exact (hkind.append (by decide)).append (Text.oneLine_quote _)
  | expanded p =>
    refine ((oneLine_name p.left).append (by decide)).append (.intercalate (by decide) fun t ht => ?_)
    obtain ⟨s, -, rfl⟩ := List.mem_map.1 ht
    exact oneLine_symbolName s

-- from here on only what is proved of the grammar counts, not what it is
attribute [local irreducible] grammar table

/-- The errors of the built-in grammar are told on one line. -/
theorem oneLine_of_parse {tokens : List (Token Kind)} {steps : List (Step grammar)} {e : ParseError Kind}
    (h : parse tokens = some ⟨steps, some e⟩) : OneLine e.message := by
  obtain ⟨d, -, hstop⟩ := Table.stopsFrom_iff.1 (Table.stops_of_parse h)
  refine oneLine_parseError fun name found expected he => ?_
  rcases Config.next_eq_stop hstop with ⟨-, -, hnone⟩ | ⟨-, -, hsome⟩ | ⟨t, below, -, -, hsome⟩ |
    ⟨x, below, -, -, hsome⟩
  · cases hnone
  · cases hsome
    cases he
  · split at hsome
    · cases hsome
      cases he
    · cases hsome
      cases he
  -- only where no rule fits is there a name, and it is one of the grammar's
  · cases hsome
    cases he
    exact oneLine_name x

end

/-- Lines that are printed one below the other are read back. -/
theorem lines_unlines {ls : List String} (h : ∀ l ∈ ls, OneLine l) :
    (Text.lines (Command.unlines ls).toList).map String.ofList = ls := by
  have hlines : (Command.unlines ls).toList = (ls.map String.toList).flatMap (· ++ ['\n']) := by
    rw [Command.unlines, String.toList_join, List.flatMap_map, List.flatMap_map]
    simp only [String.toList_append]
    rfl
  have hplain : ∀ w ∈ ls.map String.toList, '\n' ∉ w ∧ w.getLast? ≠ some '\r' := by
    intro w hw
    obtain ⟨l, hl, rfl⟩ := List.mem_map.1 hw
    refine ⟨fun hfeed => (h l hl _ hfeed).1 rfl, fun hreturn => ?_⟩
    exact (h l hl _ (List.mem_of_getLast? hreturn)).2 rfl
  rw [hlines, Text.lines_flatMap hplain, List.map_map]
  simp [Function.comp_def]

end Predictive
