import Predictive.Postfix.Language
import Predictive.Proofs.Acceptance
import Predictive.Proofs.RuleLanguages

/-!
# The grammar of the postfix language derives the programs

`language` says what each nonterminal stands for; those behind an operand stand for what an expression can
go on with. That the grammar derives nothing else needs no induction over programs: these languages are
closed under the rules (`closedUnder_language`), and the grammar has the least ones that are.

Conversely a phrase is derived by induction over it. An operand is not derived as it stands where it begins
an expression, as its first token and the rest come from different rules. So the induction also says that
the operand begins expressions, whatever they go on with (`generates_operand_and_expression`).
-/

namespace Predictive.Postfix
open Kind

/-- The strings that a nonterminal stands for, by its name. -/
def language : String → List Kind → Prop
  | "Program" => IsProgram
  | "MoreLines" => fun w => w = [] ∨ IsProgram w
  | "Line" => IsLine
  | "Content" => IsContent
  | "Expression" => IsExpression
  | "Operand" => IsOperand
  | "AfterNumber" => fun w => IsExpression (number :: w)
  | "AfterIdentifier" => fun w => IsExpression (identifier :: w)
  | "AfterGroup" => fun w => ∀ u, IsExpression u → IsExpression (inParens u ++ w)
  | "Operation" => fun w => ∀ u v, IsOperand u → IsOperand v → IsExpression (u ++ v ++ w)
  | "Target" => fun w => w = [] ∨ w = [identifier]
  | "ForLoop" => fun w => IsContent (forLoop :: w)
  | "WhileLoop" => fun w => IsContent (Kind.whileLoop :: w)
  | "Conditional" => fun w => IsContent (Kind.ifElse :: w)
  | "Operator" | "ArithmeticOp" | "ComparisonOp" | "LogicalOp" => fun w => ∃ op ∈ binaryOperators, w = [op]
  | _ => fun _ => False

section
variable {left : String} {right : List (Symbol Kind String)} {L : String → List Kind → Prop}

theorem closedUnder_nil : ClosedUnder (define left []) L :=
  fun _ hr => (nomatch hr)

theorem closedUnder_cons {alternatives : List (List (Symbol Kind String))}
    (h : ∀ w, Spells L right w → L left w) (ht : ClosedUnder (define left alternatives) L) :
    ClosedUnder (define left (right :: alternatives)) L := by
  intro r hr
  rcases List.mem_cons.1 hr with rfl | hr
  · exact h
  · exact ht r hr

theorem closedUnder_oneOf {kinds : List Kind} (h : ∀ k ∈ kinds, L left [k]) :
    ClosedUnder (define left (oneOf kinds)) L := by
  intro r hr w hw
  obtain ⟨right, hright, rfl⟩ := List.mem_map.1 hr
  obtain ⟨k, hk, rfl⟩ := List.mem_map.1 hright
  obtain ⟨_, rfl, rfl⟩ := hw
  exact h k hk

end

theorem isExpression_of_spells {u w : List Kind} (hu : IsOperand u)
    (hw : Spells language [.nonterminal "Operand", .nonterminal "Operation"] w) : IsExpression (u ++ w) := by
  obtain ⟨v, o, rfl, hv, ho⟩ := hw
  rw [← List.append_assoc]
  exact spells_nonterminal.1 ho u v hu hv

theorem isProgram_of_spells {w : List Kind}
    (hw : Spells language [.nonterminal "Line", .nonterminal "MoreLines"] w) : IsProgram w := by
  obtain ⟨u, v, rfl, hu, hv⟩ := hw
  rcases spells_nonterminal.1 hv with rfl | hv
  · rw [List.append_nil]
    exact .line hu
  · exact .cons hu hv

theorem inParens_append (u v : List Kind) : inParens u ++ v = openParen :: (u ++ closeParen :: v) := by
  simp [inParens]

theorem closedUnder_language : ClosedUnder rules language := by
  refine (ClosedUnder.append ?program ?moreLines).append ?line |>.append ?content |>.append ?expression
    |>.append ?operand |>.append ?afterNumber |>.append ?afterIdentifier |>.append ?afterGroup
    |>.append ?operation |>.append ?target |>.append ?operator |>.append ?arithmetic |>.append ?comparison
    |>.append ?logical |>.append ?forLoop |>.append ?whileLoop |>.append ?conditional
  case program => exact closedUnder_cons (fun w => isProgram_of_spells) closedUnder_nil
  case moreLines =>
    refine closedUnder_cons (fun w hw => ?_) (closedUnder_cons (fun w hw => ?_) closedUnder_nil)
    · exact .inr (isProgram_of_spells hw)
    · exact .inl hw
  case line =>
    refine closedUnder_cons ?_ closedUnder_nil
    rintro w ⟨_, rfl, u, _, rfl, hu, _, rfl, rfl⟩
    exact .mk hu
  case content =>
    refine closedUnder_cons ?_ (closedUnder_cons ?_ (closedUnder_cons ?_ (closedUnder_cons ?_ closedUnder_nil)))
    · exact fun w hw => .expression (spells_nonterminal.1 hw)
    all_goals
      rintro w ⟨v, rfl, hv⟩
      rwa [spells_nonterminal] at hv
  case expression =>
    refine closedUnder_cons ?_ (closedUnder_cons ?_ (closedUnder_cons ?_ closedUnder_nil))
    · rintro w ⟨v, rfl, hv⟩
      rwa [spells_nonterminal] at hv
    · rintro w ⟨v, rfl, hv⟩
      rwa [spells_nonterminal] at hv
    · rintro w ⟨_, rfl, u, _, rfl, hu, v, rfl, hv⟩
      rw [← inParens_append]
      exact spells_nonterminal.1 hv u hu
  case operand =>
    refine closedUnder_cons ?_ (closedUnder_cons ?_ (closedUnder_cons ?_ closedUnder_nil))
    · rintro w ⟨_, rfl, rfl⟩
      exact .number
    · rintro w ⟨_, rfl, rfl⟩
      exact .identifier
    · rintro w ⟨_, rfl, u, _, rfl, hu, _, rfl, rfl⟩
      exact .group hu
  case afterNumber =>
    refine closedUnder_cons ?_ (closedUnder_cons ?_ (closedUnder_cons ?_ closedUnder_nil))
    · exact fun w hw => isExpression_of_spells .number hw
    · rintro w ⟨_, rfl, rfl⟩
      exact .recall
    · rintro w rfl
      exact .operand .number
  case afterIdentifier =>
    refine closedUnder_cons ?_ (closedUnder_cons ?_ closedUnder_nil)
    · exact fun w hw => isExpression_of_spells .identifier hw
    · rintro w rfl
      exact .operand .identifier
  case afterGroup =>
    refine closedUnder_cons ?_ (closedUnder_cons ?_ (closedUnder_cons ?_ closedUnder_nil))
    · exact fun w hw u hu => isExpression_of_spells (.group hu) hw
    · rintro w ⟨_, rfl, rfl⟩ u hu
      exact .negation hu
    · rintro w rfl u hu
      rw [List.append_nil]
      exact .operand (.group hu)
  case operation =>
    refine closedUnder_cons ?_ (closedUnder_cons ?_ closedUnder_nil)
    · rintro w ⟨_, _, rfl, ⟨op, hop, rfl⟩, t, _, rfl, ht, rfl⟩ u v hu hv
      rcases ht with rfl | rfl
      · exact .binary hu hv hop
      · exact .assignment hu hv hop
    · rintro w rfl u v hu hv
      rw [List.append_nil]
      exact .pair hu hv
  case target =>
    refine closedUnder_cons ?_ (closedUnder_cons ?_ closedUnder_nil)
    · rintro w ⟨_, rfl, rfl⟩
      exact .inr rfl
    · exact fun w hw => .inl hw
  case operator =>
    refine closedUnder_cons ?_ (closedUnder_cons ?_ (closedUnder_cons ?_ closedUnder_nil))
    all_goals exact fun w => spells_nonterminal.1
  case arithmetic => exact closedUnder_oneOf fun k hk => ⟨k, by revert k; decide, rfl⟩
  case comparison => exact closedUnder_oneOf fun k hk => ⟨k, by revert k; decide, rfl⟩
  case logical => exact closedUnder_oneOf fun k hk => ⟨k, by revert k; decide, rfl⟩
  case forLoop =>
    refine closedUnder_cons ?_ (closedUnder_cons ?_ closedUnder_nil)
    · rintro w ⟨_, rfl, _, rfl, _, rfl, _, rfl, _, rfl, _, rfl, _, rfl, _, rfl, line, rfl, hline⟩
      exact .bounds (spells_nonterminal.1 hline)
    · rintro w ⟨_, rfl, _, rfl, line, rfl, hline⟩
      exact .counter (spells_nonterminal.1 hline)
  case whileLoop =>
    refine closedUnder_cons ?_ closedUnder_nil
    rintro w ⟨_, rfl, u, _, rfl, hu, line, rfl, hline⟩
    rw [← inParens_append]
    exact .whileLoop hu (spells_nonterminal.1 hline)
  case conditional =>
    refine closedUnder_cons ?_ closedUnder_nil
    rintro w ⟨_, rfl, u, _, rfl, hu, _, rfl, yes, no, rfl, hyes, hno⟩
    rw [← inParens_append, ← List.append_assoc]
    exact .ifElse hu hyes (spells_nonterminal.1 hno)

/-! ### Programs are derived -/

section
variable {left : String} {u v w : List Kind}

theorem generates_of_spells {s : List (Symbol Kind String)} (hr : ⟨left, s⟩ ∈ rules)
    (hw : Spells grammar.Generates s w) : grammar.Generates left w :=
  Grammar.closedUnder_generates ofRules_eq_ok ⟨left, s⟩ hr w hw

theorem generates_nil (hr : ⟨left, [.epsilon]⟩ ∈ rules) : grammar.Generates left [] :=
  generates_of_spells hr rfl

theorem generates_terminal {k : Kind} (hr : ⟨left, [.terminal k]⟩ ∈ rules) : grammar.Generates left [k] :=
  generates_of_spells hr ⟨[], rfl, rfl⟩

theorem spells_group {s : List (Symbol Kind String)} (hu : grammar.Generates "Expression" u)
    (hw : Spells grammar.Generates s w) : Spells grammar.Generates (group ++ s) (inParens u ++ w) := by
  rw [inParens_append]
  exact ⟨_, rfl, u, _, rfl, hu, w, rfl, hw⟩

/-- What an expression can go on with, whichever operand it begins with. -/
structure Continues (w : List Kind) : Prop where
  number : grammar.Generates "AfterNumber" w
  identifier : grammar.Generates "AfterIdentifier" w
  group : grammar.Generates "AfterGroup" w

theorem continues_nil : Continues [] :=
  ⟨generates_nil (by decide), generates_nil (by decide), generates_nil (by decide)⟩

theorem continues_operand (hv : grammar.Generates "Operand" v) (hw : grammar.Generates "Operation" w) :
    Continues (v ++ w) := by
  have hspells : Spells grammar.Generates [.nonterminal "Operand", .nonterminal "Operation"] (v ++ w) :=
    ⟨v, w, rfl, hv, spells_nonterminal.2 hw⟩
  exact ⟨generates_of_spells (by decide) hspells, generates_of_spells (by decide) hspells,
    generates_of_spells (by decide) hspells⟩

theorem generates_operator {op : Kind} (hop : op ∈ binaryOperators) : grammar.Generates "Operator" [op] := by
  have hcases : ∀ op ∈ binaryOperators, ∃ name ∈ ["ArithmeticOp", "ComparisonOp", "LogicalOp"],
      (⟨"Operator", [.nonterminal name]⟩ : Rule Kind) ∈ rules ∧ ⟨name, [.terminal op]⟩ ∈ rules := by
    decide
  obtain ⟨name, -, hoperator, hname⟩ := hcases op hop
  exact generates_of_spells hoperator (spells_nonterminal.2 (generates_terminal hname))

theorem generates_operation {op : Kind} (hop : op ∈ binaryOperators) (hw : w = [] ∨ w = [identifier]) :
    grammar.Generates "Operation" (op :: w) := by
  have htarget : grammar.Generates "Target" w := by
    rcases hw with rfl | rfl
    · exact generates_nil (by decide)
    · exact generates_terminal (by decide)
  exact generates_of_spells (s := [.nonterminal "Operator", .nonterminal "Target"]) (by decide)
    ⟨[op], w, rfl, generates_operator hop, spells_nonterminal.2 htarget⟩

end

/-- An operand is derived as one, and begins expressions. -/
theorem generates_operand_and_expression :
    (∀ u, IsOperand u → grammar.Generates "Operand" u ∧
      ∀ w, Continues w → grammar.Generates "Expression" (u ++ w)) ∧
    ∀ u, IsExpression u → grammar.Generates "Expression" u := by
  refine expression_induction ?number ?identifier ?group ?operand ?result ?negation ?pair ?binary ?assignment
  case number =>
    refine ⟨generates_terminal (by decide), fun w hw => ?_⟩
    exact generates_of_spells (s := [.terminal number, .nonterminal "AfterNumber"]) (by decide)
      ⟨w, rfl, spells_nonterminal.2 hw.number⟩
  case identifier =>
    refine ⟨generates_terminal (by decide), fun w hw => ?_⟩
    exact generates_of_spells (s := [.terminal identifier, .nonterminal "AfterIdentifier"]) (by decide)
      ⟨w, rfl, spells_nonterminal.2 hw.identifier⟩
  case group =>
    intro u hu
    refine ⟨?_, fun w hw => ?_⟩
    · have hgroup := spells_group (s := []) hu rfl
      rw [List.append_nil, List.append_nil] at hgroup
      exact generates_of_spells (by decide) hgroup
    · exact generates_of_spells (by decide) (spells_group hu (spells_nonterminal.2 hw.group))
  case operand =>
    intro u hu
    have hexpression := hu.2 [] continues_nil
    rwa [List.append_nil] at hexpression
  case result =>
    have hres : grammar.Generates "AfterNumber" [res] := generates_terminal (by decide)
    exact generates_of_spells (s := [.terminal number, .nonterminal "AfterNumber"]) (by decide)
      ⟨[res], rfl, spells_nonterminal.2 hres⟩
  case negation =>
    intro u hu
    have hnot : grammar.Generates "AfterGroup" [Kind.not] := generates_terminal (by decide)
    exact generates_of_spells (by decide) (spells_group hu (spells_nonterminal.2 hnot))
  case pair =>
    intro u v hu hv
    have hpair := hu.2 _ (continues_operand hv.1 (generates_nil (by decide)))
    rwa [List.append_nil] at hpair
  case binary =>
    intro u v op hu hv hop
    rw [List.append_assoc]
    exact hu.2 _ (continues_operand hv.1 (generates_operation hop (.inl rfl)))
  case assignment =>
    intro u v op hu hv hop
    rw [List.append_assoc]
    exact hu.2 _ (continues_operand hv.1 (generates_operation hop (.inr rfl)))

theorem generates_expression {u : List Kind} (hu : IsExpression u) : grammar.Generates "Expression" u :=
  generates_operand_and_expression.2 u hu

theorem generates_content_and_line :
    (∀ u, IsContent u → grammar.Generates "Content" u) ∧ ∀ u, IsLine u → grammar.Generates "Line" u := by
  have hcontrol (keyword : Kind) (name : String) {w : List Kind}
      (hr : ⟨"Content", [.terminal keyword, .nonterminal name]⟩ ∈ rules) (hw : grammar.Generates name w) :
      grammar.Generates "Content" (keyword :: w) := by
    refine generates_of_spells hr ?_
    exact ⟨w, rfl, spells_nonterminal.2 hw⟩
  refine line_induction ?expression ?bounds ?counter ?whileLoop ?ifElse ?line
  case expression =>
    intro u hu
    exact generates_of_spells (by decide) (spells_nonterminal.2 (generates_expression hu))
  case bounds =>
    intro line hline
    refine hcontrol forLoop "ForLoop" (by decide) ?_
    refine generates_of_spells (s := bound ++ bound ++ bound ++ [.nonterminal "Line"]) (by decide) ?_
    exact ⟨_, rfl, _, rfl, _, rfl, _, rfl, _, rfl, _, rfl, _, rfl, _, rfl, _, rfl, spells_nonterminal.2 hline⟩
  case counter =>
    intro line hline
    refine hcontrol forLoop "ForLoop" (by decide) ?_
    refine generates_of_spells
      (s := [.terminal number, .terminal number, .terminal identifier, .nonterminal "Line"]) (by decide) ?_
    exact ⟨_, rfl, _, rfl, _, rfl, spells_nonterminal.2 hline⟩
  case whileLoop =>
    intro u line hu hline
    refine hcontrol Kind.whileLoop "WhileLoop" (by decide) ?_
    exact generates_of_spells (by decide) (spells_group (generates_expression hu) (spells_nonterminal.2 hline))
  case ifElse =>
    intro u yes no hu hyes hno
    have hlines : Spells grammar.Generates [.nonterminal "Line", .nonterminal "Line"] (yes ++ no) :=
      ⟨yes, no, rfl, hyes, spells_nonterminal.2 hno⟩
    rw [List.append_assoc]
    refine hcontrol Kind.ifElse "Conditional" (by decide) ?_
    exact generates_of_spells (by decide) (spells_group (generates_expression hu) hlines)
  case line =>
    intro u hu
    exact generates_of_spells (s := [.terminal openParen, .nonterminal "Content", .terminal closeParen])
      (by decide) ⟨_, rfl, u, _, rfl, hu, _, rfl, rfl⟩

/-- A program is derived as one, and behind another line. -/
theorem generates_program {u : List Kind} (hu : IsProgram u) :
    grammar.Generates "Program" u ∧ grammar.Generates "MoreLines" u := by
  have hlines {u v : List Kind} (hu : IsLine u) (hv : grammar.Generates "MoreLines" v) :
      Spells grammar.Generates [.nonterminal "Line", .nonterminal "MoreLines"] (u ++ v) :=
    ⟨u, v, rfl, generates_content_and_line.2 u hu, spells_nonterminal.2 hv⟩
  induction hu with
  | @line u hu =>
    have hspells := hlines hu (generates_nil (by decide))
    rw [List.append_nil] at hspells
    exact ⟨generates_of_spells (by decide) hspells, generates_of_spells (by decide) hspells⟩
  | cons hu _ ih =>
    have hspells := hlines hu ih.2
    exact ⟨generates_of_spells (by decide) hspells, generates_of_spells (by decide) hspells⟩

theorem name_start : grammar.name grammar.start = "Program" := by decide +kernel

/-- The grammar derives the programs and nothing else. -/
theorem derives_iff_isProgram {u : List Kind} :
    grammar.Derives [.nonterminal grammar.start] (u.map .terminal) ↔ IsProgram u := by
  constructor
  · intro hu
    exact Grammar.of_generates ofRules_eq_ok closedUnder_language ⟨grammar.start, name_start, hu⟩
  · intro hu
    obtain ⟨x, hx, hd⟩ := (generates_program hu).1
    rwa [(Grammar.wellFormed_of_ofRules ofRules_eq_ok).name_inj x _ (hx.trans name_start.symm)] at hd

theorem IsProgram.endOfInput_not_mem {u : List Kind} (h : IsProgram u) : endOfInput ∉ u := by
  intro hmem
  have hnot := (derives_iff_isProgram.2 h).not_mem endMarker_not_mem_right (by simp)
  exact hnot (List.mem_map.2 ⟨_, hmem, rfl⟩)

/-- The first end marker behind a program ends it. -/
theorem IsProgram.eq_of_append {u w z : List Kind} (hw : IsProgram w)
    (h : u ++ endOfInput :: z = w ++ [endOfInput]) : u = w ∧ z = [] := by
  rcases Grammar.append_eq_append_cons h.symm with ⟨c, rfl, -⟩ | ⟨c, hc, rfl⟩
  · exact absurd (by simp) hw.endOfInput_not_mem
  · rcases List.append_eq_singleton_iff.1 hc.symm with ⟨rfl, hz⟩ | ⟨-, hz⟩
    · exact ⟨List.append_nil w, (List.cons.inj hz).2⟩
    · cases hz

/-! ### The machine of the language -/

section
variable {tokens : List (Token Kind)} {t : Token Kind} {steps : List (Step grammar)}

theorem exists_parse_of_isProgram (h : IsProgram (kinds tokens)) (ht : t.kind = endOfInput) :
    ∃ steps, parse (tokens ++ [t]) = some ⟨steps, none⟩ := by
  have hpred := Table.predicts_of_ofGrammar ofGrammar_eq_ok
  obtain ⟨ps, hps⟩ := (derives_iff_isProgram.2 h).leftmost
  have hread : kinds (tokens ++ [t]) ++ List.replicate 0 Terminal.endMarker =
      kinds tokens ++ [Terminal.endMarker] := by
    simp [kinds, ht, endMarker_eq]
  obtain ⟨steps, hsteps⟩ := hpred.stops_of_leftmost hps
    (c := .start grammar (tokens ++ [t])) rfl hpred.covers_start hread
  exact ⟨steps, Table.parse_eq_some_iff.2 hsteps⟩

/-- The machine accepts a program only, and matches its tokens and the end marker. -/
theorem isProgram_of_parse (h : parse (tokens ++ [t]) = some ⟨steps, none⟩) (ht : t.kind = endOfInput) :
    IsProgram (kinds tokens) ∧ tokensRead steps = (tokens ++ [t]).map .ofToken := by
  obtain ⟨d, hd, hstop⟩ := Table.stopsFrom_iff.1 (Table.parse_eq_some_iff.1 h)
  obtain ⟨hstack, hrest⟩ := Config.empty_of_next_stop hstop rfl
  obtain ⟨hread, hdrop, -⟩ := hd.reads
  rw [hrest] at hdrop
  rw [Config.map_sees_range, List.take_of_length_le (List.drop_eq_nil_iff.1 hdrop.symm)] at hread
  obtain ⟨j, p, hread⟩ : ∃ j p, tokensRead steps = (tokens ++ [t]).map .ofToken ++
      List.replicate j (.atEnd p) := ⟨_, _, hread⟩
  have hkinds : kindsRead steps = kinds tokens ++ endOfInput :: List.replicate j endOfInput := by
    rw [kindsRead, hread]
    simp [kinds, Lookahead.ofToken, Lookahead.atEnd, Function.comp_def, ht, endMarker_eq]
  have hder := hd.derives
  rw [hstack, List.append_nil] at hder
  obtain ⟨w, hw, hder⟩ := Grammar.derives_startForm_iff.1 hder
  have hprogram := derives_iff_isProgram.1 hder
  obtain ⟨rfl, hj⟩ := hprogram.eq_of_append (hkinds.symm.trans hw)
  refine ⟨hprogram, ?_⟩
  obtain rfl : j = 0 := by simpa using hj
  rw [hread, List.replicate_zero, List.append_nil]

end

/-- The machine of the language accepts the tokens in front of an end marker if and only if their kinds are
those of a program: one line or more. In particular it refuses every other end marker. -/
theorem parse_succeeds_iff_isProgram (tokens : List (Token Kind)) (lexeme : String) (span : Span) :
    (∃ steps, parse (tokens ++ [⟨endOfInput, lexeme, span⟩]) = some ⟨steps, none⟩) ↔
      IsProgram (kinds tokens) := by
  constructor
  · rintro ⟨steps, hsteps⟩
    exact (isProgram_of_parse hsteps rfl).1
  · intro h
    exact exists_parse_of_isProgram h rfl

end Predictive.Postfix
