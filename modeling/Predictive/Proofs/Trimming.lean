import Predictive.Proofs.FirstError
import Predictive.Proofs.Reachability
import Predictive.Proofs.RuleOrder

/-!
# Rules that cannot be reached

Rules for unreachable nonterminals can be left out of a grammar that has a table (`ofRules_trim`). What is
left makes a grammar with a table, each cell of which the whole grammar's table has, and its machine
accepts the same tokens by the same steps, or finds an error at the same token.

The whole grammar may have more cells, since its unreachable rules put terminals behind reachable
nonterminals. So where the machine of the trimmed grammar stops, that of the whole grammar may go on
and expand what can be empty. But it cannot match the token any more: the stack would derive a string that
begins with the token, also in the trimmed grammar, whose machine would not have stopped
(`KeepsCells.reads_nothing`).
-/

namespace Predictive
variable {T : Type} [Terminal T]

section
variable {g g' : Grammar T} {table : Table g} {table' : Table g'} {W : FollowSets g} {c d : Config g}
  {steps : List (Step g)} {steps' : List (Step g')}

/-- Both results are a success by the same steps, or both have an error about the same token behind the
same matches. -/
def ParseResult.AgreesWith (r : ParseResult g) (r' : ParseResult g') : Prop :=
  (r.error = none ∧ r'.named = r.named) ∨
    ∃ e e', r.error = some e ∧ r'.error = some e' ∧
      tokensRead r'.derivation = tokensRead r.derivation ∧ e'.found = e.found

omit [Terminal T] in
theorem tokensRead_eq_named (steps : List (Step g)) :
    tokensRead steps = (steps.map Step.named).filterMap Sum.getLeft? := by
  rw [List.filterMap_map]
  refine List.filterMap_congr fun step _ => ?_
  cases step <;> rfl

theorem Table.Reaches.eq_of_stop {error : Option (ParseError T)} (hstop : c.next table = .stop error)
    (h : table.Reaches steps c d) : steps = [] ∧ d = c := by
  cases h with
  | refl => exact ⟨rfl, rfl⟩
  | head hgo _ =>
    rw [hstop] at hgo
    cases hgo

/-- What is left of the start symbol and the end marker ends in that marker, if anything is left. -/
theorem Grammar.eq_nil_of_startForm {u v : g.Form} (h : g.Derives g.startForm (u ++ v))
    (hv : g.Derives v []) : v = [] := by
  obtain ⟨a, b, hab, -, hb⟩ := Derives.append_inv (u := [.nonterminal g.start]) h
  obtain ⟨w, rfl, hw⟩ := hb.terminal_inv
  obtain rfl := hw.nil_inv
  rcases List.eq_nil_or_concat' v with rfl | ⟨v, s, rfl⟩
  · rfl
  · rw [← List.append_assoc] at hab
    obtain rfl : s = .terminal Terminal.endMarker := by
      simpa using (List.append_inj_right' hab rfl :)
    obtain ⟨w, hw, -⟩ := (derives_append_nil.1 hv).2.terminal_inv
    cases hw

namespace Grammar.Embedding
variable {E : Embedding g g'}

/-! ### A machine with more cells -/

namespace KeepsCells
variable (h : E.KeepsCells table table')
include h

/-- A run of the machine with more cells goes through the place where the other machine stops. -/
theorem exists_stop {r' : ParseResult g'} (hr : table'.StopsFrom (E.config c) r') :
    ∃ steps d error r'', table.Reaches steps c d ∧ d.next table = .stop error ∧
      table'.StopsFrom (E.config d) r'' ∧ r'.error = r''.error ∧
      r'.derivation.map Step.named = steps.map Step.named ++ r''.derivation.map Step.named := by
  obtain ⟨limit, hlimit⟩ := hr
  induction limit generalizing c r' with
  | zero => simp [Table.run] at hlimit
  | succ limit ih =>
    cases hnext : c.next table with
    | stop error => exact ⟨[], c, error, r', .refl c, hnext, ⟨_, hlimit⟩, rfl, rfl⟩
    | go step d =>
      obtain ⟨step', hgo', hsame⟩ := h.go_config hnext
      rw [Table.run_of_go hgo'] at hlimit
      obtain ⟨r, hr, rfl⟩ := Option.map_eq_some_iff.1 hlimit
      obtain ⟨steps, e, error, r'', he, hstop, hr'', herror, hsteps⟩ := ih hr
      refine ⟨step.toList ++ steps, e, error, r'', .head hnext he, hstop, hr'', herror, ?_⟩
      rw [List.map_append, hsteps, List.map_append, List.append_assoc, ← Option.toList_map,
        ← Option.toList_map, hsame]

omit h in
/-- Where a machine stops with an error, one with more cells reads nothing more and finds an error at the
same token. -/
theorem reads_nothing (hpred : table.Predicts W) (hcovers : W.Covers c.stack)
    (hends : g.Derives c.stack [] → c.stack = []) {e : ParseError T} (hstop : c.next table = .stop (some e))
    {r' : ParseResult g'} (hr : table'.StopsFrom (E.config c) r') :
    tokensRead r'.derivation = [] ∧ ∃ e', r'.error = some e' ∧ e'.found = e.found := by
  obtain ⟨d, hd, hstop'⟩ := Table.stopsFrom_iff.1 hr
  have hder : g'.Derives (E.form c.stack) ((kindsRead r'.derivation).map .terminal ++ d.stack) := hd.derives
  have hread : tokensRead r'.derivation = [] := by
    cases hk : kindsRead r'.derivation with
    | nil => exact List.map_eq_nil_iff.1 hk
    | cons t ts =>
      -- the first match would be of the token on which the first machine stops
      obtain ⟨w, hw⟩ := hd.lookahead_kind
      rw [hk] at hw
      obtain rfl : t = c.lookahead.kind := (List.cons.inj hw).1
      rw [hk] at hder
      obtain ⟨v, hv, hder⟩ := E.derives_inv hder
      obtain ⟨v, rfl, -⟩ := E.eq_terminal_of_form hv
      obtain ⟨step, c', hgo⟩ := hpred.goes_of_derives hcovers hder
      rw [hstop] at hgo
      cases hgo
  have hlookahead : d.lookahead = c.lookahead := by
    rw [d.lookahead_eq_sees, hd.sees, hread]
    exact (c.lookahead_eq_sees).symm
  refine ⟨hread, ?_⟩
  cases herror : r'.error with
  | some e' =>
    rw [herror] at hstop'
    exact ⟨e', rfl, by rw [Config.found_of_next hstop', Config.found_of_next hstop, hlookahead]⟩
  | none =>
    -- nothing would be left to derive or to read, but then the first machine has no error
    obtain ⟨hstack, hrest⟩ := Config.empty_of_next_stop hstop' herror
    rw [kindsRead, hread, hstack] at hder
    have hnil := hends (E.derives_nil_iff.1 hder)
    rw [hd.reads.2.1, hread] at hrest
    have hrest : c.rest = [] := hrest
    have hdone : c.next table = .stop none := by simp [Config.next, hnil, hrest]
    rw [hstop] at hdone
    cases hdone

/-- On tokens on which the machine with more cells stops, the other one stops with the same. -/
theorem exists_parse (hpred : table.Predicts W) {tokens : List (Token T)} {r' : ParseResult g'}
    (hr : table'.parse tokens = some r') : ∃ r, table.parse tokens = some r ∧ r'.AgreesWith r := by
  have hstops : table'.StopsFrom (E.config (.start g tokens)) r' := by
    rw [E.config_start]
    exact Table.parse_eq_some_iff.1 hr
  obtain ⟨steps, d, error, r'', hd, hstop, hr'', herror, hsteps⟩ := h.exists_stop hstops
  refine ⟨⟨steps, error⟩, Table.parse_eq_some_iff.2 (Table.stopsFrom_iff.2 ⟨d, hd, hstop⟩), ?_⟩
  cases error with
  | none =>
    obtain ⟨hstack, hrest⟩ := Config.empty_of_next_stop hstop rfl
    have hdone : (E.config d).next table' = .stop none := by simp [Config.next, config, hstack, hrest]
    obtain ⟨e, he, hstop''⟩ := Table.stopsFrom_iff.1 hr''
    obtain ⟨hnil, rfl⟩ := he.eq_of_stop hdone
    have herror : r'.error = none := herror.trans (Move.stop.inj (hstop''.symm.trans hdone))
    rw [hnil, List.map_nil, List.append_nil] at hsteps
    exact .inl ⟨herror, Prod.ext hsteps.symm herror.symm⟩
  | some e =>
    have hcovers : W.Covers d.stack := hd.covers hpred.closed hpred.covers_start
    obtain ⟨hread, e', he', hfound⟩ :=
      reads_nothing hpred hcovers (Grammar.eq_nil_of_startForm hd.derives) hstop hr''
    refine .inr ⟨e', e, herror.trans he', rfl, ?_, hfound.symm⟩
    rw [tokensRead_eq_named r'.derivation, hsteps, List.filterMap_append, ← tokensRead_eq_named,
      ← tokensRead_eq_named, hread, List.append_nil]

end KeepsCells

end Grammar.Embedding

/-- The second table is that of the grammar without its unreachable nonterminals: it has only cells that
the first one has, and its machine does as well on all tokens on which that of the first one stops. -/
structure Table.Trims (table : Table g) (table' : Table g') : Prop where
  exists_name : ∀ name, (∃ x', g'.name x' = name) ↔ ∃ x, g.IsReachable x ∧ g.name x = name
  start : g'.name g'.start = g.name g.start
  rulesOf : ∀ x x', g'.name x' = g.name x → g'.rulesOf x' = g.rulesOf x
  get? : ∀ x x' t p', g'.name x' = g.name x → table'.get? x' t = some p' →
    ∃ p, table.get? x t = some p ∧ p.rule = p'.rule
  parse : ∀ tokens r, table.parse tokens = some r → ∃ r', table'.parse tokens = some r' ∧ r.AgreesWith r'

end

/-! ### The rules that are left -/

namespace Grammar
variable {start : String} {rules : List (Rule T)} {g g' : Grammar T}

omit [Terminal T] in
/-- The rules for reachable nonterminals. -/
def trim (g : Grammar T) (rules : List (Rule T)) : List (Rule T) :=
  rules.filter fun r => g.reachable.any (g.name · = r.left)

omit [Terminal T] in
theorem mem_trim {r : Rule T} :
    r ∈ g.trim rules ↔ r ∈ rules ∧ ∃ x, g.IsReachable x ∧ g.name x = r.left := by
  simp [trim, mem_reachable_iff]

omit [Terminal T] in
theorem defines_trim {name : String} : Defines (g.trim rules) name ↔
    Defines rules name ∧ ∃ x, g.IsReachable x ∧ g.name x = name := by
  constructor
  · rintro ⟨r, hr, rfl⟩
    obtain ⟨hr, hx⟩ := mem_trim.1 hr
    exact ⟨⟨r, hr, rfl⟩, hx⟩
  · rintro ⟨⟨r, hr, rfl⟩, hx⟩
    exact ⟨r, mem_trim.2 ⟨hr, hx⟩, rfl⟩

/-- What a rule for a reachable nonterminal mentions is reachable. -/
theorem MadeOf.exists_isReachable (hg : g.MadeOf start rules) {r : Rule T} (hr : r ∈ rules)
    (hepsilon : r.EpsilonAlone) {x : g.Nonterminal} (hreach : g.IsReachable x) (hx : g.name x = r.left)
    {name : String} (hname : .nonterminal name ∈ r.right) : ∃ y, g.IsReachable y ∧ g.name y = name := by
  have hnormal : r.normal = r := by
    rcases r.normal_eq hepsilon with ⟨-, hall⟩ | ⟨hnormal, -⟩
    · cases hall _ hname
    · exact hnormal
  have hrule : r ∈ g.rulesOf x := by
    rw [hg.rulesOf]
    exact List.mem_map.2 ⟨r, List.mem_filter.2 ⟨hr, by simp [hx]⟩, hnormal⟩
  obtain ⟨u, hu, rfl⟩ := List.mem_map.1 hrule
  obtain ⟨s, hs, hsname⟩ := List.mem_map.1 hname
  cases s <;> cases hsname
  obtain ⟨p, rfl, rfl⟩ := Embedding.exists_production hu
  exact ⟨_, hreach.of_mem_right hs, rfl⟩

theorem acceptable_trim (hacceptable : Acceptable start rules) (hg : g.MadeOf start rules) :
    Acceptable start (g.trim rules) := by
  have hmem {r : Rule T} (hr : r ∈ g.trim rules) : r ∈ rules := (mem_trim.1 hr).1
  have hstart : Defines (g.trim rules) start :=
    defines_trim.2 ⟨hacceptable.start, g.start, g.isReachable_start, hg.start⟩
  refine ⟨?_, fun r hr => hacceptable.noTerminal r (hmem hr), hstart,
    fun r hr => hacceptable.epsilonAlone r (hmem hr), fun r hr name hname => ?_,
    fun r hr => hacceptable.notLeftRecursive r (hmem hr), hacceptable.distinct.filter _⟩
  · obtain ⟨r, hr, -⟩ := hstart
    exact List.ne_nil_of_mem hr
  · obtain ⟨hr, x, hreach, hx⟩ := mem_trim.1 hr
    exact defines_trim.2 ⟨hacceptable.resolves r hr name hname,
      hg.exists_isReachable hr (hacceptable.epsilonAlone r hr) hreach hx hname⟩

omit [Terminal T] in
theorem filter_trim {x : g.Nonterminal} (hx : g.IsReachable x) :
    (g.trim rules).filter (·.left = g.name x) = rules.filter (·.left = g.name x) := by
  rw [trim, List.filter_filter]
  refine List.filter_congr fun r _ => ?_
  by_cases hr : r.left = g.name x
  · have hany : g.reachable.any (g.name · = r.left) = true :=
      List.any_eq_true.2 ⟨x, mem_reachable_iff.2 hx, by simp [hr]⟩
    rw [hany, Bool.and_true]
  · simp [hr]

section
variable (hg : g.MadeOf start rules) (hg' : g'.MadeOf start (g.trim rules))
include hg hg'

theorem exists_name_trim {name : String} :
    (∃ x', g'.name x' = name) ↔ ∃ x, g.IsReachable x ∧ g.name x = name := by
  rw [hg'.exists_name, defines_trim, ← hg.exists_name]
  exact and_iff_right_of_imp fun ⟨x, _, hx⟩ => ⟨x, hx⟩

theorem rulesOf_trim {x : g.Nonterminal} {x' : g'.Nonterminal} (hx : g'.name x' = g.name x) :
    g'.rulesOf x' = g.rulesOf x := by
  obtain ⟨y, hreach, hy⟩ := (exists_name_trim hg hg').1 ⟨x', hx⟩
  obtain rfl := hg.name_inj _ _ hy
  rw [hg'.rulesOf, hx, filter_trim hreach, hg.rulesOf]

theorem exists_embedding_trim : Nonempty (Embedding g' g) := by
  refine exists_embedding hg'.name_inj hg.name_inj ?_ (hg'.start.trans hg.start.symm) ?_
  · intro x'
    obtain ⟨x, -, hx⟩ := (exists_name_trim hg hg').1 ⟨x', rfl⟩
    exact ⟨x, hx⟩
  · intro x' x hx r
    rw [rulesOf_trim hg hg' hx.symm]

end

/-- A grammar with a table can do without its unreachable rules. -/
theorem ofRules_trim (h : ofRules start rules = .ok g) {table : Table g}
    (htable : Table.ofGrammar g = .ok table) :
    ∃ g' table', ofRules start (g.trim rules) = .ok g' ∧ Table.ofGrammar g' = .ok table' ∧
      table.Trims table' := by
  obtain ⟨hacceptable, hg⟩ := madeOf_of_ofRules h
  obtain ⟨g', h'⟩ := exists_ofRules_iff.2 (acceptable_trim hacceptable hg)
  have hg' := (madeOf_of_ofRules h').2
  obtain ⟨E⟩ := exists_embedding_trim hg hg'
  obtain ⟨table', htable'⟩ := E.exists_table (wellFormed_of_ofRules h') ⟨table, htable⟩
  have hkeeps : E.KeepsCells table' table := fun _ _ _ hp => E.exists_get? htable' htable hp
  refine ⟨g', table', h', htable', fun name => exists_name_trim hg hg', hg'.start.trans hg.start.symm,
    fun x x' => rulesOf_trim hg hg', fun x x' t p' hx hp' => ?_, fun tokens r hr => ?_⟩
  · obtain ⟨p, himage, hp⟩ := hkeeps _ _ _ hp'
    obtain rfl : E.map x' = x := hg.name_inj _ _ ((E.name_map x').trans hx)
    exact ⟨p, hp, himage.rule_eq⟩
  · exact hkeeps.exists_parse (Table.predicts_of_ofGrammar htable') hr

end Grammar

/-! ### A list with a stray rule -/

namespace Stray
open Postfix (Kind)

/-- A list of numbers in parentheses, and a rule that nothing leads to, by which a plus can follow
numbers. -/
def rules : List (Rule Kind) :=
  [⟨"Line", [.terminal .openParen, .nonterminal "Items", .terminal .closeParen]⟩,
    ⟨"Items", [.terminal .number, .nonterminal "Items"]⟩, ⟨"Items", [.epsilon]⟩,
    ⟨"Sum", [.nonterminal "Items", .terminal .plus]⟩]

theorem isSome_ofRules : (Grammar.ofRules "Line" rules).toOption.isSome := by decide +kernel

def grammar : Grammar Kind := (Grammar.ofRules "Line" rules).toOption.get isSome_ofRules

theorem isSome_ofGrammar : (Table.ofGrammar grammar).toOption.isSome := by decide +kernel

def table : Table grammar := (Table.ofGrammar grammar).toOption.get isSome_ofGrammar

def line : grammar.Nonterminal := grammar.start

def items : grammar.Nonterminal := ⟨1, by decide +kernel⟩

theorem reachable_grammar : grammar.reachable = [line, items] := by
  have hline : grammar.successors line = [items] := by decide +kernel
  have hitems : grammar.successors items = [items] := by decide +kernel
  rw [Grammar.reachable, preorder, walk_cons_of_unmarked (by decide +kernel), ← line, hline,
    List.singleton_append, walk_cons_of_unmarked (by decide +kernel), hitems, List.singleton_append,
    walk_cons_of_marked (by decide +kernel), walk_nil]

/-- A parenthesis and a plus. -/
def tokens : List (Token Kind) :=
  [⟨.openParen, "(", .single ⟨1, 1, 0⟩⟩, ⟨.plus, "+", .single ⟨1, 2, 1⟩⟩]

/-- The error of the machine of the rules on the tokens, if it has one. -/
def errorBy (rules : List (Rule Kind)) : Option (ParseError Kind) :=
  (Grammar.ofRules "Line" rules).toOption.bind fun g => (Table.ofGrammar g).toOption.bind fun table =>
    (table.parse tokens).bind (·.error)

end Stray

/-- The stray rule lets the machine expand the items to nothing in front of a plus, and then a parenthesis
is missing. Without the rule there is an error at the plus at once. -/
theorem ofRules_trim_stray :
    Grammar.ofRules "Line" Stray.rules = .ok Stray.grammar ∧
    Table.ofGrammar Stray.grammar = .ok Stray.table ∧
    ∃ g' table' r r', Grammar.ofRules "Line" (Stray.grammar.trim Stray.rules) = .ok g' ∧
      Table.ofGrammar g' = .ok table' ∧ Stray.table.Trims table' ∧
      Stray.table.parse Stray.tokens = some r ∧ table'.parse Stray.tokens = some r' ∧ r.AgreesWith r' ∧
      r.error = some (.unexpectedToken .closeParen ⟨.plus, "+", ⟨1, 2, 1⟩⟩) ∧
      r'.error = some (.noRule "Items" ⟨.plus, "+", ⟨1, 2, 1⟩⟩ [.closeParen, .number]) := by
  have hgrammar : Grammar.ofRules "Line" Stray.rules = .ok Stray.grammar :=
    Postfix.eq_ok_get Stray.isSome_ofRules
  have htable : Table.ofGrammar Stray.grammar = .ok Stray.table :=
    Postfix.eq_ok_get Stray.isSome_ofGrammar
  obtain ⟨g', table', hgrammar', htable', htrims⟩ := Grammar.ofRules_trim hgrammar htable
  have herror : (Stray.table.run 20 (.start Stray.grammar Stray.tokens)).map (·.error) =
      some (some (.unexpectedToken .closeParen ⟨.plus, "+", ⟨1, 2, 1⟩⟩)) := by decide +kernel
  have herror' : Stray.errorBy (Stray.grammar.trim Stray.rules) =
      some (.noRule "Items" ⟨.plus, "+", ⟨1, 2, 1⟩⟩ [.closeParen, .number]) := by
    rw [Grammar.trim, Stray.reachable_grammar]
    decide +kernel
  obtain ⟨r, hr, hrerror⟩ := Option.map_eq_some_iff.1 herror
  have hparse : Stray.table.parse Stray.tokens = some r := Table.parse_eq_some_iff.2 ⟨20, hr⟩
  obtain ⟨r', hparse', hagrees⟩ := htrims.parse _ _ hparse
  simp only [Stray.errorBy, hgrammar', htable', hparse', Except.toOption, Option.bind_some] at herror'
  exact ⟨hgrammar, htable, g', table', r, r', hgrammar', htable', htrims, hparse, hparse', hagrees, hrerror,
    herror'⟩

end Predictive
