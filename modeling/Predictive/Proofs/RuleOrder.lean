import Predictive.Proofs.Embedding
import Predictive.Proofs.StepLimit
import Predictive.Proofs.Validation

/-!
# The order of rules

Rules in another order make a grammar with other numbers that says the same (`Grammar.Agrees`): what
belongs to nonterminals of the same name is equal, and the machines of the two tables do the same, step
by step. The two grammars embed in each other (`exists_embedding`), so the table of each has the cells
of the other (`Embedding.SameCells`); and a machine with the stack of another, embedded, makes the same
move (`Embedding.SameCells.next_config`).
-/

namespace Predictive
variable {T : Type} [Terminal T]

section
variable {g : Grammar T}

/-- The production as a rule, with names for numbers. -/
def Grammar.Production.rule (p : g.Production) : Rule T := g.ruleOf p.left p.right

/-- The step of a derivation: the token that is matched, or the rule that is used. -/
def Step.named : Step g → Lookahead T ⊕ Rule T
  | matched token => .inl token
  | expanded p => .inr p.rule

/-- The steps and the error, without numbers. -/
def ParseResult.named (r : ParseResult g) : List (Lookahead T ⊕ Rule T) × Option (ParseError T) :=
  (r.derivation.map Step.named, r.error)

omit [Terminal T] in
theorem map_named_of_go {step : Option (Step g)} {result : Option (ParseResult g)} :
    (result.map fun r => ⟨step.toList ++ r.derivation, r.error⟩).map ParseResult.named =
      (result.map ParseResult.named).map fun r => ((step.map Step.named).toList ++ r.1, r.2) := by
  cases result <;> cases step <;> rfl

/-- What is named of the result does not depend on the limit that the machine is given. -/
theorem map_parse_eq_some_iff {table : Table g} {tokens : List (Token T)}
    {result : List (Lookahead T ⊕ Rule T) × Option (ParseError T)} :
    (table.parse tokens).map ParseResult.named = some result ↔
      ∃ limit, (table.run limit (.start g tokens)).map ParseResult.named = some result := by
  simp only [Option.map_eq_some_iff, Table.parse_eq_some_iff, Table.Stops]
  constructor
  · rintro ⟨r, ⟨limit, hr⟩, rfl⟩
    exact ⟨limit, r, hr, rfl⟩
  · rintro ⟨limit, r, hr, rfl⟩
    exact ⟨r, ⟨limit, hr⟩, rfl⟩

end

namespace Grammar

/-- The grammars say the same of every name, and so do what is computed from them and their tables. -/
structure Agrees (g g' : Grammar T) : Prop where
  exists_name : ∀ name, (∃ x, g.name x = name) ↔ ∃ x', g'.name x' = name
  start : g.name g.start = g'.name g'.start
  rulesOf : ∀ x x', g.name x = g'.name x' → (g.rulesOf x).Perm (g'.rulesOf x')
  first : ∀ x x', g.name x = g'.name x' → g.first.value.of x = g'.first.value.of x'
  follow : ∀ x x', g.name x = g'.name x' →
    (follow g.first.value).value.of x = (follow g'.first.value).value.of x'
  exists_table : (∃ table, Table.ofGrammar g = .ok table) ↔ ∃ table', Table.ofGrammar g' = .ok table'
  get? : ∀ table table', Table.ofGrammar g = .ok table → Table.ofGrammar g' = .ok table' →
    ∀ x x' t, g.name x = g'.name x' →
      (table.get? x t).map Production.rule = (table'.get? x' t).map Production.rule
  parse : ∀ table table', Table.ofGrammar g = .ok table → Table.ofGrammar g' = .ok table' →
    ∀ tokens, (table.parse tokens).map ParseResult.named = (table'.parse tokens).map ParseResult.named

/-! ### Machines with the same cells -/

namespace Embedding
variable {g g' : Grammar T} (E : Embedding g g') {p : g.Production} {p' : g'.Production}
  {table : Table g} {table' : Table g'}

omit [Terminal T] in
theorem IsImage.rule_eq (h : E.IsImage p p') : p'.rule = p.rule := by
  unfold Production.rule ruleOf
  rw [h.left, h.right, E.name_map, E.map_rename_form]

theorem IsImage.expansion_eq (h : E.IsImage p p') : p'.expansion = E.form p.expansion := by
  have hepsilon : p'.IsEpsilon ↔ p.IsEpsilon := by
    unfold Production.IsEpsilon
    rw [h.right]
    exact E.form_injective.eq_iff (b := [.epsilon])
  unfold Production.expansion
  by_cases hp : p.IsEpsilon
  · rw [if_pos hp, if_pos (hepsilon.2 hp), form_nil]
  · rw [if_neg hp, if_neg (mt hepsilon.1 hp), h.right]

/-- The machine with its stack embedded. -/
def config (c : Config g) : Config g' := ⟨E.form c.stack, c.rest, c.close⟩

theorem config_start (tokens : List (Token T)) : E.config (.start g tokens) = .start g' tokens := by
  unfold Config.start config
  rw [E.start]
  rfl

/-- The second table has every production of the first one in its place. -/
def KeepsCells (table : Table g) (table' : Table g') : Prop :=
  ∀ x t p, table.get? x t = some p → ∃ p', E.IsImage p p' ∧ table'.get? (E.map x) t = some p'

variable {E} in
/-- Where a machine goes on, one that has its cells goes on to the same, having done the same. -/
theorem KeepsCells.go_config (h : E.KeepsCells table table') {c d : Config g} {step : Option (Step g)}
    (hgo : c.next table = .go step d) :
    ∃ step', (E.config c).next table' = .go step' (E.config d) ∧
      step'.map Step.named = step.map Step.named := by
  rcases Config.next_eq_go hgo with ⟨below, hs, rfl, rfl⟩ | ⟨p, below, hs, hp, rfl, rfl⟩ |
    ⟨below, hs, rfl, rfl⟩
  · have hs' : (E.config c).stack = .terminal c.lookahead.kind :: E.form below := congrArg E.form hs
    exact ⟨_, Config.next_of_terminal hs' rfl, rfl⟩
  · have hs' : (E.config c).stack = .nonterminal (E.map p.left) :: E.form below := congrArg E.form hs
    obtain ⟨p', himage, hp'⟩ := h _ _ p hp
    refine ⟨some (.expanded p'), ?_, congrArg (fun r => some (Sum.inr r)) himage.rule_eq⟩
    rw [Config.next_of_get? hs' hp', himage.expansion_eq, ← form_append]
    rfl
  · have hs' : (E.config c).stack = .epsilon :: E.form below := congrArg E.form hs
    exact ⟨none, Config.next_of_epsilon hs', rfl⟩

/-- The tables have the same cells for the nonterminals of `g`. -/
structure SameCells (table : Table g) (table' : Table g') : Prop where
  of_some : ∀ x t p, table.get? x t = some p → ∃ p', E.IsImage p p' ∧ table'.get? (E.map x) t = some p'
  of_none : ∀ x t, table.get? x t = none → table'.get? (E.map x) t = none

namespace SameCells
variable {E} (h : E.SameCells table table')
include h

theorem map_rule_get? (x : g.Nonterminal) (t : T) :
    (table'.get? (E.map x) t).map Production.rule = (table.get? x t).map Production.rule := by
  cases hget : table.get? x t with
  | none => rw [h.of_none x t hget]; rfl
  | some p =>
    obtain ⟨p', himage, hget'⟩ := h.of_some x t p hget
    rw [hget', Option.map_some, Option.map_some, himage.rule_eq]

theorem expected_eq (x : g.Nonterminal) : table'.expected (E.map x) = table.expected x := by
  have hincreasing {g : Grammar T} (table : Table g) (y : g.Nonterminal) :
      (table.expected y).Pairwise (compare · · = .lt) := List.pairwise_map.2 (table.increasing y)
  refine Sorted.ext (hincreasing table' _) (hincreasing table x) fun t => ?_
  rw [Table.mem_expected, Table.mem_expected, ← Option.isSome_iff_exists, ← Option.isSome_iff_exists,
    ← Option.isSome_map (f := Production.rule), h.map_rule_get? x t, Option.isSome_map]

/-- One step: both machines stop for the same reason, or go on to the same, having done the same. -/
theorem next_config (c : Config g) :
    (∃ error, c.next table = .stop error ∧ (E.config c).next table' = .stop error) ∨
    ∃ step step' d, c.next table = .go step d ∧ (E.config c).next table' = .go step' (E.config d) ∧
      step'.map Step.named = step.map Step.named := by
  cases hnext : c.next table with
  | go step d =>
    obtain ⟨step', hgo', hsame⟩ := KeepsCells.go_config h.of_some hnext
    exact .inr ⟨step, step', d, rfl, hgo', hsame⟩
  | stop error =>
    have hlookahead : (E.config c).lookahead = c.lookahead := rfl
    refine .inl ⟨error, rfl, ?_⟩
    rcases Config.next_eq_stop hnext with ⟨hs, hrest, rfl⟩ | ⟨hs, hrest, rfl⟩ | ⟨t, below, hs, ht, rfl⟩ |
      ⟨x, below, hs, hget, rfl⟩
    · have hs' : (E.config c).stack = [] := congrArg E.form hs
      have hrest' : (E.config c).rest = [] := hrest
      simp [Config.next, hs', hrest']
    · have hs' : (E.config c).stack = [] := congrArg E.form hs
      have hrest' : (E.config c).rest ≠ [] := hrest
      simp only [Config.next, hs', List.isEmpty_iff, if_neg hrest']
      rfl
    · have hs' : (E.config c).stack = .terminal t :: E.form below := congrArg E.form hs
      exact Config.next_of_ne hs' ht
    · have hs' : (E.config c).stack = .nonterminal (E.map x) :: E.form below := congrArg E.form hs
      rw [Config.next_of_get?_none hs' (h.of_none x _ hget), hlookahead, E.name_map, h.expected_eq]

theorem run_config (limit : Nat) (c : Config g) :
    (table'.run limit (E.config c)).map ParseResult.named =
      (table.run limit c).map ParseResult.named := by
  induction limit generalizing c with
  | zero => rfl
  | succ limit ih =>
    rcases h.next_config c with ⟨error, hstop, hstop'⟩ | ⟨step, step', d, hgo, hgo', hsame⟩
    · rw [Table.run_of_stop hstop, Table.run_of_stop hstop']
      rfl
    · rw [Table.run_of_go hgo, Table.run_of_go hgo', map_named_of_go, map_named_of_go, ih, hsame]

/-- The machines stop with the same result, or neither stops. -/
theorem parse_eq (tokens : List (Token T)) :
    (table'.parse tokens).map ParseResult.named = (table.parse tokens).map ParseResult.named := by
  refine Option.ext fun result => ?_
  rw [map_parse_eq_some_iff, map_parse_eq_some_iff, ← E.config_start]
  exact exists_congr fun limit => by rw [h.run_config]

end SameCells

end Embedding

/-! ### Grammars that embed in each other -/

section
variable {g g' : Grammar T} (E : Embedding g g') (E' : Embedding g' g)
include E E'

omit [Terminal T] in
theorem map_map (hg : ∀ x y, g.name x = g.name y → x = y) (x : g.Nonterminal) : E'.map (E.map x) = x := by
  refine hg _ _ ?_
  rw [E'.name_map, E.name_map]

theorem sameCells (hg : ∀ x y, g.name x = g.name y → x = y) {table : Table g} {table' : Table g'}
    (htable : Table.ofGrammar g = .ok table) (htable' : Table.ofGrammar g' = .ok table') :
    E.SameCells table table' where
  of_some _ _ _ h := E.exists_get? htable htable' h
  of_none x t h := by
    refine Option.eq_none_iff_forall_ne_some.2 fun p' hp' => ?_
    obtain ⟨p, -, hp⟩ := E'.exists_get? htable' htable hp'
    rw [map_map E E' hg, h] at hp
    cases hp

theorem follow_eq (hg : ∀ x y, g.name x = g.name y → x = y) (x : g.Nonterminal) :
    (follow g'.first.value).value.of (E.map x) = (follow g.first.value).value.of x := by
  refine TerminalSet.ext fun t => ⟨fun ht => ?_, E.follow_subset⟩
  have hback := E'.follow_subset ht
  rwa [map_map E E' hg] at hback

end

/-! ### Rules in another order -/

section
variable {start : String} {rules rules' : List (Rule T)} {g g' : Grammar T}

omit [Terminal T] in
theorem defines_perm (hperm : rules.Perm rules') (name : String) :
    Defines rules name ↔ Defines rules' name :=
  exists_congr fun _ => and_congr_left' hperm.mem_iff

theorem acceptable_perm (hperm : rules.Perm rules') (h : Acceptable start rules) :
    Acceptable start rules' where
  nonempty hnil := h.nonempty (hnil ▸ hperm).eq_nil
  noTerminal r hr := h.noTerminal r (hperm.mem_iff.2 hr)
  start := (defines_perm hperm start).1 h.start
  epsilonAlone r hr := h.epsilonAlone r (hperm.mem_iff.2 hr)
  resolves r hr name hname := (defines_perm hperm name).1 (h.resolves r (hperm.mem_iff.2 hr) name hname)
  notLeftRecursive r hr := h.notLeftRecursive r (hperm.mem_iff.2 hr)
  distinct := (hperm.pairwise_iff fun hne => hne.symm).1 h.distinct

theorem rulesOf_perm (hg : g.MadeOf start rules) (hg' : g'.MadeOf start rules')
    (hperm : rules.Perm rules') {x : g.Nonterminal} {x' : g'.Nonterminal} (hx : g.name x = g'.name x') :
    (g.rulesOf x).Perm (g'.rulesOf x') := by
  rw [hg.rulesOf, hg'.rulesOf, hx]
  exact (hperm.filter _).map _

theorem exists_embedding_perm (hg : g.MadeOf start rules) (hg' : g'.MadeOf start rules')
    (hperm : rules.Perm rules') : Nonempty (Embedding g g') := by
  refine exists_embedding hg.name_inj hg'.name_inj ?_ (hg.start.trans hg'.start.symm) ?_
  · intro x
    rw [hg'.exists_name, ← defines_perm hperm, ← hg.exists_name]
    exact ⟨x, rfl⟩
  · intro x x' hx r
    exact (rulesOf_perm hg hg' hperm hx.symm).symm.mem_iff

/-- The order of rules does not matter: in any order they make a grammar that says the same. -/
theorem ofRules_perm (h : ofRules start rules = .ok g) (hperm : rules.Perm rules') :
    ∃ g', ofRules start rules' = .ok g' ∧ g.Agrees g' := by
  obtain ⟨hacceptable, hg⟩ := madeOf_of_ofRules h
  obtain ⟨g', h'⟩ := exists_ofRules_iff.2 (acceptable_perm hperm hacceptable)
  have hg' := (madeOf_of_ofRules h').2
  obtain ⟨E⟩ := exists_embedding_perm hg hg' hperm
  obtain ⟨E'⟩ := exists_embedding_perm hg' hg hperm.symm
  have hplace {x : g.Nonterminal} {x' : g'.Nonterminal} (hx : g.name x = g'.name x') : x' = E.map x :=
    hg'.name_inj _ _ (hx.symm.trans (E.name_map x).symm)
  refine ⟨g', h', ?_, hg.start.trans hg'.start.symm, fun x x' => rulesOf_perm hg hg' hperm, ?_, ?_, ?_, ?_, ?_⟩
  · intro name
    rw [hg.exists_name, hg'.exists_name, defines_perm hperm]
  · intro x x' hx
    rw [hplace hx, E.first_eq]
  · intro x x' hx
    rw [hplace hx, follow_eq E E' hg.name_inj]
  · exact ⟨E'.exists_table (wellFormed_of_ofRules h'), E.exists_table (wellFormed_of_ofRules h)⟩
  · intro table table' htable htable' x x' t hx
    rw [hplace hx, (sameCells E E' hg.name_inj htable htable').map_rule_get?]
  · intro table table' htable htable' tokens
    rw [(sameCells E E' hg.name_inj htable htable').parse_eq]

end

end Grammar

/-- The built-in grammar from its rules in reverse, where the start symbol comes last. -/
theorem ofRules_perm_reverse :
    Grammar.ofRules "Program" Postfix.rules = .ok Postfix.grammar ∧
    Postfix.rules.Perm Postfix.rules.reverse ∧
    ∃ g', Grammar.ofRules "Program" Postfix.rules.reverse = .ok g' ∧ Postfix.grammar.Agrees g' ∧
      (g'.start : Nat) ≠ Postfix.grammar.start := by
  have hperm : Postfix.rules.Perm Postfix.rules.reverse := (List.reverse_perm _).symm
  obtain ⟨g', hg', hagrees⟩ := Grammar.ofRules_perm Postfix.ofRules_eq_ok hperm
  refine ⟨Postfix.ofRules_eq_ok, hperm, g', hg', hagrees, ?_⟩
  have hstart : (Grammar.ofRules "Program" Postfix.rules.reverse).toOption.map (·.start.val) =
      some (Postfix.grammar.size - 1) := by decide +kernel
  rw [hg'] at hstart
  have hlast : (g'.start : Nat) = Postfix.grammar.size - 1 := Option.some.inj hstart
  rw [hlast]
  decide +kernel

end Predictive
