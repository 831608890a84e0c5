import Mathlib.Data.List.Induction
import Predictive.Proofs.Rebuilding

/-!
# When rules make a grammar

Whether rules make a grammar is said of the rules themselves (`Acceptable`), and so is what is wrong if
they do not (`FirstFault`): first what concerns left-hand sides, then the first rule that does not fit
with all rules and those before it (`Rule.Fits`), and of this rule the first thing that is at fault
(`Rule.Fault`).

Rules are resolved one after the other. The alternatives that the rules so far have made are these rules
again, with numbers for names and an epsilon for nothing (`resolveRules_ok_spec`). So an alternative is
listed already exactly if a rule says the same, and what a nonterminal has in the end are its rules.
-/

namespace Predictive

theorem pairwise_iff_forall_split {α : Type} {R : α → α → Prop} {l : List α} :
    l.Pairwise R ↔ ∀ before x after, l = before ++ x :: after → ∀ y ∈ before, R y x := by
  constructor
  · rintro h before x after rfl y hy
    exact (List.pairwise_append.1 h).2.2 y hy x (List.mem_cons_self ..)
  · intro h
    induction l using List.reverseRecOn with
    | nil => exact List.Pairwise.nil
    | append_singleton l x ih =>
      have hl : l.Pairwise R := ih fun before y after hsplit => h before y (after ++ [x]) (by simp [hsplit])
      refine List.pairwise_append.2 ⟨hl, List.pairwise_singleton .., ?_⟩
      intro y hy z hz
      rw [List.mem_singleton.1 hz]
      exact h l x [] rfl y hy

theorem forall_split_cons {α : Type} {P : List α → α → Prop} {y : α} {l : List α} :
    (∀ before x after, y :: l = before ++ x :: after → P before x) ↔
      P [] y ∧ ∀ before x after, l = before ++ x :: after → P (y :: before) x := by
  constructor
  · intro h
    refine ⟨h [] y l rfl, ?_⟩
    rintro before x after rfl
    exact h (y :: before) x after rfl
  · rintro ⟨hy, hl⟩ before x after h
    rcases List.cons_eq_append_iff.1 h with ⟨rfl, heq⟩ | ⟨before', rfl, heq⟩
    · cases heq
      exact hy
    · exact hl before' x after heq

/-- A list has one first element at which a property of the element and those before it fails. -/
theorem first_unique {α : Type} {P : List α → α → Prop} {a b a' b' : List α} {x x' : α}
    (h : a ++ x :: b = a' ++ x' :: b') (ha : ∀ c y d, a = c ++ y :: d → P c y) (hx : ¬ P a x)
    (ha' : ∀ c y d, a' = c ++ y :: d → P c y) (hx' : ¬ P a' x') : a = a' ∧ x = x' := by
  rcases List.append_eq_append_iff.1 h with ⟨c, rfl, hc⟩ | ⟨c, rfl, hc⟩
  · rcases List.cons_eq_append_iff.1 hc with ⟨rfl, hc⟩ | ⟨d, rfl, -⟩
    · exact ⟨(List.append_nil a).symm, (List.cons.inj hc).1⟩
    · exact absurd (ha' a x d rfl) hx
  · rcases List.cons_eq_append_iff.1 hc with ⟨rfl, hc⟩ | ⟨d, rfl, -⟩
    · exact ⟨List.append_nil a', (List.cons.inj hc).1.symm⟩
    · exact absurd (ha a' x' d rfl) hx'

section
variable {T : Type} [Terminal T]

/-- Some rule has the name on its left-hand side. -/
def Defines (rules : List (Rule T)) (name : String) : Prop := ∃ r ∈ rules, r.left = name

namespace Rule

/-- The rule with epsilon alone for an empty right-hand side. -/
def normal (r : Rule T) : Rule T :=
  if ∀ s ∈ r.right, s = .epsilon then { r with right := [.epsilon] } else r

/-- Epsilon does not stand beside another symbol. -/
def EpsilonAlone (r : Rule T) : Prop := (∀ s ∈ r.right, s = .epsilon) ∨ .epsilon ∉ r.right

/-- Every name on the right-hand side is defined. -/
def Resolves (rules : List (Rule T)) (r : Rule T) : Prop :=
  ∀ name, .nonterminal name ∈ r.right → Defines rules name

def IsLeftRecursive (r : Rule T) : Prop := r.right.head? = some (.nonterminal r.left)

/-- The rule can be taken, where `earlier` are the rules before it. -/
structure Fits (rules earlier : List (Rule T)) (r : Rule T) : Prop where
  epsilonAlone : r.EpsilonAlone
  resolves : r.Resolves rules
  notLeftRecursive : ¬ r.IsLeftRecursive
  new : ∀ q ∈ earlier, q.normal ≠ r.normal

/-- The first thing that is wrong with the rule, where `earlier` are the rules before it. -/
inductive Fault (rules earlier : List (Rule T)) (r : Rule T) : GrammarError T → Prop where
  | misplacedEpsilon : ¬ r.EpsilonAlone → Fault rules earlier r (.misplacedEpsilon r)
  | unknownSymbol {before after : List (Symbol T String)} {name : String} : r.EpsilonAlone →
    r.right = before ++ .nonterminal name :: after →
    (∀ n, .nonterminal n ∈ before → Defines rules n) → ¬ Defines rules name →
    Fault rules earlier r (.unknownSymbol r.left name)
  | leftRecursion : r.EpsilonAlone → r.Resolves rules → r.IsLeftRecursive →
    Fault rules earlier r (.leftRecursion r.left)
  | duplicate {q : Rule T} : r.EpsilonAlone → r.Resolves rules → ¬ r.IsLeftRecursive →
    q ∈ earlier → q.normal = r.normal → Fault rules earlier r (.duplicate r)

end Rule

/-- What rules have to be to make a grammar. -/
structure Acceptable (start : String) (rules : List (Rule T)) : Prop where
  nonempty : rules ≠ []
  noTerminal : ∀ r ∈ rules, (Terminal.ofName? r.left : Option T) = none
  start : Defines rules start
  epsilonAlone : ∀ r ∈ rules, r.EpsilonAlone
  resolves : ∀ r ∈ rules, r.Resolves rules
  notLeftRecursive : ∀ r ∈ rules, ¬ r.IsLeftRecursive
  distinct : rules.Pairwise fun q r => q.normal ≠ r.normal

/-- Why rules make no grammar: there are none, a terminal is defined, nothing defines the start symbol, or
a rule is at fault. Only the first of these counts, and the first rule. -/
inductive FirstFault (start : String) (rules : List (Rule T)) : GrammarError T → Prop where
  | noRules : rules = [] → FirstFault start rules .noRules
  | terminalOnLeft {before after : List (Rule T)} {r : Rule T} : rules = before ++ r :: after →
    (∀ q ∈ before, (Terminal.ofName? q.left : Option T) = none) →
    (Terminal.ofName? r.left : Option T) ≠ none → FirstFault start rules (.terminalOnLeft r.left)
  | undefinedStart : rules ≠ [] → (∀ r ∈ rules, (Terminal.ofName? r.left : Option T) = none) →
    ¬ Defines rules start → FirstFault start rules (.undefinedStart start)
  | rule {before after : List (Rule T)} {r : Rule T} {e : GrammarError T} :
    (∀ r ∈ rules, (Terminal.ofName? r.left : Option T) = none) → Defines rules start →
    rules = before ++ r :: after → (∀ a q b, before = a ++ q :: b → q.Fits rules a) →
    r.Fault rules before e → FirstFault start rules e

/-- The grammar has the nonterminals that the rules define, by their first rules, and the alternatives
of each are its rules, in order. -/
structure Grammar.MadeOf (g : Grammar T) (start : String) (rules : List (Rule T)) : Prop where
  start : g.name g.start = start
  name_inj : ∀ x y, g.name x = g.name y → x = y
  exists_name : ∀ name, (∃ x, g.name x = name) ↔ Defines rules name
  ordered : ∀ x y, x < y →
    (rules.map (·.left)).idxOf (g.name x) < (rules.map (·.left)).idxOf (g.name y)
  lookup? : ∀ x, g.lookup? (g.name x) = some x
  rulesOf : ∀ x, g.rulesOf x = (rules.filter (·.left = g.name x)).map Rule.normal
  inRange : ∀ (p : g.Production) (x : g.Nonterminal), .nonterminal x ∈ p.right → (x : Nat) < g.size

/-! ### One rule -/

namespace Rule
variable {rules earlier : List (Rule T)} {r q : Rule T} {e e' : GrammarError T}

theorem normal_eq (hr : r.EpsilonAlone) :
    (r.normal = { r with right := [.epsilon] } ∧ ∀ s ∈ r.right, s = .epsilon) ∨
      r.normal = r ∧ r.right ≠ [] ∧ .epsilon ∉ r.right := by
  unfold normal
  split
  · next hall => exact .inl ⟨rfl, hall⟩
  · next hall =>
    refine .inr ⟨rfl, ?_, hr.resolve_left hall⟩
    intro hnil
    simp [hnil] at hall

theorem left_normal (r : Rule T) : r.normal.left = r.left := by
  unfold normal
  split <;> rfl

theorem Fault.not_fits (h : r.Fault rules earlier e) : ¬ r.Fits rules earlier := by
  intro hfits
  cases h with
  | misplacedEpsilon hr => exact hr hfits.epsilonAlone
  | unknownSymbol _ hright _ hname => exact hname (hfits.resolves _ (by simp [hright]))
  | leftRecursion _ _ hr => exact hfits.notLeftRecursive hr
  | duplicate _ _ _ hq hsame => exact hfits.new _ hq hsame

theorem Fault.unique (h : r.Fault rules earlier e) (h' : r.Fault rules earlier e') : e = e' := by
  have hunresolved {before after : List (Symbol T String)} {name : String}
      (hright : r.right = before ++ .nonterminal name :: after) (hname : ¬ Defines rules name) :
      ¬ r.Resolves rules := fun hr => hname (hr name (by simp [hright]))
  cases h with
  | misplacedEpsilon hr =>
    cases h' with
    | misplacedEpsilon => rfl
    | unknownSymbol hr' => exact absurd hr' hr
    | leftRecursion hr' => exact absurd hr' hr
    | duplicate hr' => exact absurd hr' hr
  | @unknownSymbol before after name hr hright hbefore hname =>
    cases h' with
    | misplacedEpsilon hr' => exact absurd hr hr'
    | @unknownSymbol before' after' name' _ hright' hbefore' hname' =>
      -- both are the first name that is not defined
      have hsame := first_unique (P := fun _ s => ∀ n, s = .nonterminal n → Defines rules n)
        (hright.symm.trans hright') ?_ (fun hP => hname (hP _ rfl)) ?_ fun hP => hname' (hP _ rfl)
      · obtain ⟨-, heq⟩ := hsame
        cases heq
        rfl
      · rintro c s d rfl n rfl
        exact hbefore n (by simp)
      · rintro c s d rfl n rfl
        exact hbefore' n (by simp)
    | leftRecursion _ hr' => exact absurd hr' (hunresolved hright hname)
    | duplicate _ hr' => exact absurd hr' (hunresolved hright hname)
  | leftRecursion hr hresolves hleft =>
    cases h' with
    | misplacedEpsilon hr' => exact absurd hr hr'
    | unknownSymbol _ hright _ hname => exact absurd hresolves (hunresolved hright hname)
    | leftRecursion => rfl
    | duplicate _ _ hleft' => exact absurd hleft hleft'
  | duplicate hr hresolves hleft =>
    cases h' with
    | misplacedEpsilon hr' => exact absurd hr hr'
    | unknownSymbol _ hright _ hname => exact absurd hresolves (hunresolved hright hname)
    | leftRecursion _ _ hleft' => exact absurd hleft' hleft
    | duplicate => rfl

end Rule

namespace Grammar

/-! ### Resolving rules -/

section
variable {names : List String}

omit [Terminal T] in
theorem mem_of_mem_map_rename {u : List (Symbol T (Fin names.length))} {name : String}
    (h : .nonterminal name ∈ u.map (Symbol.rename names.get)) : name ∈ names := by
  obtain ⟨s, -, hs⟩ := List.mem_map.1 h
  cases s <;> cases hs
  exact List.get_mem ..

omit [Terminal T] in
theorem resolveSymbols_error {right : List (Symbol T String)} {name : String}
    (h : resolveSymbols names right = .error name) :
    ∃ before after, right = before ++ .nonterminal name :: after ∧
      (∀ n, .nonterminal n ∈ before → n ∈ names) ∧ name ∉ names := by
  induction right with
  | nil => cases h
  | cons s right ih =>
    unfold resolveSymbols at h
    split at h
    · next name' hs =>
      cases h
      cases s with
      | nonterminal n =>
        unfold resolveSymbol at hs
        dsimp only at hs
        split at hs
        · cases hs
        · next hn =>
          cases hs
          exact ⟨[], right, rfl, by simp, List.finIdxOf?_eq_none_iff.1 hn⟩
      | terminal t => cases hs
      | epsilon => cases hs
    · next s' hs =>
      split at h
      · next name' hright =>
        cases h
        obtain ⟨before, after, rfl, hbefore, hname⟩ := ih hright
        refine ⟨s :: before, after, rfl, ?_, hname⟩
        intro n hn
        rcases List.mem_cons.1 hn with rfl | hn
        · refine mem_of_mem_map_rename (u := [s']) ?_
          simp [resolveSymbol_ok hs]
        · exact hbefore n hn
      · cases h

variable {rules done : List (Rule T)} {earlier : List (Resolved T names)} {x : Fin names.length}
  {r : Rule T} {u : List (Symbol T (Fin names.length))}

omit [Terminal T] in
theorem namedRule_injective (hnames : names.Nodup) :
    Function.Injective (namedRule : Resolved T names → Rule T) := by
  rintro ⟨x, u⟩ ⟨y, v⟩ h
  have hget : Function.Injective names.get := fun _ _ => hnames.get_inj_iff.1
  obtain rfl := hget (congrArg Rule.left h)
  obtain rfl := (Symbol.rename_injective hget).list_map (congrArg Rule.right h)
  rfl

theorem resolveRight_error_spec (hdefined : ∀ name, name ∈ names ↔ Defines rules name) {e : GrammarError T}
    (h : resolveRight names r = .error e) : r.Fault rules done e := by
  unfold resolveRight at h
  split at h
  · cases h
  · next hall =>
    split at h
    · next hmixed =>
      cases h
      refine .misplacedEpsilon ?_
      rintro (hr | hr)
      · exact hall (by simpa using hr)
      · exact hr (by simpa using hmixed)
    · next hmixed =>
      split at h
      · next name hright =>
        cases h
        obtain ⟨before, after, hsplit, hbefore, hname⟩ := resolveSymbols_error hright
        refine .unknownSymbol (.inr (by simpa using hmixed)) hsplit ?_ ?_
        · intro n hn
          exact (hdefined n).1 (hbefore n hn)
        · rwa [← hdefined]
      · cases h

section
variable (hx : names.get x = r.left) (h : resolveRight names r = .ok u)
include hx h

/-- The alternative is the rule, with numbers for names. -/
theorem namedRule_of_resolveRight : r.EpsilonAlone ∧ namedRule (x, u) = r.normal := by
  have hname : namedRule (x, u) = { r with right := u.map (Symbol.rename names.get) } := by
    rw [namedRule, hx]
  rcases resolveRight_ok h with ⟨rfl, hall⟩ | ⟨hu, hepsilon⟩
  · refine ⟨.inl hall, ?_⟩
    rw [hname, Rule.normal, if_pos hall]
    rfl
  · refine ⟨.inr hepsilon, ?_⟩
    rcases Rule.normal_eq (.inr hepsilon) with ⟨hnormal, hall⟩ | ⟨hnormal, -⟩
    -- nothing but epsilon, and no epsilon: the right-hand side is empty
    · have hnil : r.right = [] :=
        List.eq_nil_iff_forall_not_mem.2 fun s hs => hepsilon (hall s hs ▸ hs)
      rw [resolveRight, hnil] at h
      obtain rfl : [.epsilon] = u := Except.ok.inj h
      rw [hname, hnormal]
      rfl
    · rw [hname, hnormal, hu]

theorem resolves_of_resolveRight (hdefined : ∀ name, name ∈ names ↔ Defines rules name) : r.Resolves rules := by
  obtain ⟨hepsilon, hnamed⟩ := namedRule_of_resolveRight hx h
  intro name hname
  rw [← hdefined]
  rcases Rule.normal_eq hepsilon with ⟨-, hall⟩ | ⟨hnormal, -⟩
  · cases hall _ hname
  · rw [← hnormal, ← hnamed] at hname
    exact mem_of_mem_map_rename hname

variable (hnames : names.Nodup)
include hnames

theorem head?_eq_iff : u.head? = some (.nonterminal x) ↔ r.IsLeftRecursive := by
  have hget : Function.Injective names.get := fun _ _ => hnames.get_inj_iff.1
  have hrename : Symbol.rename names.get (.nonterminal x) = (.nonterminal r.left : Symbol T String) :=
    congrArg Symbol.nonterminal hx
  rcases resolveRight_ok h with ⟨rfl, hall⟩ | ⟨hu, -⟩
  · simp only [List.head?_cons, Option.some.injEq, reduceCtorEq, false_iff, Rule.IsLeftRecursive]
    intro hhead
    cases hall _ (List.mem_of_mem_head? hhead)
  · rw [Rule.IsLeftRecursive, ← hu, ← hrename, List.head?_map]
    exact (Option.map_injective (Symbol.rename_injective hget)).eq_iff.symm

theorem mem_earlier (hearlier : earlier.map namedRule = done.map Rule.normal) :
    (x, u) ∈ earlier ↔ ∃ q ∈ done, q.normal = r.normal := by
  rw [← List.mem_map_of_injective (namedRule_injective hnames), hearlier,
    (namedRule_of_resolveRight hx h).2, List.mem_map]

end

/-! ### All rules -/

section
variable (hnames : names.Nodup) (hdefined : ∀ name, name ∈ names ↔ Defines rules name)
  (hearlier : earlier.map namedRule = done.map Rule.normal)
include hnames hdefined hearlier

theorem resolveRule_ok_spec (hx : names.get x = r.left) {found : Resolved T names}
    (h : resolveRule names earlier x r = .ok found) : r.Fits rules done ∧ namedRule found = r.normal := by
  obtain ⟨rfl, hright, hhead, hnew⟩ := resolveRule_ok h
  obtain ⟨hepsilon, hnamed⟩ := namedRule_of_resolveRight hx hright
  refine ⟨⟨hepsilon, resolves_of_resolveRight hx hright hdefined, ?_, ?_⟩, hnamed⟩
  · rwa [← head?_eq_iff hx hright hnames]
  · intro q hq hsame
    exact hnew ((mem_earlier hx hright hnames hearlier).2 ⟨q, hq, hsame⟩)

theorem resolveRule_error_spec (hx : names.get x = r.left) {e : GrammarError T}
    (h : resolveRule names earlier x r = .error e) : r.Fault rules done e := by
  unfold resolveRule at h
  split at h
  · next e' he' =>
    cases h
    exact resolveRight_error_spec hdefined he'
  · next right hright =>
    have hepsilon := (namedRule_of_resolveRight hx hright).1
    have hresolves := resolves_of_resolveRight hx hright hdefined
    have hhead := head?_eq_iff hx hright hnames
    split at h
    · next hleft =>
      cases h
      exact .leftRecursion hepsilon hresolves (hhead.1 hleft)
    · next hleft =>
      split at h
      · next hold =>
        cases h
        obtain ⟨q, hq, hsame⟩ := (mem_earlier hx hright hnames hearlier).1 (by simpa using hold)
        exact .duplicate hepsilon hresolves (mt hhead.2 hleft) hq hsame
      · cases h

end

theorem get_idxOf {name : String} (h : names.idxOf name < names.length) :
    names.get ⟨names.idxOf name, h⟩ = name := List.idxOf_get h

section
variable {todo : List (Rule T)} {defined : ∀ r ∈ todo, r.left ∈ names}
  (hnames : names.Nodup) (hdefined : ∀ name, name ∈ names ↔ Defines rules name)
  (hearlier : earlier.map namedRule = done.map Rule.normal)
include hnames hdefined hearlier

theorem resolveRules_ok_spec {resolved : List (Resolved T names)}
    (h : resolveRules names earlier todo defined = .ok resolved) :
    (∀ before r after, todo = before ++ r :: after → r.Fits rules (done ++ before)) ∧
      resolved.map namedRule = (done ++ todo).map Rule.normal := by
  induction todo generalizing earlier done with
  | nil =>
    cases h
    exact ⟨by simp, by rw [hearlier, List.append_nil]⟩
  | cons q todo ih =>
    obtain ⟨x, found, hx, hfound, hrest⟩ := resolveRules_cons h
    obtain ⟨hfits, hnamed⟩ := resolveRule_ok_spec hnames hdefined hearlier hx hfound
    have hnext : (earlier ++ [found]).map namedRule = (done ++ [q]).map Rule.normal := by
      simp [hearlier, hnamed]
    obtain ⟨hall, hresolved⟩ := ih hnext hrest
    simp only [List.append_assoc, List.singleton_append] at hall hresolved
    exact ⟨forall_split_cons.2 ⟨by rwa [List.append_nil], hall⟩, hresolved⟩

theorem resolveRules_error_spec {e : GrammarError T}
    (h : resolveRules names earlier todo defined = .error e) :
    ∃ before r after, todo = before ++ r :: after ∧
      (∀ a q b, before = a ++ q :: b → q.Fits rules (done ++ a)) ∧ r.Fault rules (done ++ before) e := by
  induction todo generalizing earlier done with
  | nil => cases h
  | cons q todo ih =>
    unfold resolveRules at h
    dsimp only at h
    split at h
    · next e' he' =>
      cases h
      refine ⟨[], q, todo, rfl, by simp, ?_⟩
      rw [List.append_nil]
      exact resolveRule_error_spec hnames hdefined hearlier (get_idxOf _) he'
    · next found hfound =>
      obtain ⟨hfits, hnamed⟩ := resolveRule_ok_spec hnames hdefined hearlier (get_idxOf _) hfound
      have hnext : (earlier ++ [found]).map namedRule = (done ++ [q]).map Rule.normal := by
        simp [hearlier, hnamed]
      obtain ⟨before, r, after, rfl, hbefore, hfault⟩ := ih hnext h
      simp only [List.append_assoc, List.singleton_append] at hbefore hfault
      exact ⟨q :: before, r, after, rfl, forall_split_cons.2 ⟨by rwa [List.append_nil], hbefore⟩, hfault⟩

end

end

/-! ### The grammar of rules -/

section
variable {start : String} {rules : List (Rule T)}

omit [Terminal T] in
theorem mem_definedNames {name : String} : name ∈ definedNames rules ↔ Defines rules name := by
  rw [definedNames, List.mem_eraseDups, List.mem_map]
  rfl

omit [Terminal T] in
theorem idxOf_lt_idxOf_of_filter {l : List String} {P : String → Bool} {x y : String} (hx : P x)
    (h : (l.filter P).idxOf x < (l.filter P).idxOf y) (hy : P y) : l.idxOf x < l.idxOf y := by
  induction l with
  | nil => simp at h
  | cons z l ih =>
    by_cases hzx : z = x
    · subst hzx
      rw [List.idxOf_cons_self]
      refine Nat.pos_of_ne_zero fun hzero => ?_
      have hzy : z = y := by
        by_contra hzy
        rw [List.idxOf_cons_ne _ hzy] at hzero
        omega
      rw [hzy] at h
      exact Nat.lt_irrefl _ h
    · have hzy : z ≠ y := by
        rintro rfl
        rw [List.filter_cons_of_pos hy, List.idxOf_cons_self] at h
        omega
      rw [List.idxOf_cons_ne _ hzx, List.idxOf_cons_ne _ hzy]
      by_cases hz : P z
      · rw [List.filter_cons_of_pos hz, List.idxOf_cons_ne _ hzx, List.idxOf_cons_ne _ hzy] at h
        exact Nat.succ_lt_succ (ih (Nat.lt_of_succ_lt_succ h))
      · rw [List.filter_cons_of_neg hz] at h
        exact Nat.succ_lt_succ (ih h)

/-- What is kept of a list comes in the order in which it first comes in the list. -/
theorem pairwise_eraseDups (l : List String) : l.eraseDups.Pairwise (l.idxOf · < l.idxOf ·) := by
  induction hn : l.length using Nat.strongRecOn generalizing l with
  | ind n ih =>
    cases l with
    | nil => exact List.Pairwise.nil
    | cons x l =>
      rw [List.eraseDups_cons, List.pairwise_cons]
      have hother : ∀ y ∈ (l.filter fun y => !y == x).eraseDups, x ≠ y := by
        rintro y hy rfl
        simp at hy
      refine ⟨fun y hy => ?_, ?_⟩
      · rw [List.idxOf_cons_self, List.idxOf_cons_ne _ (hother y hy)]
        exact Nat.succ_pos _
      · have hle : (l.filter fun y => !y == x).length < n := by
          rw [← hn, List.length_cons]
          exact Nat.lt_succ_of_le (List.length_filter_le ..)
        refine (ih _ hle _ rfl).imp_of_mem fun {y z} hy hz hyz => ?_
        rw [List.idxOf_cons_ne _ (hother y hy), List.idxOf_cons_ne _ (hother z hz)]
        have hlt := idxOf_lt_idxOf_of_filter (by simpa using (hother y hy).symm) hyz
          (by simpa using (hother z hz).symm)
        exact Nat.succ_lt_succ hlt

/-- The alternatives of `x` among all alternatives are the rules for its name among all rules. -/
theorem map_filter_resolved {names : List String} (hnames : names.Nodup) {resolved : List (Resolved T names)}
    (hresolved : resolved.map namedRule = rules.map Rule.normal) (x : Fin names.length) :
    (resolved.filter (·.1 = x)).map namedRule =
      (rules.filter (·.left = names.get x)).map Rule.normal := by
  have hleft : ∀ a ∈ resolved, (decide (a.1 = x)) = decide ((namedRule a).left = names.get x) := by
    intro a _
    exact decide_eq_decide.2 hnames.get_inj_iff.symm
  calc (resolved.filter (·.1 = x)).map namedRule
      = (resolved.map namedRule).filter (·.left = names.get x) := by
        rw [List.filter_map, List.filter_congr hleft]
        rfl
    _ = (rules.filter (·.left = names.get x)).map Rule.normal := by
        rw [hresolved, List.filter_map]
        refine congrArg _ (List.filter_congr fun r _ => ?_)
        simp only [Function.comp_apply, Rule.left_normal]

omit [Terminal T] in
theorem lookup?_name {names : List String} (hnames : names.Nodup) {alternatives} {x : Fin names.length}
    (y : Fin names.length) :
    (ofNames (T := T) names alternatives x).lookup? (names.get y) = some y := by
  show (Vector.mk names.toArray rfl).finIdxOf? (names.get y) = some y
  rw [Vector.finIdxOf?_mk, List.finIdxOf?_toArray, finIdxOf?_get hnames]
  rfl

omit [Terminal T] in
theorem rulesOf_ofNames {names : List String} {resolved : List (Resolved T names)}
    {x y : Fin names.length} :
    (ofNames names (Vector.ofFn fun x => (resolved.filter (·.1 = x)).map (·.2)) x).rulesOf y =
      (resolved.filter (·.1 = y)).map namedRule := by
  show ((Vector.ofFn fun x => (resolved.filter (·.1 = x)).map (·.2)).get y).map _ = _
  rw [get_ofFn, List.map_map]
  refine List.map_congr_left fun a ha => ?_
  obtain rfl : a.1 = y := by simpa using (List.mem_filter.1 ha).2
  rfl

theorem madeOf_ofNames {names : List String} {resolved : List (Resolved T names)} {x : Fin names.length}
    (hnames : definedNames rules = names) (hresolved : resolved.map namedRule = rules.map Rule.normal) :
    (ofNames names (Vector.ofFn fun x => (resolved.filter (·.1 = x)).map (·.2)) x).MadeOf
      (names.get x) rules := by
  subst hnames
  have hnodup : (definedNames rules).Nodup := nodup_eraseDups _
  have hordered := List.pairwise_iff_getElem.1 (pairwise_eraseDups (rules.map Rule.left))
  refine ⟨rfl, fun y z hyz => hnodup.get_inj_iff.1 hyz, fun name => ?_,
    fun y z hyz => hordered y z y.isLt z.isLt hyz, lookup?_name hnodup, fun y => ?_, fun _ y _ => y.isLt⟩
  · rw [← mem_definedNames, List.mem_iff_get]
    rfl
  · rw [rulesOf_ofNames]
    exact map_filter_resolved hnodup hresolved y

theorem madeOf_of_ofRules {g : Grammar T} (h : ofRules start rules = .ok g) :
    Acceptable start rules ∧ g.MadeOf start rules := by
  obtain ⟨hne, hterminal, x, resolved, rfl, hresolved, rfl⟩ := ofRules_ok h
  have hnone : ([] : List (Resolved T (definedNames rules))).map namedRule =
      ([] : List (Rule T)).map Rule.normal := rfl
  obtain ⟨hall, hmade⟩ := resolveRules_ok_spec (nodup_eraseDups _) (fun _ => mem_definedNames) hnone
    hresolved
  have hfits : ∀ r ∈ rules, ∃ before, r.Fits rules before := by
    intro r hr
    obtain ⟨before, after, hsplit⟩ := List.append_of_mem hr
    exact ⟨before, hall before r after hsplit⟩
  refine ⟨⟨hne, hterminal, mem_definedNames.1 (List.get_mem ..), ?_, ?_, ?_, ?_⟩, madeOf_ofNames rfl hmade⟩
  · exact fun r hr => (hfits r hr).elim fun _ h => h.epsilonAlone
  · exact fun r hr => (hfits r hr).elim fun _ h => h.resolves
  · exact fun r hr => (hfits r hr).elim fun _ h => h.notLeftRecursive
  · rw [pairwise_iff_forall_split]
    exact fun before r after hsplit => (hall before r after hsplit).new

theorem firstFault_of_ofRules {e : GrammarError T} (h : ofRules start rules = .error e) :
    FirstFault start rules e := by
  unfold ofRules at h
  split at h
  · next hnil =>
    cases h
    exact .noRules (by simpa using hnil)
  · next hne =>
    split at h
    · next r hr =>
      cases h
      obtain ⟨hr, before, after, hsplit, hbefore⟩ := List.find?_eq_some_iff_append.1 hr
      exact .terminalOnLeft hsplit (by simpa using hbefore) (by simpa [Option.isSome_iff_ne_none] using hr)
    · next hfind =>
      have hterminal : ∀ r ∈ rules, (Terminal.ofName? r.left : Option T) = none := by
        intro r hr
        simpa using List.find?_eq_none.1 hfind r hr
      dsimp only at h
      split at h
      · next hstart =>
        cases h
        refine .undefinedStart (by simpa using hne) hterminal ?_
        rw [← mem_definedNames]
        exact List.finIdxOf?_eq_none_iff.1 hstart
      · next x hx =>
        have hstart : Defines rules start := by
          rw [← mem_definedNames, ← (List.finIdxOf?_eq_some_iff.1 hx).1]
          exact List.get_mem ..
        split at h
        · next e' he' =>
          cases h
          have hnone : ([] : List (Resolved T (definedNames rules))).map namedRule =
              ([] : List (Rule T)).map Rule.normal := rfl
          obtain ⟨before, r, after, hsplit, hbefore, hfault⟩ :=
            resolveRules_error_spec (nodup_eraseDups _) (fun _ => mem_definedNames) hnone he'
          exact .rule hterminal hstart hsplit hbefore hfault
        · cases h

end

end Grammar

/-! ### What is wrong, and that it is the first thing -/

section
variable {start : String} {rules : List (Rule T)} {e e' : GrammarError T}

theorem Acceptable.fits (h : Acceptable start rules) {before after : List (Rule T)} {r : Rule T}
    (hsplit : rules = before ++ r :: after) : r.Fits rules before := by
  have hr : r ∈ rules := by simp [hsplit]
  exact ⟨h.epsilonAlone r hr, h.resolves r hr, h.notLeftRecursive r hr,
    pairwise_iff_forall_split.1 h.distinct before r after hsplit⟩

theorem FirstFault.not_acceptable (h : FirstFault start rules e) : ¬ Acceptable start rules := by
  intro hacceptable
  cases h with
  | noRules hnil => exact hacceptable.nonempty hnil
  | terminalOnLeft hsplit _ hr => exact hr (hacceptable.noTerminal _ (by simp [hsplit]))
  | undefinedStart _ _ hstart => exact hstart hacceptable.start
  | rule _ _ hsplit _ hfault => exact hfault.not_fits (hacceptable.fits hsplit)

theorem FirstFault.unique (h : FirstFault start rules e) (h' : FirstFault start rules e') : e = e' := by
  have hdefined : ¬ Defines ([] : List (Rule T)) start := by
    rintro ⟨r, hr, -⟩
    cases hr
  cases h with
  | noRules hnil =>
    subst hnil
    cases h' with
    | noRules => rfl
    | terminalOnLeft hsplit => simp at hsplit
    | undefinedStart hne => exact absurd rfl hne
    | rule _ hstart => exact absurd hstart hdefined
  | terminalOnLeft hsplit hbefore hr =>
    cases h' with
    | noRules hnil => simp [hsplit] at hnil
    | terminalOnLeft hsplit' hbefore' hr' =>
      obtain ⟨-, rfl⟩ := first_unique (P := fun _ r => (Terminal.ofName? r.left : Option T) = none)
        (hsplit.symm.trans hsplit') (fun c q d hq => hbefore q (by simp [hq])) hr
        (fun c q d hq => hbefore' q (by simp [hq])) hr'
      rfl
    | undefinedStart _ hterminal => exact absurd (hterminal _ (by simp [hsplit])) hr
    | rule hterminal => exact absurd (hterminal _ (by simp [hsplit])) hr
  | undefinedStart hne hterminal hstart =>
    cases h' with
    | noRules hnil => exact absurd hnil hne
    | terminalOnLeft hsplit _ hr => exact absurd (hterminal _ (by simp [hsplit])) hr
    | undefinedStart => rfl
    | rule _ hstart' => exact absurd hstart' hstart
  | rule hterminal hstart hsplit hbefore hfault =>
    cases h' with
    | noRules hnil => exact absurd (hnil ▸ hstart) hdefined
    | terminalOnLeft hsplit' _ hr => exact absurd (hterminal _ (by simp [hsplit'])) hr
    | undefinedStart _ _ hstart' => exact absurd hstart hstart'
    | rule _ _ hsplit' hbefore' hfault' =>
      obtain ⟨rfl, rfl⟩ := first_unique (P := fun before r => r.Fits rules before)
        (hsplit.symm.trans hsplit') hbefore hfault.not_fits hbefore' hfault'.not_fits
      exact hfault.unique hfault'

end

namespace Grammar
variable {start : String} {rules : List (Rule T)}

theorem exists_ofRules_iff : (∃ g, ofRules start rules = .ok g) ↔ Acceptable start rules := by
  constructor
  · rintro ⟨g, h⟩
    exact (madeOf_of_ofRules h).1
  · intro hacceptable
    cases h : ofRules start rules with
    | ok g => exact ⟨g, rfl⟩
    | error e => exact absurd hacceptable (firstFault_of_ofRules h).not_acceptable

theorem ofRules_error_iff {e : GrammarError T} :
    ofRules start rules = .error e ↔ FirstFault start rules e := by
  refine ⟨firstFault_of_ofRules, fun hfault => ?_⟩
  cases h : ofRules start rules with
  | ok g => exact absurd (madeOf_of_ofRules h).1 hfault.not_acceptable
  | error e' => rw [(firstFault_of_ofRules h).unique hfault]

/-- Rules make a grammar exactly if they are acceptable. Its nonterminals and their alternatives are then
those of the rules, and if there is none, the first fault of the rules is the error. -/
theorem ofRules_exact (start : String) (rules : List (Rule T)) :
    ((∃ g, ofRules start rules = .ok g) ↔ Acceptable start rules) ∧
    (∀ g, ofRules start rules = .ok g → g.MadeOf start rules) ∧
    ∀ e, ofRules start rules = .error e ↔ FirstFault start rules e :=
  ⟨exists_ofRules_iff, fun _ h => (madeOf_of_ofRules h).2, fun _ => ofRules_error_iff⟩

end Grammar

end

end Predictive
