import Predictive.Grammar.Rules

/-!
# What rules become

Numbering the names on a right-hand side can be undone: naming the numbers again gives back what the
rule says (`resolveSymbols_ok`). So epsilon stands in an alternative where it stands in its rule, and as
rules that mix epsilon with other symbols are refused, an alternative of a grammar made of rules is
epsilon alone or has no epsilon (`epsilonAlone_of_ofRules`).

What is known of rules that have made a grammar is all in `ofRules_ok`, and for one rule after the other
in `resolveRules_cons` and `resolveRule_ok`.
-/

namespace Predictive

namespace Symbol
variable {T N M : Type} {f : N → M}

/-- The symbol with its nonterminal replaced. -/
def rename (f : N → M) : Symbol T N → Symbol T M
  | terminal t => terminal t
  | nonterminal x => nonterminal (f x)
  | epsilon => epsilon

theorem rename_eq_epsilon {s : Symbol T N} : s.rename f = epsilon ↔ s = epsilon := by
  cases s <;> simp [rename]

theorem rename_injective (hf : Function.Injective f) :
    Function.Injective (rename f : Symbol T N → Symbol T M) := by
  intro s s' h
  cases s <;> cases s' <;> simp only [rename, terminal.injEq, nonterminal.injEq, reduceCtorEq] at h ⊢
  · exact h
  · exact hf h

theorem epsilon_mem_map_rename {u : List (Symbol T N)} : epsilon ∈ u.map (rename f) ↔ epsilon ∈ u := by
  simp [rename_eq_epsilon]

end Symbol

namespace Grammar
variable {T : Type} [Terminal T] {names : List String} {r : Rule T}

omit [Terminal T] in
theorem resolveSymbol_ok {s : Symbol T String} {s' : Symbol T (Fin names.length)}
    (h : resolveSymbol names s = .ok s') : s'.rename names.get = s := by
  cases s with
  | terminal t => cases h; rfl
  | epsilon => cases h; rfl
  | nonterminal name =>
    unfold resolveSymbol at h
    dsimp only at h
    split at h
    · next x hx =>
      cases h
      exact congrArg Symbol.nonterminal (List.finIdxOf?_eq_some_iff.1 hx).1
    · cases h

omit [Terminal T] in
/-- The numbers stand for the names. -/
theorem resolveSymbols_ok {right : List (Symbol T String)}
    {right' : List (Symbol T (Fin names.length))} (h : resolveSymbols names right = .ok right') :
    right'.map (Symbol.rename names.get) = right := by
  induction right generalizing right' with
  | nil => cases h; rfl
  | cons s right ih =>
    unfold resolveSymbols at h
    split at h
    · cases h
    · next s' hs =>
      split at h
      · cases h
      · next tail htail =>
        cases h
        rw [List.map_cons, resolveSymbol_ok hs, ih htail]

/-- What a right-hand side becomes: epsilon alone, or its symbols with numbers for names. -/
theorem resolveRight_ok {right : List (Symbol T (Fin names.length))}
    (h : resolveRight names r = .ok right) :
    (right = [.epsilon] ∧ ∀ s ∈ r.right, s = .epsilon) ∨
    (right.map (Symbol.rename names.get) = r.right ∧ .epsilon ∉ r.right) := by
  unfold resolveRight at h
  split at h
  · next hall =>
    cases h
    exact .inl ⟨rfl, by simpa using hall⟩
  · split at h
    · cases h
    · next hmixed =>
      split at h
      · cases h
      · next right' hright =>
        cases h
        exact .inr ⟨resolveSymbols_ok hright, by simpa using hmixed⟩

theorem epsilon_of_resolveRight {right : List (Symbol T (Fin names.length))}
    (h : resolveRight names r = .ok right) : right = [.epsilon] ∨ .epsilon ∉ right := by
  rcases resolveRight_ok h with ⟨hright, -⟩ | ⟨hright, hr⟩
  · exact .inl hright
  · rw [← hright, Symbol.epsilon_mem_map_rename] at hr
    exact .inr hr

theorem resolveRule_ok {earlier : List (Resolved T names)} {x : Fin names.length}
    {found : Resolved T names} (h : resolveRule names earlier x r = .ok found) :
    found.1 = x ∧ resolveRight names r = .ok found.2 ∧ found.2.head? ≠ some (.nonterminal x) ∧
      found ∉ earlier := by
  unfold resolveRule at h
  split at h
  · cases h
  · next right hright =>
    split at h
    · cases h
    · next hhead =>
      split at h
      · cases h
      · next hnew =>
        cases h
        exact ⟨rfl, hright, hhead, by simpa using hnew⟩

/-- The first rule becomes an alternative of the nonterminal that it is for, and then come the others. -/
theorem resolveRules_cons {rules : List (Rule T)} {earlier resolved : List (Resolved T names)} {defined}
    (h : resolveRules names earlier (r :: rules) defined = .ok resolved) :
    ∃ x found, names.get x = r.left ∧ resolveRule names earlier x r = .ok found ∧
      resolveRules names (earlier ++ [found]) rules (fun q hq => defined q (List.mem_cons_of_mem _ hq)) =
        .ok resolved := by
  unfold resolveRules at h
  dsimp only at h
  split at h
  · cases h
  · next found hfound => exact ⟨_, found, List.getElem_idxOf _, hfound, h⟩

/-- What holds of every rule's alternative holds of all alternatives. -/
theorem resolveRules_ok {P : Resolved T names → Prop}
    (hP : ∀ r x found, resolveRight names r = .ok found → P (x, found))
    {rules : List (Rule T)} {earlier resolved : List (Resolved T names)} {defined}
    (h : resolveRules names earlier rules defined = .ok resolved) (hearlier : ∀ a ∈ earlier, P a) :
    ∀ a ∈ resolved, P a := by
  induction rules generalizing earlier with
  | nil => cases h; exact hearlier
  | cons r rules ih =>
    obtain ⟨x, found, -, hfound, hrest⟩ := resolveRules_cons h
    refine ih hrest fun a ha => ?_
    rcases List.mem_append.1 ha with ha | ha
    · exact hearlier a ha
    · obtain rfl := List.mem_singleton.1 ha
      exact hP r a.1 a.2 (resolveRule_ok hfound).2.1

theorem get_ofFn {α : Type} {n : Nat} {f : Fin n → α} {i : Fin n} : (Vector.ofFn f).get i = f i := by
  change (Vector.ofFn f)[(i : Nat)] = f i
  rw [Vector.getElem_ofFn]

omit [Terminal T] in
theorem Production.right_mem {g : Grammar T} (p : g.Production) :
    p.right ∈ g.alternativesOf p.left := List.getElem_mem _

/-- Epsilon is no part of a longer alternative. -/
def EpsilonAlone (g : Grammar T) : Prop :=
  ∀ p : g.Production, p.right = [.epsilon] ∨ .epsilon ∉ p.right

/-- A grammar of rules has the names that the rules define, and the alternatives that they become. -/
theorem ofRules_ok {g : Grammar T} {start : String} {rules : List (Rule T)}
    (h : ofRules start rules = .ok g) :
    rules ≠ [] ∧ (∀ r ∈ rules, (Terminal.ofName? r.left : Option T) = none) ∧
    ∃ (x : Fin (definedNames rules).length) (resolved : List (Resolved T (definedNames rules))),
      (definedNames rules).get x = start ∧
      resolveRules (definedNames rules) [] rules (fun _ => left_mem_definedNames) = .ok resolved ∧
      g = ⟨(definedNames rules).length, ⟨(definedNames rules).toArray, rfl⟩,
        Vector.ofFn fun x => (resolved.filter (·.1 = x)).map (·.2), x⟩ := by
  unfold ofRules at h
  split at h
  · cases h
  · next hne =>
    split at h
    · cases h
    · next hfind =>
      have hterminal : ∀ r ∈ rules, (Terminal.ofName? r.left : Option T) = none := by
        intro r hr
        simpa using List.find?_eq_none.1 hfind r hr
      dsimp only at h
      split at h
      · cases h
      · next x hx =>
        split at h
        · cases h
        · next resolved hresolved =>
          exact ⟨by simpa using hne, hterminal, x, resolved, (List.finIdxOf?_eq_some_iff.1 hx).1, hresolved,
            (Except.ok.inj h).symm⟩

theorem epsilonAlone_of_ofRules {g : Grammar T} {start : String} {rules : List (Rule T)}
    (h : ofRules start rules = .ok g) : g.EpsilonAlone := by
  obtain ⟨-, -, x, resolved, -, hresolved, rfl⟩ := ofRules_ok h
  intro p
  have hright := p.right_mem
  simp only [alternativesOf, get_ofFn] at hright
  obtain ⟨a, ha, hright⟩ := List.mem_map.1 hright
  rw [← hright]
  exact resolveRules_ok (P := fun a => a.2 = [.epsilon] ∨ .epsilon ∉ a.2)
    (fun _ _ _ => epsilon_of_resolveRight) hresolved (by simp) a (List.mem_filter.1 ha).1

end Grammar

end Predictive
