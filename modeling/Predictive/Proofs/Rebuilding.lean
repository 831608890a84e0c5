import Mathlib.Data.List.Nodup
import Predictive.Proofs.Resolution

/-!
# Grammars and the rules that make them

What rules have to be so that they make a grammar can be said of the grammar (`WellFormed`), and it is
enough: the grammar's own rules, listed nonterminal by nonterminal, make the grammar again, with the same
numbers (`ofRules_rules`). So the order in which rules for several nonterminals came does not matter any
more, once they have made a grammar.
-/

namespace Predictive.Grammar
variable {T : Type} [Terminal T] {names : List String}

/-! ### Names that are listed once -/

theorem nodup_eraseDups (names : List String) : names.eraseDups.Nodup := by
  induction hn : names.length using Nat.strongRecOn generalizing names with
  | ind n ih =>
    cases names with
    | nil => exact List.nodup_nil
    | cons name names =>
      rw [List.eraseDups_cons, List.nodup_cons, List.mem_eraseDups]
      refine ⟨by simp, ih _ ?_ _ rfl⟩
      rw [← hn, List.length_cons]
      exact Nat.lt_succ_of_le (List.length_filter_le ..)

theorem eraseDups_flatMap_replicate {α : Type} {f : α → String} {k : α → Nat} {xs : List α}
    (hf : (xs.map f).Nodup) (hk : ∀ x ∈ xs, k x ≠ 0) :
    (xs.flatMap fun x => List.replicate (k x) (f x)).eraseDups = xs.map f := by
  induction xs with
  | nil => rfl
  | cons x xs ih =>
    obtain ⟨hx, hxs⟩ := List.nodup_cons.1 hf
    obtain ⟨n, hn⟩ := Nat.exists_eq_succ_of_ne_zero (hk x (List.mem_cons_self ..))
    have hrest := ih hxs fun y hy => hk y (List.mem_cons_of_mem _ hy)
    have hother : ∀ name ∈ xs.flatMap fun x => List.replicate (k x) (f x), name ≠ f x := by
      intro name hname
      obtain ⟨y, hy, hname⟩ := List.mem_flatMap.1 hname
      rw [List.eq_of_mem_replicate hname]
      rintro heq
      exact hx (List.mem_map.2 ⟨y, hy, heq⟩)
    rw [List.flatMap_cons, hn, List.replicate_succ, List.cons_append, List.eraseDups_cons,
      List.filter_append, List.filter_eq_nil_iff.2 (by simp), List.nil_append,
      List.filter_eq_self.2 (by simpa using hother), hrest, List.map_cons]

theorem finIdxOf?_get (hnames : names.Nodup) (x : Fin names.length) :
    names.finIdxOf? (names.get x) = some x := by
  refine List.finIdxOf?_eq_some_iff.2 ⟨rfl, fun y hy heq => ?_⟩
  obtain rfl := hnames.get_inj_iff.1 heq
  exact Nat.lt_irrefl _ hy

/-! ### Alternatives that come from rules -/

/-- A right-hand side of a grammar. -/
def IsRight {N : Type} (u : List (Symbol T N)) : Prop := u = [.epsilon] ∨ u ≠ [] ∧ .epsilon ∉ u

/-- The alternative of the nonterminal, with names for numbers. -/
def namedRule (a : Resolved T names) : Rule T := ⟨names.get a.1, a.2.map (Symbol.rename names.get)⟩

section
variable (hnames : names.Nodup)
include hnames

omit [Terminal T] in
theorem resolveSymbols_rename (u : List (Symbol T (Fin names.length))) :
    resolveSymbols names (u.map (Symbol.rename names.get)) = .ok u := by
  induction u with
  | nil => rfl
  | cons s u ih =>
    have hs : resolveSymbol names (s.rename names.get) = .ok s := by
      cases s with
      | nonterminal x =>
        unfold Symbol.rename resolveSymbol
        dsimp only
        rw [finIdxOf?_get hnames]
      | _ => rfl
    rw [List.map_cons, resolveSymbols, hs, ih]

theorem resolveRight_of_isRight {r : Rule T} {u : List (Symbol T (Fin names.length))}
    (hr : r.right = u.map (Symbol.rename names.get)) (hu : IsRight u) : resolveRight names r = .ok u := by
  rcases hu with rfl | ⟨hne, hepsilon⟩
  · have hall : r.right.all (· = .epsilon) = true := by rw [hr]; rfl
    rw [resolveRight, if_pos hall]
  · have hmem : .epsilon ∉ r.right := by rwa [hr, Symbol.epsilon_mem_map_rename]
    have hall : ¬ r.right.all (· = .epsilon) = true := by
      obtain ⟨s, u, rfl⟩ := List.exists_cons_of_ne_nil hne
      rw [List.map_cons] at hr
      rw [hr, List.all_cons, Bool.and_eq_true, decide_eq_true_eq]
      rintro ⟨hs, -⟩
      rw [hr, hs] at hmem
      exact hmem (List.mem_cons_self ..)
    rw [resolveRight, if_neg hall, if_neg (by simpa using hmem), hr, resolveSymbols_rename hnames]

theorem resolveRules_map {as earlier : List (Resolved T names)}
    (has : ∀ a ∈ as, IsRight a.2 ∧ a.2.head? ≠ some (.nonterminal a.1))
    (hnodup : (earlier ++ as).Nodup) (defined) :
    resolveRules names earlier (as.map namedRule) defined = .ok (earlier ++ as) := by
  induction as generalizing earlier with
  | nil => exact congrArg Except.ok (List.append_nil earlier).symm
  | cons a as ih =>
    obtain ⟨hright, hhead⟩ := has a (List.mem_cons_self ..)
    -- no alternative comes twice, so none is refused
    have hnew : a ∉ earlier := by
      intro ha
      exact List.disjoint_of_nodup_append hnodup ha (List.mem_cons_self ..)
    have hrule : resolveRule names earlier a.1 (namedRule a) = .ok a := by
      rw [resolveRule, resolveRight_of_isRight hnames rfl hright]
      dsimp only
      rw [if_neg hhead, if_neg (by simpa using hnew)]
    have hindex : (⟨names.idxOf (namedRule a).left,
        List.idxOf_lt_length_of_mem (defined _ (List.mem_cons_self ..))⟩ : Fin names.length) = a.1 :=
      Fin.ext (hnames.idxOf_getElem a.1 a.1.isLt)
    rw [List.append_cons] at hnodup ⊢
    have hrest := ih (fun b hb => has b (List.mem_cons_of_mem _ hb)) hnodup
      fun r hr => defined r (List.mem_cons_of_mem _ hr)
    show resolveRules names earlier (namedRule a :: as.map namedRule) defined = _
    rw [resolveRules, hindex, hrule]
    exact hrest

end

/-! ### Well-formed grammars -/

/-- The alternative `u` of `x` as a rule. -/
def ruleOf (g : Grammar T) (x : g.Nonterminal) (u : g.Form) : Rule T :=
  ⟨g.name x, u.map (Symbol.rename g.name)⟩

def rulesOf (g : Grammar T) (x : g.Nonterminal) : List (Rule T) := (g.alternativesOf x).map (g.ruleOf x)

/-- The grammar's own rules, nonterminal by nonterminal. -/
def rules (g : Grammar T) : List (Rule T) := g.nonterminals.flatMap g.rulesOf

/-- What a grammar is if rules have made it. -/
structure WellFormed (g : Grammar T) : Prop where
  name_inj : ∀ x y, g.name x = g.name y → x = y
  ofName? : ∀ x, (Terminal.ofName? (g.name x) : Option T) = none
  inhabited : ∀ x, g.alternativesOf x ≠ []
  nodup : ∀ x, (g.alternativesOf x).Nodup
  isRight : ∀ x, ∀ u ∈ g.alternativesOf x, IsRight u
  notLeftRecursive : ∀ x, ∀ u ∈ g.alternativesOf x, u.head? ≠ some (.nonterminal x)

theorem ofRules_eq_ok {rules : List (Rule T)} {start : Fin names.length}
    {resolved : List (Resolved T names)} (hne : rules ≠ [])
    (hterminal : ∀ r ∈ rules, (Terminal.ofName? r.left : Option T) = none)
    (hdefined : definedNames rules = names) (hnames : names.Nodup)
    (hresolved : ∀ defined, resolveRules names [] rules defined = .ok resolved) :
    ofRules (names.get start) rules = .ok ⟨names.length, ⟨names.toArray, rfl⟩,
      Vector.ofFn fun x => (resolved.filter (·.1 = x)).map (·.2), start⟩ := by
  subst hdefined
  have hfind : rules.find? (fun r => (Terminal.ofName? r.left : Option T).isSome) = none := by
    refine List.find?_eq_none.2 fun r hr => ?_
    rw [hterminal r hr]
    simp
  rw [ofRules, if_neg (by simpa using hne), hfind]
  dsimp only
  rw [finIdxOf?_get hnames]
  dsimp only
  rw [hresolved]

theorem filter_flatMap_pairs {ι β : Type} [DecidableEq ι] {f : ι → List β} {xs : List ι} (hxs : xs.Nodup)
    {x : ι} (hx : x ∈ xs) :
    ((xs.flatMap fun y => (f y).map (y, ·)).filter (·.1 = x)).map (·.2) = f x := by
  have hsame : ((f x).map (x, ·)).filter (·.1 = x) = (f x).map (x, ·) :=
    List.filter_eq_self.2 (by simp)
  have hother {ys : List ι} (hys : x ∉ ys) :
      (ys.flatMap fun y => (f y).map (y, ·)).filter (·.1 = x) = [] := by
    refine List.filter_eq_nil_iff.2 fun a ha => ?_
    obtain ⟨y, hy, ha⟩ := List.mem_flatMap.1 ha
    obtain ⟨b, -, rfl⟩ := List.mem_map.1 ha
    simp only [decide_eq_true_eq]
    rintro rfl
    exact hys hy
  obtain ⟨ys, zs, rfl⟩ := List.append_of_mem hx
  have hys : x ∉ ys := fun h => List.disjoint_of_nodup_append hxs h (List.mem_cons_self ..)
  have hzs : x ∉ zs := (List.nodup_cons.1 (List.nodup_append.1 hxs).2.1).1
  rw [List.flatMap_append, List.flatMap_cons, List.filter_append, List.filter_append, hother hys,
    hother hzs, hsame, List.nil_append, List.append_nil, List.map_map]
  exact List.map_id' _

/-- The grammar with the names of a list. -/
abbrev ofNames (names : List String)
    (alternatives : Vector (List (List (Symbol T (Fin names.length)))) names.length)
    (start : Fin names.length) : Grammar T := ⟨names.length, ⟨names.toArray, rfl⟩, alternatives, start⟩

/-- The alternatives, each with its nonterminal. -/
def listed (alternatives : Vector (List (List (Symbol T (Fin names.length)))) names.length) :
    List (Resolved T names) :=
  (List.finRange names.length).flatMap fun x => (alternatives.get x).map (x, ·)

section
variable {alternatives : Vector (List (List (Symbol T (Fin names.length)))) names.length}
  {start : Fin names.length}

omit [Terminal T] in
theorem mem_listed {a : Resolved T names} : a ∈ listed alternatives ↔ a.2 ∈ alternatives.get a.1 := by
  simp only [listed, List.mem_flatMap, List.mem_finRange, true_and, List.mem_map]
  constructor
  · rintro ⟨x, u, hu, rfl⟩
    exact hu
  · intro ha
    exact ⟨a.1, a.2, ha, rfl⟩

omit [Terminal T] in
theorem rules_ofNames :
    (ofNames names alternatives start).rules = (listed alternatives).map namedRule := by
  rw [listed, List.map_flatMap]
  simp only [List.map_map]
  rfl

theorem nodup_listed (h : (ofNames names alternatives start).WellFormed) :
    (listed alternatives).Nodup := by
  refine List.nodup_flatMap.2 ⟨fun x _ => ?_, ?_⟩
  · exact (h.nodup x).map fun u v huv => congrArg Prod.snd huv
  · refine (List.nodup_finRange _).imp fun {x y} hxy a hx hy => ?_
    obtain ⟨u, -, rfl⟩ := List.mem_map.1 hx
    obtain ⟨v, -, hv⟩ := List.mem_map.1 hy
    exact hxy (congrArg Prod.fst hv).symm

theorem definedNames_rules (h : (ofNames names alternatives start).WellFormed) :
    definedNames (ofNames names alternatives start).rules = names := by
  have hnames : ((List.finRange names.length).map names.get) = names := List.map_get_finRange names
  have hnodup : ((List.finRange names.length).map names.get).Nodup := by
    rw [hnames]
    exact List.nodup_iff_injective_get.2 fun x y hxy => h.name_inj x y hxy
  -- a name is on the left of as many rules as there are alternatives
  have hlefts : (ofNames names alternatives start).rules.map (·.left) =
      (List.finRange names.length).flatMap fun x =>
        List.replicate (alternatives.get x).length (names.get x) := by
    rw [rules_ofNames, listed, List.map_map, List.map_flatMap]
    refine List.flatMap_congr fun x _ => ?_
    rw [List.map_map, ← List.map_const']
    rfl
  rw [definedNames, hlefts, eraseDups_flatMap_replicate hnodup, hnames]
  intro x _
  exact mt List.length_eq_zero_iff.1 (h.inhabited x)

theorem ofRules_ofNames (h : (ofNames names alternatives start).WellFormed) :
    ofRules (names.get start) (ofNames names alternatives start).rules =
      .ok (ofNames names alternatives start) := by
  have hnames : names.Nodup := List.nodup_iff_injective_get.2 fun x y hxy => h.name_inj x y hxy
  have hright : ∀ a ∈ listed alternatives, IsRight a.2 ∧ a.2.head? ≠ some (.nonterminal a.1) :=
    fun a ha => ⟨h.isRight a.1 a.2 (mem_listed.1 ha), h.notLeftRecursive a.1 a.2 (mem_listed.1 ha)⟩
  have hresolved : ∀ defined, resolveRules names [] (ofNames names alternatives start).rules defined =
      .ok (listed alternatives) := by
    rw [rules_ofNames]
    exact resolveRules_map hnames hright (nodup_listed h)
  have hne : (ofNames names alternatives start).rules ≠ [] := by
    obtain ⟨u, us, hu⟩ := List.exists_cons_of_ne_nil (h.inhabited start)
    have hmem : (start, u) ∈ listed alternatives := by
      rw [mem_listed]
      exact (congrArg (u ∈ ·) hu).mpr (List.mem_cons_self ..)
    rw [rules_ofNames]
    exact List.ne_nil_of_mem (List.mem_map.2 ⟨_, hmem, rfl⟩)
  have hterminal : ∀ r ∈ (ofNames names alternatives start).rules,
      (Terminal.ofName? r.left : Option T) = none := by
    intro r hr
    rw [rules_ofNames] at hr
    obtain ⟨a, -, rfl⟩ := List.mem_map.1 hr
    exact h.ofName? a.1
  have halternatives : (Vector.ofFn fun x => ((listed alternatives).filter (·.1 = x)).map (·.2)) =
      alternatives := by
    refine Vector.ext fun i hi => ?_
    rw [Vector.getElem_ofFn]
    exact filter_flatMap_pairs (List.nodup_finRange _) (List.mem_finRange _)
  rw [ofRules_eq_ok hne hterminal (definedNames_rules h) hnames hresolved, halternatives]

end

/-- A well-formed grammar is made of its own rules. -/
theorem WellFormed.ofRules_rules {g : Grammar T} (h : g.WellFormed) :
    ofRules (g.name g.start) g.rules = .ok g := by
  obtain ⟨n, ⟨⟨names⟩, hn⟩, alternatives, start⟩ := g
  obtain rfl : names.length = n := hn
  exact ofRules_ofNames h

/-! ### What rules have made -/

/-- The alternative comes from the rule. -/
structure MadeBy (r : Rule T) (a : Resolved T names) : Prop where
  left : names.get a.1 = r.left
  right : resolveRight names r = .ok a.2
  notLeftRecursive : a.2.head? ≠ some (.nonterminal a.1)

theorem isRight_of_resolveRight {r : Rule T} {u : List (Symbol T (Fin names.length))}
    (h : resolveRight names r = .ok u) : IsRight u := by
  rcases resolveRight_ok h with ⟨hu, -⟩ | ⟨hu, hepsilon⟩
  · exact .inl hu
  · by_cases hr : r.right = []
    · rw [resolveRight, hr] at h
      exact .inl (Except.ok.inj h).symm
    · rw [← hu, Symbol.epsilon_mem_map_rename] at hepsilon
      rw [← hu] at hr
      exact .inr ⟨fun hnil => hr (by rw [hnil]; rfl), hepsilon⟩

/-- Every rule makes an alternative, nothing else does, and none is listed twice. -/
theorem resolveRules_spec {rules : List (Rule T)} {earlier resolved : List (Resolved T names)} {defined}
    (h : resolveRules names earlier rules defined = .ok resolved) (hearlier : earlier.Nodup) :
    resolved.Nodup ∧ earlier ⊆ resolved ∧ (∀ r ∈ rules, ∃ a ∈ resolved, MadeBy r a) ∧
      ∀ a ∈ resolved, a ∈ earlier ∨ ∃ r ∈ rules, MadeBy r a := by
  induction rules generalizing earlier with
  | nil =>
    cases h
    exact ⟨hearlier, List.Subset.refl _, by simp, fun a ha => .inl ha⟩
  | cons r rules ih =>
    obtain ⟨x, found, hx, hfound, hrest⟩ := resolveRules_cons h
    obtain ⟨rfl, hright, hhead, hnew⟩ := resolveRule_ok hfound
    have hmade : MadeBy r found := ⟨hx, hright, hhead⟩
    have hnodup : (earlier ++ [found]).Nodup := by
      refine List.nodup_append.2 ⟨hearlier, List.nodup_singleton _, fun a ha b hb => ?_⟩
      rw [List.mem_singleton.1 hb]
      rintro rfl
      exact hnew ha
    obtain ⟨hresolved, hsubset, hall, honly⟩ := ih hrest hnodup
    have hfoundmem : found ∈ resolved := hsubset (by simp)
    refine ⟨hresolved, fun a ha => hsubset (List.mem_append_left _ ha), fun r' hr' => ?_, fun a ha => ?_⟩
    · rcases List.mem_cons.1 hr' with rfl | hr'
      · exact ⟨found, hfoundmem, hmade⟩
      · exact hall r' hr'
    · rcases honly a ha with ha | ⟨r', hr', ha⟩
      · rcases List.mem_append.1 ha with ha | ha
        · exact .inl ha
        · obtain rfl := List.mem_singleton.1 ha
          exact .inr ⟨r, List.mem_cons_self .., hmade⟩
      · exact .inr ⟨r', List.mem_cons_of_mem _ hr', ha⟩

/-- How the grammar of rules looks. -/
theorem exists_of_ofRules {start : String} {rules : List (Rule T)} {g : Grammar T}
    (h : ofRules start rules = .ok g) :
    (∀ r ∈ rules, (Terminal.ofName? r.left : Option T) = none) ∧
    ∃ (x : Fin (definedNames rules).length) (resolved : List (Resolved T (definedNames rules))),
      (definedNames rules).get x = start ∧ resolved.Nodup ∧
      (∀ r ∈ rules, ∃ a ∈ resolved, MadeBy r a) ∧ (∀ a ∈ resolved, ∃ r ∈ rules, MadeBy r a) ∧
      g = ofNames (definedNames rules)
        (Vector.ofFn fun x => (resolved.filter (·.1 = x)).map (·.2)) x := by
  obtain ⟨-, hterminal, x, resolved, hx, hresolved, rfl⟩ := ofRules_ok h
  obtain ⟨hnodup, -, hall, honly⟩ := resolveRules_spec hresolved List.nodup_nil
  exact ⟨hterminal, x, resolved, hx, hnodup, hall, fun a ha => (honly a ha).resolve_left (by simp), rfl⟩

omit [Terminal T] in
theorem mem_alternatives_ofFn {resolved : List (Resolved T names)} {start x : Fin names.length}
    {u : List (Symbol T (Fin names.length))} :
    u ∈ (ofNames names (Vector.ofFn fun x => (resolved.filter (·.1 = x)).map (·.2)) start).alternativesOf
      x ↔ (x, u) ∈ resolved := by
  show u ∈ (Vector.ofFn fun x => (resolved.filter (·.1 = x)).map (·.2)).get x ↔ _
  rw [get_ofFn, List.mem_map]
  constructor
  · rintro ⟨a, ha, rfl⟩
    obtain ⟨hmem, hx⟩ := List.mem_filter.1 ha
    obtain rfl : a.1 = x := by simpa using hx
    exact hmem
  · intro h
    exact ⟨(x, u), List.mem_filter.2 ⟨h, by simp⟩, rfl⟩

section
variable {start : String} {rules : List (Rule T)} {g : Grammar T} (h : ofRules start rules = .ok g)
include h

theorem wellFormed_of_ofRules : g.WellFormed := by
  obtain ⟨hterminal, x, resolved, -, hnodup, hall, honly, rfl⟩ := exists_of_ofRules h
  have hnames : (definedNames rules).Nodup := nodup_eraseDups _
  have hleft (y : Fin (definedNames rules).length) : ∃ r ∈ rules, r.left = (definedNames rules).get y :=
    List.mem_map.1 (List.mem_eraseDups.1 (List.get_mem (definedNames rules) y))
  refine ⟨fun y z hyz => hnames.get_inj_iff.1 hyz, fun y => ?_, fun y => ?_, fun y => ?_,
    fun y u hu => ?_, fun y u hu => ?_⟩
  · obtain ⟨r, hr, hname⟩ := hleft y
    rw [← hterminal r hr, hname]
    rfl
  · obtain ⟨r, hr, hname⟩ := hleft y
    obtain ⟨a, ha, hmade⟩ := hall r hr
    have hy : a.1 = y := hnames.get_inj_iff.1 (hmade.left.trans hname)
    subst hy
    exact List.ne_nil_of_mem (mem_alternatives_ofFn.2 ha)
  · show ((Vector.ofFn fun y => (resolved.filter (·.1 = y)).map (·.2)).get y).Nodup
    rw [get_ofFn]
    refine (hnodup.filter _).map_on fun a ha b hb hab => Prod.ext ?_ hab
    have hay : a.1 = y := by simpa using (List.mem_filter.1 ha).2
    have hby : b.1 = y := by simpa using (List.mem_filter.1 hb).2
    rw [hay, hby]
  · obtain ⟨r, -, hmade⟩ := honly _ (mem_alternatives_ofFn.1 hu)
    exact isRight_of_resolveRight hmade.right
  · obtain ⟨r, -, hmade⟩ := honly _ (mem_alternatives_ofFn.1 hu)
    exact hmade.notLeftRecursive

theorem exists_rule_of_mem {x : g.Nonterminal} {u : g.Form} (hu : u ∈ g.alternativesOf x) :
    ∃ r ∈ rules, r.left = g.name x ∧ (u = [.epsilon] ∨ u.map (Symbol.rename g.name) = r.right) := by
  obtain ⟨-, y, resolved, -, -, -, honly, rfl⟩ := exists_of_ofRules h
  obtain ⟨r, hr, hmade⟩ := honly _ (mem_alternatives_ofFn.1 hu)
  refine ⟨r, hr, hmade.left.symm, ?_⟩
  rcases resolveRight_ok hmade.right with ⟨hright, -⟩ | ⟨hright, -⟩
  · exact .inl hright
  · exact .inr hright

end

end Predictive.Grammar
