import Mathlib.Algebra.Order.Ring.Nat
import Mathlib.Data.Fintype.Card
import Mathlib.Tactic.Ring
import Predictive.Proofs.Runs

/-!
# The limit on steps is never reached

`Table.parse` gives the machine a limit on its steps. A machine that stops at all stops within it
(`parse_eq_some_iff`), so `parse` gives `none` only for machines that never stop, whatever the table.

While no token is read the lookahead stays the same, and so does what the table does to a nonterminal.
`Drains f k u v`: replacing the symbol in front by `f`, `k` times, leads from `u` to `v`, and there `f`
has nothing to replace. If replacing `x` ends at all, then `x` does not come up again while it is
replaced; so on a branch of replacements every nonterminal takes longer than those below it, a branch is
no longer than there are nonterminals, and a symbol that is used up altogether is so after at most
`(L + 1) ^ (n + 1)` replacements (`Drains.le_pow`). The symbols that are not used up lie on one branch,
which leaves few new symbols on the stack (`Drains.potential`): what the reading of a token costs is
bounded, apart from the symbols that are gone for good.
-/

namespace Predictive

section
variable {T : Type} {n : Nat} {f : Symbol T (Fin n) → Option (List (Symbol T (Fin n)))}
  {i j k L C D : Nat} {s : Symbol T (Fin n)} {a b u v w : List (Symbol T (Fin n))}

/-- Replacing the symbol in front, `k` times, until it has no replacement. -/
inductive Drains (f : Symbol T (Fin n) → Option (List (Symbol T (Fin n)))) :
    Nat → List (Symbol T (Fin n)) → List (Symbol T (Fin n)) → Prop where
  | nil : Drains f 0 [] []
  | stuck {s : Symbol T (Fin n)} {u : List (Symbol T (Fin n))} : f s = none →
    Drains f 0 (s :: u) (s :: u)
  | step {k : Nat} {s : Symbol T (Fin n)} {u v w : List (Symbol T (Fin n))} : f s = some v →
    Drains f k (v ++ u) w → Drains f (k + 1) (s :: u) w

namespace Drains

theorem unique (h : Drains f i u v) (h' : Drains f j u w) : i = j ∧ v = w := by
  induction h generalizing j w with
  | nil => cases h'; exact ⟨rfl, rfl⟩
  | stuck hs =>
    cases h' with
    | stuck => exact ⟨rfl, rfl⟩
    | step hs' => rw [hs] at hs'; cases hs'
  | step hs _ ih =>
    cases h' with
    | stuck hs' => rw [hs] at hs'; cases hs'
    | step hs' h' =>
      rw [hs] at hs'
      obtain rfl := Option.some.inj hs'
      obtain ⟨rfl, rfl⟩ := ih h'
      exact ⟨rfl, rfl⟩

theorem front_stuck (h : Drains f k u (s :: v)) : f s = none := by
  generalize hw : s :: v = w at h
  induction h with
  | nil => cases hw
  | stuck hs => cases hw; exact hs
  | step _ _ ih => exact ih hw

theorem append_inv (h : Drains f k (a ++ b) w) :
    (∃ i j, k = i + j ∧ Drains f i a [] ∧ Drains f j b w) ∨
      ∃ v, v ≠ [] ∧ Drains f k a v ∧ w = v ++ b := by
  generalize hz : a ++ b = z at h
  induction h generalizing a with
  | nil =>
    obtain ⟨rfl, rfl⟩ := List.append_eq_nil_iff.1 hz
    exact .inl ⟨0, 0, rfl, .nil, .nil⟩
  | stuck hs =>
    rcases List.append_eq_cons_iff.1 hz with ⟨rfl, rfl⟩ | ⟨a, rfl, rfl⟩
    · exact .inl ⟨0, 0, rfl, .nil, .stuck hs⟩
    · exact .inr ⟨_, by simp, .stuck hs, rfl⟩
  | @step k s u v w hs h ih =>
    rcases List.append_eq_cons_iff.1 hz with ⟨rfl, rfl⟩ | ⟨a, rfl, rfl⟩
    · exact .inl ⟨0, k + 1, by omega, .nil, .step hs h⟩
    · rcases ih (a := v ++ a) (by simp) with ⟨i, j, rfl, ha, hb⟩ | ⟨x, hx, ha, rfl⟩
      · exact .inl ⟨i + 1, j, by omega, .step hs ha, hb⟩
      · exact .inr ⟨x, hx, .step hs ha, rfl⟩

theorem cons_inv (h : Drains f k (s :: u) w) :
    (∃ i j, k = i + j ∧ Drains f i [s] [] ∧ Drains f j u w) ∨
      ∃ v, v ≠ [] ∧ Drains f k [s] v ∧ w = v ++ u := append_inv (a := [s]) h

/-- Symbols that are used up in `C` replacements each. -/
theorem le_mul (hC : ∀ i ≤ k, ∀ s, Drains f i [s] [] → i ≤ C) (h : Drains f k u []) :
    k ≤ u.length * C := by
  induction u generalizing k with
  | nil => cases h; simp
  | cons s u ih =>
    rcases h.cons_inv with ⟨i, j, rfl, hs, hu⟩ | ⟨v, hv, -, hvu⟩
    · have hi : i ≤ C := hC i (by omega) s hs
      have hj : j ≤ u.length * C := ih (fun i hi => hC i (by omega)) hu
      rw [List.length_cons, Nat.add_mul]
      omega
    · simp [hv] at hvu

end Drains

/-- Nonterminals of a branch: each takes more than `k` replacements, and none is there twice. -/
structure Slow (f : Symbol T (Fin n) → Option (List (Symbol T (Fin n)))) (k : Nat)
    (branch : List (Fin n)) : Prop where
  nodup : branch.Nodup
  slow : ∀ x ∈ branch, ∃ i v, k < i ∧ Drains f i [.nonterminal x] v

namespace Slow
variable {branch : List (Fin n)} {x : Fin n}

theorem nil : Slow f k [] := ⟨List.nodup_nil, by simp⟩

theorem cons (h : Slow f k branch) (hx : Drains f k [.nonterminal x] v) (hi : i < k) :
    Slow f i (x :: branch) := by
  refine ⟨List.nodup_cons.2 ⟨fun hmem => ?_, h.nodup⟩, fun y hy => ?_⟩
  · obtain ⟨j, w, hj, hw⟩ := h.slow x hmem
    have := (hx.unique hw).1
    omega
  · rcases List.mem_cons.1 hy with rfl | hy
    · exact ⟨k, v, hi, hx⟩
    · obtain ⟨j, w, hj, hw⟩ := h.slow y hy
      exact ⟨j, w, by omega, hw⟩

theorem length_le (h : Slow f k branch) : branch.length ≤ n := by
  simpa using h.nodup.length_le_card

end Slow

/-- Only nonterminals are replaced by symbols, and by at most `L`. -/
structure Narrow (f : Symbol T (Fin n) → Option (List (Symbol T (Fin n)))) (L : Nat) : Prop where
  length_le : ∀ s v, f s = some v → v.length ≤ L
  nonterminal : ∀ s v, f s = some v → v ≠ [] → ∃ x, s = .nonterminal x

/-- A branch that has room for `j` more nonterminals has room for the next. -/
theorem Narrow.room {branch : List (Fin n)} (hf : Narrow f L) (hb : Slow f (k + 1) branch)
    (hj : n ≤ branch.length + j) (hs : f s = some v) (hv : v ≠ []) (h : Drains f (k + 1) [s] w) :
    ∃ x i, j = i + 1 ∧ n ≤ (x :: branch).length + i ∧ ∀ m ≤ k, Slow f m (x :: branch) := by
  obtain ⟨x, rfl⟩ := hf.nonterminal s v hs hv
  have hslow : ∀ m ≤ k, Slow f m (x :: branch) := fun m hm => hb.cons h (Nat.lt_succ_of_le hm)
  have hlength : branch.length + 1 ≤ n := (hslow k le_rfl).length_le
  refine ⟨x, j - 1, by omega, ?_, hslow⟩
  rw [List.length_cons]
  omega

namespace Drains
variable {branch : List (Fin n)}

/-- A symbol that is used up, below a branch that leaves room for `j` more nonterminals. -/
theorem le_pow (hf : Narrow f L) (hb : Slow f k branch) (hj : n ≤ branch.length + j)
    (h : Drains f k [s] []) : k ≤ (L + 1) ^ (j + 1) := by
  induction j using Nat.strongRecOn generalizing k s branch with
  | ind j ih =>
    cases h with
    | @step k s u v w hs h =>
      by_cases hv : v = []
      · subst hv
        cases h
        exact Nat.one_le_pow _ _ (by omega)
      · obtain ⟨x, i, rfl, hroom, hslow⟩ := hf.room hb hj hs hv (.step hs h)
        rw [List.append_nil] at h
        have hk : k ≤ v.length * (L + 1) ^ (i + 1) :=
          h.le_mul fun m hm y hy => ih i (Nat.lt_succ_self i) (hslow m hm) hroom hy
        calc k + 1 ≤ v.length * (L + 1) ^ (i + 1) + 1 := by omega
          _ ≤ L * (L + 1) ^ (i + 1) + (L + 1) ^ (i + 1) :=
            Nat.add_le_add (Nat.mul_le_mul_right _ (hf.length_le _ _ hs))
              (Nat.one_le_pow _ _ (by omega))
          _ = (L + 1) ^ (i + 1 + 1) := by ring

/-- The potential of a string is the sum of those of its symbols, all but one of which are used up. -/
theorem potential_append (hC : ∀ i s, Drains f i [s] [] → i ≤ C)
    (hD : ∀ i ≤ k, ∀ s v, Drains f i [s] v → i + C * v.length ≤ C + D) (h : Drains f k u w) :
    k + C * w.length ≤ C * u.length + D := by
  induction u generalizing k with
  | nil => cases h; simp
  | cons s u ih =>
    rw [List.length_cons, Nat.mul_succ]
    rcases h.cons_inv with ⟨i, j, rfl, hs, hu⟩ | ⟨v, hv, hs, rfl⟩
    · have hi : i ≤ C := hC i s hs
      have hj := ih (fun i hi => hD i (by omega)) hu
      omega
    · have hk := hD k le_rfl s v hs
      rw [List.length_append, Nat.mul_add]
      omega

/-- A symbol pays `C` for itself, and a branch for what it leaves on the stack. -/
theorem potential (hf : Narrow f L) (hC : ∀ i s, Drains f i [s] [] → i ≤ C) (hb : Slow f k branch)
    (hj : n ≤ branch.length + j) (h : Drains f k [s] v) :
    k + C * v.length ≤ C + j * (1 + C * L) := by
  induction j using Nat.strongRecOn generalizing k s v branch with
  | ind j ih =>
    cases h with
    | stuck => simp
    | @step k s u w v hs h =>
      by_cases hw : w = []
      · subst hw
        cases h
        have hone : 1 ≤ C := hC 1 s (.step hs .nil)
        rw [List.length_nil, Nat.mul_zero]
        omega
      · obtain ⟨x, i, rfl, hroom, hslow⟩ := hf.room hb hj hs hw (.step hs h)
        rw [List.append_nil] at h
        have hk : k + C * v.length ≤ C * w.length + i * (1 + C * L) :=
          h.potential_append hC fun m hm y z hy => ih i (Nat.lt_succ_self i) (hslow m hm) hroom hy
        have hL : C * w.length ≤ C * L := Nat.mul_le_mul_left C (hf.length_le _ _ hs)
        rw [Nat.add_mul i 1]
        omega

end Drains

end

variable {T : Type} [Terminal T] {g : Grammar T} {table : Table g} {c d : Config g}
  {r : ParseResult g} {limit k : Nat}

/-! ### Steps that read no token -/

/-- What replaces the symbol in front of the stack when no token is read. Past the last token end
markers are matched without one. -/
def Table.unread? (table : Table g) (t : T) (atEnd : Bool) : Symbol T g.Nonterminal → Option g.Form
  | .terminal a => if atEnd ∧ a = t then some [] else none
  | .nonterminal x => (table.get? x t).map (·.expansion)
  | .epsilon => some []

omit [Terminal T] in
theorem Grammar.length_right_le (p : g.Production) : p.right.length ≤ g.longest := by
  have hmax : ∀ (l : List Nat) (m k : Nat), k ≤ m ∨ k ∈ l → k ≤ l.foldl max m := by
    intro l
    induction l with
    | nil => intro m k h; simpa using h
    | cons a l ih =>
      intro m k h
      refine ih (max m a) k ?_
      rcases h with h | h
      · exact .inl (h.trans (Nat.le_max_left m a))
      · rcases List.mem_cons.1 h with rfl | h
        · exact .inl (Nat.le_max_right m k)
        · exact .inr h
  exact hmax _ 0 _ (.inr (List.mem_map.2 ⟨p, Grammar.mem_productions p, rfl⟩))

theorem Grammar.Production.length_expansion_le (p : g.Production) :
    p.expansion.length ≤ g.longest := by
  rcases p.expansion_eq with hp | ⟨-, hp⟩
  · rw [hp]; exact Grammar.length_right_le p
  · rw [hp]; exact Nat.zero_le _

theorem Table.narrow_unread? (table : Table g) (t : T) (atEnd : Bool) :
    Narrow (table.unread? t atEnd) g.longest := by
  constructor
  · intro s v h
    cases s with
    | terminal a =>
      simp only [unread?, Option.ite_none_right_eq_some, Option.some.injEq] at h
      rw [← h.2]; exact Nat.zero_le _
    | nonterminal x =>
      obtain ⟨p, -, rfl⟩ := Option.map_eq_some_iff.1 h
      exact p.length_expansion_le
    | epsilon => cases h; exact Nat.zero_le _
  · intro s v h hv
    cases s with
    | terminal a =>
      simp only [unread?, Option.ite_none_right_eq_some, Option.some.injEq] at h
      exact absurd h.2.symm hv
    | nonterminal x => exact ⟨x, rfl⟩
    | epsilon => cases h; exact absurd rfl hv

namespace Config
variable {s : Symbol T g.Nonterminal} {u v : g.Form}

def unread? (table : Table g) (c : Config g) : Symbol T g.Nonterminal → Option g.Form :=
  table.unread? c.lookahead.kind c.rest.isEmpty

theorem next_of_unread? (hs : c.stack = s :: u) (h : c.unread? table s = some v) :
    ∃ step, c.next table = .go step ⟨v ++ u, c.rest, c.close⟩ := by
  cases s with
  | terminal a =>
    simp only [unread?, Table.unread?, Option.ite_none_right_eq_some, Option.some.injEq] at h
    obtain ⟨⟨hend, ha⟩, rfl⟩ := h
    have hrest : c.rest.tail = c.rest := by rw [List.isEmpty_iff.1 hend]; rfl
    exact ⟨_, by rw [next_of_terminal hs ha, hrest]; rfl⟩
  | nonterminal x =>
    obtain ⟨p, hp, rfl⟩ := Option.map_eq_some_iff.1 h
    exact ⟨_, next_of_get? hs hp⟩
  | epsilon =>
    cases h
    exact ⟨_, next_of_epsilon hs⟩

theorem next_of_unread?_none (hs : c.stack = s :: u) (h : c.unread? table s = none) :
    (∃ error, c.next table = .stop error) ∨
      ∃ step t rest, c.rest = t :: rest ∧ c.next table = .go step ⟨u, rest, c.close⟩ := by
  cases hnext : c.next table with
  | stop error => exact .inl ⟨error, rfl⟩
  | go step d =>
    rcases next_eq_go hnext with ⟨below, hc, rfl, rfl⟩ | ⟨p, below, hc, hp, -, -⟩ | ⟨below, hc, -, -⟩
    · obtain ⟨rfl, rfl⟩ := List.cons.inj (hs.symm.trans hc)
      cases hr : c.rest with
      | nil => simp [unread?, Table.unread?, hr] at h
      | cons t rest => exact .inr ⟨_, t, rest, rfl, rfl⟩
    · obtain ⟨rfl, rfl⟩ := List.cons.inj (hs.symm.trans hc)
      simp [unread?, Table.unread?, hp] at h
    · obtain ⟨rfl, rfl⟩ := List.cons.inj (hs.symm.trans hc)
      cases h

end Config

namespace Table

theorem run_drains {u v : g.Form} (h : Drains (c.unread? table) k u v) (hc : c.stack = u) :
    ∃ steps, ∀ limit, table.run (limit + k) c = (table.run limit ⟨v, c.rest, c.close⟩).map
      fun r => ⟨steps ++ r.derivation, r.error⟩ := by
  generalize hf : c.unread? table = f at h
  induction h generalizing c with
  | nil => exact ⟨[], fun limit => by obtain ⟨stack, rest, close⟩ := c; cases hc; simp⟩
  | stuck => exact ⟨[], fun limit => by obtain ⟨stack, rest, close⟩ := c; cases hc; simp⟩
  | @step k s u v w hs _ ih =>
    subst hf
    obtain ⟨step, hnext⟩ := Config.next_of_unread? hc hs
    obtain ⟨steps, hsteps⟩ := ih (c := ⟨v ++ u, c.rest, c.close⟩) rfl rfl
    refine ⟨step.toList ++ steps, fun limit => ?_⟩
    rw [← Nat.add_assoc, run_of_go hnext, hsteps limit]
    simp [Function.comp_def]

theorem exists_drains (h : table.run limit c = some r) :
    ∃ k v, k < limit ∧ Drains (c.unread? table) k c.stack v := by
  induction limit generalizing c r with
  | zero => simp [run] at h
  | succ limit ih =>
    cases hs : c.stack with
    | nil => exact ⟨0, [], Nat.succ_pos limit, .nil⟩
    | cons s u =>
      cases hv : c.unread? table s with
      | none => exact ⟨0, s :: u, Nat.succ_pos limit, .stuck hv⟩
      | some v =>
        obtain ⟨step, hnext⟩ := Config.next_of_unread? hs hv
        rw [run_of_go hnext] at h
        obtain ⟨r', hrun, -⟩ := Option.map_eq_some_iff.1 h
        obtain ⟨k, w, hk, hw⟩ := ih hrun
        exact ⟨k + 1, w, Nat.succ_lt_succ hk, .step hv hw⟩

/-- Replacements that use up one symbol. -/
def symbolCost (g : Grammar T) : Nat := (g.longest + 1) ^ (g.size + 1)

/-- Replacements on one branch, and those of the symbols that the branch leaves on the stack. -/
def branchCost (g : Grammar T) : Nat := g.size * (1 + symbolCost g * g.longest)

theorem potential_le {u v : g.Form} (h : Drains (c.unread? table) k u v) :
    k + symbolCost g * v.length ≤ symbolCost g * u.length + branchCost g := by
  have hf : Narrow (c.unread? table) g.longest := table.narrow_unread? _ _
  have hC : ∀ i s, Drains (c.unread? table) i [s] [] → i ≤ symbolCost g := fun i s hs =>
    hs.le_pow hf Slow.nil (by simp)
  exact h.potential_append hC fun i _ s v hs => hs.potential hf hC Slow.nil (by simp)

/-- Steps enough for a machine that stops: each symbol on the stack has its cost, and each token, and
the end of the input, the cost of a branch. -/
def potential (c : Config g) : Nat :=
  symbolCost g * c.stack.length + (c.rest.length + 1) * (branchCost g + 1)

/-- Where the machine stops reading nothing, it stops for good or reads a token. -/
theorem stop_or_read {v : g.Form} (h : Drains (c.unread? table) k c.stack v) :
    (∃ error, Config.next table ⟨v, c.rest, c.close⟩ = .stop error) ∨
      ∃ s u step t rest, v = s :: u ∧ c.rest = t :: rest ∧
        Config.next table ⟨v, c.rest, c.close⟩ = .go step ⟨u, rest, c.close⟩ := by
  cases v with
  | nil => exact .inl ⟨_, rfl⟩
  | cons s u =>
    have hs : Config.unread? table ⟨s :: u, c.rest, c.close⟩ s = none := h.front_stuck
    rcases Config.next_of_unread?_none rfl hs with hstop | ⟨step, t, rest, hr, hgo⟩
    · exact .inl hstop
    · exact .inr ⟨s, u, step, t, rest, rfl, hr, hgo⟩

theorem run_potential (h : table.run limit c = some r) : table.run (potential c) c = some r := by
  induction limit using Nat.strongRecOn generalizing c r with
  | ind limit ih =>
    obtain ⟨k, v, hk, hv⟩ := exists_drains h
    obtain ⟨steps, hsteps⟩ := run_drains hv rfl
    have hpot := potential_le hv
    obtain ⟨m, rfl⟩ : ∃ m, limit = m + 1 + k := ⟨limit - 1 - k, by omega⟩
    rw [hsteps] at h
    obtain ⟨r', hr', hr⟩ := Option.map_eq_some_iff.1 h
    suffices hm : ∃ m, m + k ≤ potential c ∧ table.run m ⟨v, c.rest, c.close⟩ = some r' by
      obtain ⟨m, hle, hm⟩ := hm
      refine run_of_le ?_ hle
      rw [hsteps, hm, Option.map_some, hr]
    rcases stop_or_read hv with ⟨error, herror⟩ | ⟨s, u, step, t, rest, rfl, hrest, hgo⟩
    · refine ⟨1, ?_, ?_⟩
      · rw [potential, Nat.add_mul]
        omega
      · rw [← hr', run_of_stop herror, run_of_stop herror]
    · -- one more step reads `t`, and what follows starts with less
      rw [run_of_go hgo] at hr'
      obtain ⟨r'', hrun, hr''⟩ := Option.map_eq_some_iff.1 hr'
      refine ⟨potential ⟨u, rest, c.close⟩ + 1, ?_, ?_⟩
      · rw [List.length_cons, Nat.mul_succ] at hpot
        simp only [potential, hrest, List.length_cons]
        rw [Nat.add_mul (rest.length + 1) 1]
        omega
      · rw [run_of_go hgo, ih m (by omega) hrun, Option.map_some, hr'']

theorem potential_start_le (tokens : List (Token T)) :
    potential (.start g tokens) ≤ g.stepLimit tokens.length := by
  set b := g.longest + 2 with hb
  have hbase : g.longest + 1 ≤ b := by omega
  have hsize : g.size < b ^ g.size := Nat.lt_pow_self (by omega)
  have hsymbol : symbolCost g ≤ b ^ (g.size + 1) := Nat.pow_le_pow_left hbase _
  have hone : 1 ≤ b ^ (g.size + 1) := Nat.one_le_pow _ _ (by omega)
  have hbranch : 1 + symbolCost g * g.longest ≤ b ^ (g.size + 2) := by
    calc 1 + symbolCost g * g.longest ≤ b ^ (g.size + 1) + b ^ (g.size + 1) * g.longest :=
          Nat.add_le_add hone (Nat.mul_le_mul_right _ hsymbol)
      _ = b ^ (g.size + 1) * (g.longest + 1) := by ring
      _ ≤ b ^ (g.size + 1) * b := Nat.mul_le_mul_left _ hbase
      _ = b ^ (g.size + 2) := by ring
  have hcost : branchCost g + 1 ≤ b ^ (2 * g.size + 2) := by
    calc branchCost g + 1 ≤ g.size * b ^ (g.size + 2) + b ^ (g.size + 2) :=
          Nat.add_le_add (Nat.mul_le_mul_left _ hbranch) (Nat.one_le_pow _ _ (by omega))
      _ = (g.size + 1) * b ^ (g.size + 2) := by ring
      _ ≤ b ^ g.size * b ^ (g.size + 2) := Nat.mul_le_mul_right _ hsize
      _ = b ^ (2 * g.size + 2) := by ring
  have htwo : symbolCost g * 2 ≤ b ^ (4 * g.size + 8) := by
    calc symbolCost g * 2 ≤ b ^ (g.size + 1) * b := Nat.mul_le_mul hsymbol (by omega)
      _ = b ^ (g.size + 2) := by ring
      _ ≤ b ^ (4 * g.size + 8) := Nat.pow_le_pow_right (by omega) (by omega)
  have hrest : branchCost g + 1 ≤ b ^ (4 * g.size + 8) :=
    hcost.trans (Nat.pow_le_pow_right (by omega) (by omega))
  calc potential (.start g tokens) ≤
        b ^ (4 * g.size + 8) + (tokens.length + 1) * b ^ (4 * g.size + 8) :=
        Nat.add_le_add htwo (Nat.mul_le_mul_left _ hrest)
    _ = (tokens.length + 2) * b ^ (4 * g.size + 8) := by ring

/-- A machine that stops at all stops within the limit. -/
theorem parse_eq_some_iff {tokens : List (Token T)} :
    table.parse tokens = some r ↔ table.Stops tokens r :=
  ⟨stops_of_parse, fun ⟨_, h⟩ => run_of_le (run_potential h) (potential_start_le tokens)⟩

theorem exists_parse_eq {tokens : List (Token T)} {error : Option (ParseError T)} (limit : Nat)
    (h : (table.run limit (.start g tokens)).map (·.error) = some error) :
    ∃ steps, table.parse tokens = some ⟨steps, error⟩ := by
  obtain ⟨⟨steps, e⟩, hr, rfl⟩ := Option.map_eq_some_iff.1 h
  exact ⟨steps, parse_eq_some_iff.2 ⟨limit, hr⟩⟩

end Table

end Predictive
