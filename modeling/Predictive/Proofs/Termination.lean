import Mathlib.Order.WellFounded
import Predictive.Proofs.Acceptance

/-!
# The machine does not expand for ever

A machine of a grammar's table matches a token again and again as long as it does not stop
(`matches_recur`), whatever left recursion the grammar hides: an order of its configurations in which
every step that matches nothing goes down is well-founded (`Predicts.settles`).

The reason is that a cell has one production. Where a nonterminal is replaced because its production can
begin with the next token, there is a shortest way to that token, and the cell has to lie on it, so
going by cells follows `Begins` down to a match (`settles_of_begins`). Where it is replaced because it
can be empty, the cell has to lie on a derivation of the empty string, and what stands behind comes to
the front (`settles_of_leftmost`). Neither asks how the configuration was reached.

End markers may be matched for ever, but not if only the bottom of the stack asks for one.
-/

namespace Predictive

section
variable {T : Type} [Terminal T] {g : Grammar T} {table : Table g} {W : FollowSets g} {c d : Config g}

namespace Table

/-- One step, from `c` to `d`, that matches nothing. -/
def Idles (table : Table g) (d c : Config g) : Prop :=
  ∃ step, c.next table = .go step d ∧ ∀ token, step ≠ some (.matched token)

theorem Idles.eq (h : table.Idles d c) :
    (∃ p below, c.stack = .nonterminal p.left :: below ∧
      table.get? p.left c.lookahead.kind = some p ∧ d = ⟨p.expansion ++ below, c.rest, c.close⟩) ∨
    ∃ below, c.stack = .epsilon :: below ∧ d = ⟨below, c.rest, c.close⟩ := by
  obtain ⟨step, hnext, hstep⟩ := h
  rcases Config.next_eq_go hnext with ⟨below, -, rfl, -⟩ | ⟨p, below, hs, hp, -, hd⟩ |
    ⟨below, hs, -, hd⟩
  · exact absurd rfl (hstep _)
  · exact .inl ⟨p, below, hs, hp, hd⟩
  · exact .inr ⟨below, hs, hd⟩

/-- The machine cannot go on for ever from `c` without a match. -/
def Settles (table : Table g) (c : Config g) : Prop := Acc table.Idles c

namespace Settles
variable {u : g.Form} {x : g.Nonterminal} {p : g.Production}

theorem nil : table.Settles ⟨[], c.rest, c.close⟩ := by
  refine .intro _ fun d hd => ?_
  rcases hd.eq with ⟨p, below, hs, -⟩ | ⟨below, hs, -⟩ <;> cases hs

theorem terminal (t : T) : table.Settles ⟨.terminal t :: u, c.rest, c.close⟩ := by
  refine .intro _ fun d hd => ?_
  rcases hd.eq with ⟨p, below, hs, -⟩ | ⟨below, hs, -⟩ <;> cases hs

theorem epsilon (h : table.Settles ⟨u, c.rest, c.close⟩) :
    table.Settles ⟨.epsilon :: u, c.rest, c.close⟩ := by
  refine .intro _ fun d hd => ?_
  rcases hd.eq with ⟨p, below, hs, -⟩ | ⟨below, hs, rfl⟩
  · cases hs
  · cases hs; exact h

theorem of_epsilon (h : table.Settles ⟨.epsilon :: u, c.rest, c.close⟩) :
    table.Settles ⟨u, c.rest, c.close⟩ :=
  Acc.inv h ⟨none, rfl, fun _ => by simp⟩

theorem nonterminal (h : ∀ p, table.get? x c.lookahead.kind = some p →
    table.Settles ⟨p.right ++ u, c.rest, c.close⟩) :
    table.Settles ⟨.nonterminal x :: u, c.rest, c.close⟩ := by
  refine .intro _ fun d hd => ?_
  rcases hd.eq with ⟨p, below, hs, hp, rfl⟩ | ⟨below, hs, -⟩
  · cases hs
    exact Grammar.Production.of_right (P := fun s => table.Settles ⟨s, c.rest, c.close⟩)
      (fun _ => of_epsilon) (h p hp)
  · cases hs

theorem of_get? (hp : table.get? x c.lookahead.kind = some p)
    (h : table.Settles ⟨p.right ++ u, c.rest, c.close⟩) :
    table.Settles ⟨.nonterminal x :: u, c.rest, c.close⟩ := by
  refine nonterminal fun q hq => ?_
  obtain rfl := Option.some.inj (hp.symm.trans hq)
  exact h

end Settles

namespace Predicts
variable {u s : g.Form} {p : g.Production} {y : g.Nonterminal} {t : T}

/-- What follows a nonterminal follows all that stands in an alternative which can be empty. -/
theorem follow_of_mem (h : table.Predicts W) (hp : g.Derives p.right []) (ht : t ∈ W.of p.left)
    (hy : .nonterminal y ∈ p.right) : t ∈ W.of y := by
  obtain ⟨a, b, hab⟩ := List.append_of_mem hy
  rw [hab, Grammar.derives_append_nil] at hp
  have hb : g.Derives b [] := ((Grammar.derives_append_nil (u := [.nonterminal y])).1 hp.2).2
  exact h.ending p a y b hab hb t ht

/-- What can be empty, in front of what the next token can follow, is used up. -/
theorem settles_of_leftmost (h : table.Predicts W) {ps : List g.Production} {w : List T}
    (hu : g.Leftmost ps u w) (hw : w = [])
    (hfollow : ∀ x, .nonterminal x ∈ u → c.lookahead.kind ∈ W.of x)
    (hs : table.Settles ⟨s, c.rest, c.close⟩) : table.Settles ⟨u ++ s, c.rest, c.close⟩ := by
  induction hu with
  | nil => exact hs
  | terminal t _ ih => cases hw
  | epsilon _ ih =>
    exact .epsilon (ih hw fun x hx => hfollow x (List.mem_cons_of_mem _ hx))
  | @expand ps u w p hu ih =>
    subst hw
    have hright : g.Derives p.right [] := (Grammar.derives_append_nil.1 hu.derives).1
    have hp : c.lookahead.kind ∈ W.of p.left := hfollow p.left (List.mem_cons_self ..)
    have hbelow : table.Settles ⟨p.right ++ u ++ s, c.rest, c.close⟩ := by
      refine ih rfl fun y hy => ?_
      rcases List.mem_append.1 hy with hy | hy
      · exact h.follow_of_mem hright hp hy
      · exact hfollow y (List.mem_cons_of_mem _ hy)
    rw [List.append_assoc] at hbelow
    exact .of_get? (h.get?_of_follow hright hp) hbelow

/-- What can begin with the next token leads to its match. -/
theorem settles_of_begins (h : table.Predicts W) (hu : g.Begins c.lookahead.kind u)
    (hc : W.Covers u) : table.Settles ⟨u ++ s, c.rest, c.close⟩ := by
  induction hu generalizing s with
  | terminal u => exact .terminal _
  | enter p u hp ih =>
    have hright := ih (s := u ++ s) (h.closed.covers_right p)
    exact .of_get? (h.get?_of_begins hp) hright
  | @skip a u ha hu ih =>
    obtain ⟨ps, hps⟩ := Grammar.Derives.leftmost (w := []) ha
    have hfollow : ∀ x, .nonterminal x ∈ [a] → c.lookahead.kind ∈ W.of x := by
      intro x hx
      obtain rfl := List.mem_singleton.1 hx
      exact hc.1 _ hu
    exact h.settles_of_leftmost (u := [a]) hps rfl hfollow (ih (s := s) hc.tail)

theorem settles (h : table.Predicts W) (c : Config g) : table.Settles c := by
  obtain ⟨stack, rest, close⟩ := c
  let c : Config g := ⟨[], rest, close⟩
  show table.Settles ⟨stack, c.rest, c.close⟩
  induction stack with
  | nil => exact .nil
  | cons a s ih =>
    cases a with
    | terminal t => exact .terminal t
    | epsilon => exact .epsilon ih
    | nonterminal x =>
      refine .nonterminal fun p hp => ?_
      obtain ⟨rfl, hright | ⟨hright, hx⟩⟩ := (h.cell _ _ _).1 hp
      · exact h.settles_of_begins hright (h.closed.covers_right p)
      · obtain ⟨ps, hps⟩ := Grammar.Derives.leftmost (w := []) hright
        exact h.settles_of_leftmost hps rfl (fun y hy => h.follow_of_mem hright hx hy) ih

theorem exists_match (h : table.Predicts W) (c : Nat → Config g) (step : Nat → Option (Step g))
    (hrun : ∀ i, (c i).next table = .go (step i) (c (i + 1))) (n : Nat) :
    ∃ i, n ≤ i ∧ ∃ token, step i = some (.matched token) := by
  have hwf : IsWellFounded (Config g) table.Idles := ⟨⟨h.settles⟩⟩
  obtain ⟨k, hk⟩ := WellFounded.not_rel_apply_succ (r := table.Idles) fun i => c (n + i)
  refine ⟨n + k, Nat.le_add_right n k, ?_⟩
  by_contra hnone
  exact hk ⟨step (n + k), hrun (n + k), fun token htoken => hnone ⟨token, htoken⟩⟩

end Predicts

end Table

/-! ### Grammars that do not mention the end marker -/

/-- The end marker stands at the bottom of the stack and nowhere else. -/
def Config.EndsOnce (c : Config g) : Prop :=
  ∃ s, c.stack = s ++ [.terminal Terminal.endMarker] ∧ .terminal Terminal.endMarker ∉ s

/-- A step empties the stack, or keeps the end marker at its bottom and matches nothing, or a token. -/
theorem Config.EndsOnce.of_go (hmarker : ∀ p : g.Production, .terminal Terminal.endMarker ∉ p.right)
    (h : c.EndsOnce) {step : Option (Step g)} (hnext : c.next table = .go step d) :
    d.stack = [] ∨ d.EndsOnce ∧
      (table.Idles d c ∧ d.rest.length = c.rest.length ∨ d.rest.length < c.rest.length) := by
  obtain ⟨s, hs, hmem⟩ := h
  rcases next_eq_go hnext with ⟨below, hc, -, rfl⟩ | ⟨p, below, hc, -, rfl, rfl⟩ |
    ⟨below, hc, rfl, rfl⟩
  · rcases List.append_eq_cons_iff.1 (hs.symm.trans hc) with ⟨-, hbelow⟩ | ⟨s, rfl, rfl⟩
    · obtain ⟨-, rfl⟩ := List.cons.inj hbelow
      exact .inl rfl
    · rw [List.mem_cons, not_or] at hmem
      refine .inr ⟨⟨s, rfl, hmem.2⟩, .inr ?_⟩
      cases hr : c.rest with
      | nil => simp [lookahead, hr] at hmem
      | cons t rest => exact Nat.lt_succ_self _
  · rcases List.append_eq_cons_iff.1 (hs.symm.trans hc) with ⟨-, hbelow⟩ | ⟨s, rfl, rfl⟩
    · cases hbelow
    · rw [List.mem_cons, not_or] at hmem
      have hright : .terminal Terminal.endMarker ∉ p.right ++ s := fun hp =>
        (List.mem_append.1 hp).elim (hmarker p) hmem.2
      have hexpansion : .terminal Terminal.endMarker ∉ p.expansion ++ s :=
        Grammar.Production.of_right (P := fun (u : g.Form) => Symbol.terminal Terminal.endMarker ∉ u)
          (fun v hv hmem => hv (List.mem_cons_of_mem _ hmem)) hright
      exact .inr ⟨⟨p.expansion ++ s, by simp, hexpansion⟩, .inl ⟨⟨_, hnext, by simp⟩, rfl⟩⟩
  · rcases List.append_eq_cons_iff.1 (hs.symm.trans hc) with ⟨-, hbelow⟩ | ⟨s, rfl, rfl⟩
    · cases hbelow
    · rw [List.mem_cons, not_or] at hmem
      exact .inr ⟨⟨s, rfl, hmem.2⟩, .inl ⟨⟨_, hnext, by simp⟩, rfl⟩⟩

theorem Table.Predicts.exists_stopsFrom (h : table.Predicts W)
    (hmarker : ∀ p : g.Production, .terminal Terminal.endMarker ∉ p.right) (hc : c.EndsOnce) :
    ∃ r, table.StopsFrom c r := by
  -- first by what is left to read, then by what is left before the next match
  induction hn : c.rest.length using Nat.strongRecOn generalizing c with
  | ind n ihread =>
    have hsettles := h.settles c
    induction hsettles with
    | intro c _ ih =>
      refine StopsFrom.exists_of_go fun step d hnext => ?_
      rcases hc.of_go hmarker hnext with hd | ⟨hd, ⟨hidles, hrest⟩ | hrest⟩
      · obtain ⟨stack, rest, close⟩ := d
        obtain rfl : stack = [] := hd
        exact ⟨_, .of_stop rfl⟩
      · exact ih d hidles hd (hrest.trans hn)
      · exact ihread _ (hn ▸ hrest) hd rfl

/-- No run of the machine of a grammar's table goes on for ever without a match, and if the grammar
does not mention the end marker, the machine stops. -/
theorem matches_recur (h : Table.ofGrammar g = .ok table) :
    (∀ (c : Nat → Config g) (step : Nat → Option (Step g)),
      (∀ i, (c i).next table = .go (step i) (c (i + 1))) →
        ∀ n, ∃ i, n ≤ i ∧ ∃ token, step i = some (.matched token)) ∧
    ((∀ p : g.Production, .terminal Terminal.endMarker ∉ p.right) →
      ∀ tokens : List (Token T), ∃ r, table.parse tokens = some r) := by
  have hpred := Table.predicts_of_ofGrammar h
  refine ⟨hpred.exists_match, fun hmarker tokens => ?_⟩
  have hstart : (Config.start g tokens).EndsOnce := ⟨[.nonterminal g.start], rfl, by simp⟩
  obtain ⟨r, hr⟩ := hpred.exists_stopsFrom hmarker hstart
  exact ⟨r, Table.parse_eq_some_iff.2 hr⟩

end

/-! ### A machine that never stops -/

namespace Endless
open Postfix (Kind)

/-- The grammar of `S -> END_OF_INPUT S`, whose machine asks for end markers for ever. -/
def grammar : Grammar Kind where
  size := 1
  names := #v["S"]
  alternatives := #v[[[.terminal .endOfInput, .nonterminal 0]]]
  start := 0

def production : grammar.Production := ⟨grammar.start, ⟨0, by decide⟩⟩

theorem isSome_ofGrammar : (Table.ofGrammar grammar).toOption.isSome := by decide +kernel

def table : Table grammar := (Table.ofGrammar grammar).toOption.get isSome_ofGrammar

theorem ofGrammar_eq_ok : Table.ofGrammar grammar = .ok table := Postfix.eq_ok_get isSome_ofGrammar

def config (i : Nat) : Config grammar :=
  if i % 2 = 0 then .start grammar []
  else ⟨production.right ++ [.terminal .endOfInput], [], .start⟩

def step (i : Nat) : Option (Step grammar) :=
  if i % 2 = 0 then some (.expanded production) else some (.matched (.atEnd .start))

theorem get?_table : table.get? grammar.start .endOfInput = some production := by decide +kernel

theorem next_config (i : Nat) : (config i).next table = .go (step i) (config (i + 1)) := by
  rcases Nat.mod_two_eq_zero_or_one i with hi | hi
  · have hi' : (i + 1) % 2 ≠ 0 := by omega
    rw [config, config, step, if_pos hi, if_pos hi, if_neg hi']
    exact Config.next_of_get? rfl get?_table
  · have hi' : (i + 1) % 2 = 0 := by omega
    have hi : i % 2 ≠ 0 := by omega
    rw [config, config, step, if_neg hi, if_neg hi, if_pos hi']
    exact Config.next_of_terminal rfl rfl

end Endless

/-- The machine that never stops matches end markers for ever, and that of the postfix language stops on
an unfinished program. -/
theorem matches_recur_endless :
    (∀ n, ∃ i, n ≤ i ∧ ∃ token, Endless.step i = some (.matched token)) ∧
    ∃ r, Postfix.table.parse [⟨.openParen, "(", .single ⟨1, 1, 0⟩⟩,
      ⟨.number, "5", .single ⟨1, 2, 1⟩⟩] = some r :=
  ⟨(matches_recur Endless.ofGrammar_eq_ok).1 Endless.config Endless.step Endless.next_config,
    (matches_recur Postfix.ofGrammar_eq_ok).2 Postfix.endMarker_not_mem_right _⟩

end Predictive
