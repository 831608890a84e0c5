import Predictive.Proofs.FirstError
import Predictive.Proofs.LeftRecursion
import Predictive.Proofs.Programs
import Predictive.Proofs.TableConflicts
import Predictive.Proofs.Termination

/-!
# Errors name what could have come instead

A table may expand a nonterminal that can be empty on a token that follows it elsewhere only. By the
time the machine stops, the stack then no longer begins with all that could have come, and the error
names too little. This cannot happen if no two terminals follow a nonterminal that can be empty
(`FollowSets.Single`): on the machine's stack there is something behind it, which begins with a terminal,
and this has to be the one in its FOLLOW set. So the cell of the nonterminal in front says what the stack
can begin with (`Predicts.isSome_get?_iff`), and a machine that has expanded goes on to a match
(`Predicts.not_stop_of_begins`). Where it stops, it has just matched a token, and a derivation of what is
matched with any terminal behind it goes through the stack (`Predicts.derives_of_matched`).

In the postfix language the end marker is not the only thing that can come behind a program, as there may
be another line (`viable_openParen`). So the marker never stands on top of the stack in front of another
token, and tokens are left over only behind an end marker that was matched.
-/

namespace Predictive

section
variable {T : Type} {g : Grammar T}

namespace Grammar

/-- Within so many replacements one below the other, `x` derives a string of terminals. -/
def productiveWithin (g : Grammar T) : Nat → g.Nonterminal → Bool
  | 0, _ => false
  | n + 1, x => (g.alternativesOf x).any (·.all fun
    | .nonterminal y => g.productiveWithin n y
    | _ => true)

theorem isProductive_of_within {n : Nat} {x : g.Nonterminal} (h : g.productiveWithin n x = true) :
    g.IsProductive x := by
  induction n generalizing x with
  | zero => cases h
  | succ n ih =>
    obtain ⟨u, hu, hall⟩ := List.any_eq_true.1 h
    obtain ⟨w, hw⟩ : ∃ w : List T, g.Derives u (w.map .terminal) :=
      derives_word_of_mem fun y hy => ih (List.all_eq_true.1 hall _ hy)
    obtain ⟨i, rfl⟩ := exists_right_eq hu
    exact ⟨w, (Derives.production ⟨x, i⟩).trans hw⟩

theorem begins_terminal_iff {t t' : T} {u : g.Form} : g.Begins t (.terminal t' :: u) ↔ t = t' := by
  constructor
  · intro h
    obtain ⟨v, hv⟩ := h.derives
    obtain ⟨w, hw, -⟩ := hv.terminal_inv
    cases hw
    rfl
  · rintro rfl
    exact .terminal u

end Grammar

variable [Terminal T] {table : Table g} {W : FollowSets g} {c d : Config g} {steps : List (Step g)}

namespace Grammar

/-- The string begins one of the grammar's language with the end marker behind it. -/
def Viable (g : Grammar T) (u : List T) : Prop :=
  ∃ w, g.Derives [.nonterminal g.start] (w.map .terminal) ∧ u <+: w ++ [Terminal.endMarker]

theorem viable_iff_derives (hword : ∀ x, g.IsProductive x) {u : List T} :
    g.Viable u ↔ ∃ v, g.Derives g.startForm (u.map .terminal ++ v) := by
  constructor
  · rintro ⟨w, hw, v, hv⟩
    refine ⟨v.map .terminal, ?_⟩
    rw [← List.map_append]
    exact derives_startForm_iff.2 ⟨w, hv, hw⟩
  · rintro ⟨v, hv⟩
    obtain ⟨v', hv'⟩ := derives_word hword v
    have hall := hv.trans ((Derives.refl (u.map .terminal)).append hv')
    rw [← List.map_append] at hall
    obtain ⟨w, hw, hder⟩ := derives_startForm_iff.1 hall
    exact ⟨w, hder, v', hw⟩

theorem exists_begins (hword : ∀ x, g.IsProductive x) (u : g.Form) (t : T) :
    ∃ t', g.Begins t' (u ++ [.terminal t]) := by
  obtain ⟨w, hw⟩ := derives_word hword u
  cases w with
  | nil => exact ⟨t, begins_iff_derives.2 ⟨[], hw.append (.refl [.terminal t])⟩⟩
  | cons t' w => exact ⟨t', (begins_iff_derives.2 ⟨_, hw⟩).append_right _⟩

end Grammar

theorem Config.EndsOnce.exists_begins (hc : c.EndsOnce) (hword : ∀ x, g.IsProductive x) {x : g.Nonterminal}
    {below : g.Form} (hs : c.stack = .nonterminal x :: below) : ∃ t, g.Begins t below := by
  obtain ⟨s, hends, -⟩ := hc
  rcases List.append_eq_cons_iff.1 (hends.symm.trans hs) with ⟨-, hlast⟩ | ⟨s, -, rfl⟩
  · cases hlast
  · exact Grammar.exists_begins hword s _

/-- No two terminals follow a nonterminal that can be empty. -/
def FollowSets.Single (W : FollowSets g) : Prop :=
  ∀ x, g.Derives [.nonterminal x] [] → ∀ t ∈ W.of x, ∀ t' ∈ W.of x, t = t'

/-- The last step is a match, if there is a step at all. -/
def EndsInMatch (steps : List (Step g)) : Prop :=
  steps = [] ∨ ∃ before token, steps = before ++ [.matched token]

namespace Table

/-! ### The last steps of a run -/

namespace Reaches

theorem endsOnce (hmarker : ∀ p : g.Production, .terminal Terminal.endMarker ∉ p.right)
    (h : table.Reaches steps c d) (hc : c.EndsOnce) : d.stack = [] ∨ d.EndsOnce := by
  induction h with
  | refl => exact .inr hc
  | @head c d e step steps hnext hd ih =>
    rcases hc.of_go hmarker hnext with hnil | ⟨hends, -⟩
    · cases hd with
      | refl => exact .inl hnil
      | head hgo _ =>
        rw [Config.next, hnil] at hgo
        cases hgo
    · exact ih hends

theorem endsOnce_of_cons (hmarker : ∀ p : g.Production, .terminal Terminal.endMarker ∉ p.right)
    (h : table.Reaches steps c d) (hc : c.EndsOnce) {s : Symbol T g.Nonterminal} {below : g.Form}
    (hs : d.stack = s :: below) : d.EndsOnce := by
  rcases h.endsOnce hmarker hc with hnil | hends
  · rw [hnil] at hs
    cases hs
  · exact hends

/-- A run that ends in a step of the derivation, with epsilons dropped behind it. -/
theorem concat_inv {step : Step g} (h : table.Reaches (steps ++ [step]) c d) :
    ∃ e e', table.Reaches steps c e ∧ e.next table = .go (some step) e' ∧ table.Reaches [] e' d := by
  generalize hs : steps ++ [step] = all at h
  induction h generalizing steps with
  | refl => simp at hs
  | @head c c' d first rest hnext hd ih =>
    cases first with
    | none =>
      obtain ⟨e, e', he, hgo, htail⟩ := ih hs
      exact ⟨e, e', .head hnext he, hgo, htail⟩
    | some first =>
      rcases List.append_eq_cons_iff.1 hs with ⟨rfl, hrest⟩ | ⟨steps, rfl, rfl⟩
      · obtain ⟨rfl, rfl⟩ := List.cons.inj hrest
        exact ⟨c, c', .refl c, hnext, hd⟩
      · obtain ⟨e, e', he, hgo, htail⟩ := ih rfl
        exact ⟨e, e', .head hnext he, hgo, htail⟩

theorem derives_of_dropped {t : T} {v : g.Form} (h : table.Reaches [] c d)
    (hd : g.Derives c.stack (.terminal t :: v)) : g.Derives d.stack (.terminal t :: v) := by
  generalize hs : ([] : List (Step g)) = steps at h
  induction h with
  | refl => exact hd
  | @head c d e step steps hnext _ ih =>
    obtain ⟨hstep, rfl⟩ := List.append_eq_nil_iff.1 hs.symm
    rcases Config.next_eq_go hnext with ⟨below, -, rfl, -⟩ | ⟨p, below, -, -, rfl, -⟩ |
      ⟨below, hc, -, rfl⟩
    · cases hstep
    · cases hstep
    · rw [hc] at hd
      exact ih hd.of_epsilon rfl

end Reaches

namespace Predicts
variable {x : g.Nonterminal} {u v : g.Form} {t : T}

theorem isSome_get?_iff (h : table.Predicts W) (hsingle : W.Single) (hc : W.Covers (.nonterminal x :: u))
    (hu : ∃ t, g.Begins t u) : (∃ p, table.get? x t = some p) ↔ g.Begins t (.nonterminal x :: u) := by
  constructor
  · rintro ⟨p, hp⟩
    obtain ⟨rfl, hright | ⟨hright, ht⟩⟩ := (h.cell _ _ _).1 hp
    · exact .enter p u hright
    · have hempty := (Grammar.Derives.production p).trans hright
      obtain ⟨t', ht'⟩ := hu
      obtain rfl := hsingle p.left hempty t ht t' (hc.1 t' ht')
      exact .skip hempty ht'
  · intro ht
    obtain ⟨v, hv⟩ := ht.derives
    obtain ⟨p, -, hp, -⟩ := h.cell_of_derives hc hv
    exact ⟨p, hp⟩

theorem not_stop_of_begins (h : table.Predicts W) (hr : table.Reaches steps c d) (hread : kindsRead steps = [])
    (hc : W.Covers c.stack) (hb : g.Begins c.lookahead.kind c.stack) (error : Option (ParseError T)) :
    d.next table ≠ .stop error := by
  intro hstop
  obtain ⟨w, hw⟩ := hr.lookahead_kind
  rw [hread] at hw
  obtain ⟨hkind, -⟩ := List.cons.inj hw
  obtain ⟨v, hv⟩ := hb.derives
  rw [← hkind] at hv
  obtain ⟨hcovers, hder⟩ := h.derives_of_reaches (v := v) hr hc (by rwa [hread])
  obtain ⟨step, d', hgo⟩ := h.goes_of_derives hcovers hder
  rw [hstop] at hgo
  cases hgo

/-- The machine stops right behind a match, or at once. -/
theorem last_is_matched (h : table.Predicts W) (hsingle : W.Single) (hword : ∀ x, g.IsProductive x)
    (hmarker : ∀ p : g.Production, .terminal Terminal.endMarker ∉ p.right) (hc : c.EndsOnce)
    (hcovers : W.Covers c.stack) {error : Option (ParseError T)} (hr : table.Reaches steps c d)
    (hstop : d.next table = .stop error) : EndsInMatch steps := by
  rcases List.eq_nil_or_concat' steps with rfl | ⟨before, step, rfl⟩
  · exact .inl rfl
  cases step with
  | matched token => exact .inr ⟨before, token, rfl⟩
  | expanded p =>
    obtain ⟨e, e', he, hgo, htail⟩ := hr.concat_inv
    have hcovers : W.Covers e.stack := he.covers h.closed hcovers
    rcases Config.next_eq_go hgo with ⟨below, -, hstep, -⟩ | ⟨q, below, hs, hq, -, -⟩ | ⟨below, -, hstep, -⟩
    · cases hstep
    · have hbelow := (he.endsOnce_of_cons hmarker hc hs).exists_begins hword hs
      rw [hs] at hcovers
      have hbegins := (h.isSome_get?_iff hsingle hcovers hbelow).1 ⟨q, hq⟩
      rw [← hs] at hcovers hbegins
      exact absurd hstop (h.not_stop_of_begins (.head hgo htail) rfl hcovers hbegins error)
    · cases hstep

/-- Right behind a match, a derivation of what is matched and a terminal goes through the stack. -/
theorem derives_of_matched (h : table.Predicts W) (hcovers : W.Covers c.stack)
    (hr : table.Reaches steps c d) (hlast : EndsInMatch steps)
    (hd : g.Derives c.stack ((kindsRead steps).map .terminal ++ .terminal t :: v)) :
    g.Derives d.stack (.terminal t :: v) := by
  rcases hlast with rfl | ⟨before, token, rfl⟩
  · exact hr.derives_of_dropped hd
  obtain ⟨e, e', he, hgo, htail⟩ := hr.concat_inv
  rcases Config.next_eq_go hgo with ⟨below, hs, hstep, rfl⟩ | ⟨q, below, -, -, hstep, -⟩ | ⟨below, -, hstep, -⟩
  · cases hstep
    rw [kindsRead_append, List.map_append, List.append_assoc] at hd
    obtain ⟨-, hder⟩ := h.derives_of_reaches he hcovers hd
    rw [hs] at hder
    obtain ⟨w, hw, hbelow⟩ := hder.terminal_inv
    obtain ⟨-, rfl⟩ := List.cons.inj hw
    exact htail.derives_of_dropped hbelow
  · cases hstep
  · cases hstep

/-- What is matched with a terminal behind it can be continued exactly if the stack begins with it. -/
theorem viable_iff_begins (h : table.Predicts W) (hword : ∀ x, g.IsProductive x)
    (hc : c.stack = g.startForm) (hr : table.Reaches steps c d) (hlast : EndsInMatch steps) :
    g.Viable (kindsRead steps ++ [t]) ↔ g.Begins t d.stack := by
  have hword' (v : g.Form) : (kindsRead steps ++ [t]).map .terminal ++ v =
      (kindsRead steps).map .terminal ++ .terminal t :: v := by
    simp
  rw [Grammar.viable_iff_derives hword]
  simp only [hword']
  constructor
  · rintro ⟨v, hv⟩
    rw [← hc] at hv
    have hcovers : W.Covers c.stack := hc ▸ h.covers_start
    exact Grammar.begins_iff_derives.2 ⟨v, h.derives_of_matched hcovers hr hlast hv⟩
  · intro ht
    obtain ⟨v, hv⟩ := ht.derives
    have hread := hr.derives
    rw [hc] at hread
    exact ⟨v, hread.trans ((Grammar.Derives.refl _).append hv)⟩

end Predicts

end Table

theorem Table.Reaches.kinds_eq (h : table.Reaches steps c d) (hd : d.rest ≠ []) :
    kinds c.rest = kindsRead steps ++ kinds d.rest := by
  obtain ⟨htokens, hrest, -⟩ := h.reads
  have hlt : (tokensRead steps).length < c.rest.length := by
    rw [hrest] at hd
    exact Nat.lt_of_not_le fun hle => hd (List.drop_eq_nil_iff.2 hle)
  have hread : kindsRead steps = kinds (c.rest.take (tokensRead steps).length) := by
    rw [kindsRead, htokens, Config.map_sees_range, Nat.sub_eq_zero_of_le (Nat.le_of_lt hlt)]
    simp [kinds, Lookahead.ofToken, Function.comp_def]
  rw [hread, hrest, kinds, kinds, kinds, ← List.map_append, List.take_append_drop]

end

/-! ### The postfix language -/

namespace Postfix
open Kind

-- only the kernel is to compute them
attribute [local irreducible] grammar table

theorem isProductive (x : grammar.Nonterminal) : grammar.IsProductive x := by
  have hwithin : ∀ x, grammar.productiveWithin 6 x = true := by decide +kernel
  exact Grammar.isProductive_of_within (hwithin x)

theorem eq_of_length_le_one {α : Type} {l : List α} {a b : α} (h : l.length ≤ 1) (ha : a ∈ l) (hb : b ∈ l) :
    a = b := by
  match l with
  | [c] => rw [List.mem_singleton.1 ha, List.mem_singleton.1 hb]

/-- What can be empty is followed by the end marker, or by a closing parenthesis. -/
theorem single_follow : (Grammar.follow grammar.first.value).value.Single := by
  have hlength : ∀ x, (grammar.first.value.ofForm [.nonterminal x]).nullable = true →
      ((Grammar.follow grammar.first.value).value.of x).toList.length ≤ 1 := by
    decide +kernel
  intro x hx t ht t' ht'
  exact eq_of_length_le_one (hlength x (Grammar.nullable_first_iff.2 hx)) ht ht'

theorem viable_openParen {u : List Kind} (h : grammar.Viable (u ++ [endOfInput])) :
    grammar.Viable (u ++ [openParen]) := by
  obtain ⟨w, hw, z, hz⟩ := h
  have hprogram := derives_iff_isProgram.1 hw
  rw [List.append_assoc] at hz
  obtain ⟨rfl, -⟩ := hprogram.eq_of_append hz
  obtain ⟨v, hv⟩ := hprogram.eq_cons
  refine ⟨u ++ u, derives_iff_isProgram.2 (hprogram.append hprogram), v ++ [endOfInput], ?_⟩
  nth_rewrite 3 [hv]
  simp [endMarker_eq]

/-- A rejection names what could have come instead. Nothing is expanded on the token that is rejected. The
kinds that the error expects are, in order, those with which the kinds matched begin a program and its end
marker; or the error is about tokens behind a whole program and its end marker. -/
theorem rejection_exact {tokens : List (Token Kind)} {steps : List (Step grammar)} {e : ParseError Kind}
    (h : parse tokens = some ⟨steps, some e⟩) :
    EndsInMatch steps ∧
    match e with
    | .noRule _ _ expected => expected.Pairwise (compare · · = .lt) ∧
        ∀ t, t ∈ expected ↔ grammar.Viable (kindsRead steps ++ [t])
    | .unexpectedToken expected _ => ∀ t, t = expected ↔ grammar.Viable (kindsRead steps ++ [t])
    | .trailingInput _ _ => ∃ v rest,
        grammar.Derives [.nonterminal grammar.start] (v.map .terminal) ∧
        kindsRead steps = v ++ [endOfInput] ∧ rest ≠ [] ∧ kinds tokens = kindsRead steps ++ rest := by
  have hpred := Table.predicts_of_ofGrammar ofGrammar_eq_ok
  obtain ⟨d, hd, hstop⟩ := Table.stopsFrom_iff.1 (Table.parse_eq_some_iff.1 h)
  dsimp only at hd hstop
  have hends : (Config.start grammar tokens).EndsOnce := ⟨[.nonterminal grammar.start], rfl, by simp⟩
  have hlast := hpred.last_is_matched single_follow isProductive endMarker_not_mem_right hends
    hpred.covers_start hd hstop
  refine ⟨hlast, ?_⟩
  have hviable (t : Kind) : grammar.Viable (kindsRead steps ++ [t]) ↔ grammar.Begins t d.stack :=
    hpred.viable_iff_begins isProductive rfl hd hlast
  have hcovers : (Grammar.follow grammar.first.value).value.Covers d.stack :=
    (hpred.closed.covers_derives hd.derives hpred.covers_start).of_append
  rcases Config.next_eq_stop hstop with ⟨-, -, he⟩ | ⟨hs, hrest, he⟩ | ⟨t, below, hs, ht, he⟩ |
    ⟨x, below, hs, hx, he⟩
  · cases he
  · cases he
    have hread := hd.derives
    rw [hs, List.append_nil] at hread
    obtain ⟨v, hv, hder⟩ := Grammar.derives_startForm_iff.1 hread
    exact ⟨v, kinds d.rest, hder, hv, by simpa [kinds] using hrest, hd.kinds_eq hrest⟩
  · rw [hs] at hviable
    simp only [Grammar.begins_terminal_iff] at hviable
    split at he
    · next hmarker =>
      subst hmarker
      have hopen := (hviable openParen).1 (viable_openParen ((hviable endOfInput).2 rfl))
      cases hopen
    · cases he
      exact fun t' => (hviable t').symm
  · cases he
    refine ⟨List.pairwise_map.2 (table.increasing x), fun t => ?_⟩
    have hbelow := (hd.endsOnce_of_cons endMarker_not_mem_right hends hs).exists_begins isProductive hs
    rw [hs] at hcovers
    rw [hviable, Table.mem_expected, hpred.isSome_get?_iff single_follow hcovers hbelow, hs]

/-- Behind `(5` an operand, the call of a result or the closing parenthesis could have come. -/
theorem rejection_exact_unclosed :
    ∃ steps nonterminal found, parse [⟨openParen, "(", .single ⟨1, 1, 0⟩⟩, ⟨number, "5", .single ⟨1, 2, 1⟩⟩] =
        some ⟨steps, some (.noRule nonterminal found [openParen, closeParen, res, number, identifier])⟩ ∧
      ∀ t, t ∈ [openParen, closeParen, res, number, identifier] ↔ grammar.Viable [openParen, number, t] := by
  let tokens : List (Token Kind) :=
    [⟨openParen, "(", .single ⟨1, 1, 0⟩⟩, ⟨number, "5", .single ⟨1, 2, 1⟩⟩]
  have hrun : (table.run 20 (.start grammar tokens)).map (fun r => (kindsRead r.derivation, r.error)) =
      some ([openParen, number], some (.noRule "AfterNumber" (.atEnd ⟨1, 2, 1⟩)
        [openParen, closeParen, res, number, identifier])) := by
    decide +kernel
  obtain ⟨⟨steps, error⟩, hr, hkinds⟩ := Option.map_eq_some_iff.1 hrun
  obtain ⟨hread, rfl⟩ := Prod.mk.inj hkinds
  have hparse : parse tokens = some ⟨steps, _⟩ := Table.parse_eq_some_iff.2 ⟨20, hr⟩
  obtain ⟨-, -, hexpected⟩ := rejection_exact hparse
  rw [hread] at hexpected
  exact ⟨steps, _, _, hparse, hexpected⟩

end Postfix

end Predictive
