import Predictive.Proofs.Termination

/-!
# An end marker that is missing

An input without an end marker is read as if one stood behind it, where its last token ends
(`parse_append_marker`): the machines on the two inputs make the same steps, however many.

Until the marker is read, the two configurations differ in nothing but the marker itself, and an end
marker is at the bottom of both stacks (`Marked.ahead`). The one machine then sees a token where the
other one assumes it. When the end marker is matched for the first time, the one machine has read its
last token and the other one had none left, so from then on the configurations are equal
(`Marked.read`), also where productions ask for further end markers. Nothing is left over for the
last check of either: with the marker still unread there is something on the stack, and where tokens
are counted, the marker is not.
-/

namespace Predictive
variable {T : Type} [Terminal T] {g : Grammar T} {table : Table g} {c c' : Config g}

@[simp] theorem closingPoint_append_atEnd (tokens : List (Token T)) (p : Point) :
    closingPoint (tokens ++ [.atEnd p]) = p := by
  simp [closingPoint, Token.atEnd, Span.single]

/-- The second configuration has, behind the same tokens, the end marker that the first one assumes;
or that marker is read and they are equal. -/
inductive Marked : Config g → Config g → Prop where
  | ahead (s : g.Form) {rest : List (Token T)} (close : Point) :
    (∀ t ∈ rest, t.kind ≠ Terminal.endMarker) →
    Marked ⟨s ++ [.terminal Terminal.endMarker], rest, close⟩
      ⟨s ++ [.terminal Terminal.endMarker], rest ++ [.atEnd close], close⟩
  | read (c : Config g) : Marked c c

namespace Marked

theorem start {tokens : List (Token T)} (h : ∀ t ∈ tokens, t.kind ≠ Terminal.endMarker) :
    Marked (.start g tokens) (.start g (tokens ++ [.atEnd (closingPoint tokens)])) := by
  rw [Config.start, Config.start, closingPoint_append_atEnd]
  exact .ahead [.nonterminal g.start] _ h

theorem stack_eq (h : Marked c c') : c'.stack = c.stack := by
  cases h <;> rfl

/-- With the marker unread there is something on the stack. -/
theorem eq_of_nil (h : Marked c c') (hs : c.stack = []) : c = c' := by
  cases h with
  | ahead s close hrest => simp at hs
  | read => rfl

theorem lookahead_eq (h : Marked c c') : c'.lookahead = c.lookahead := by
  cases h with
  | @ahead s rest close hrest => cases rest <;> rfl
  | read => rfl

/-- The marker is not counted among the tokens left. -/
theorem trailing_eq (h : Marked c c') : c'.trailing = c.trailing := by
  rw [Config.trailing, Config.trailing, h.lookahead_eq]
  cases h with
  | ahead s close hrest => simp [Token.atEnd]
  | read => rfl

/-- Reading the end marker makes the configurations equal, and reading a token before it does not use
up the marker at the bottom. -/
theorem tail (h : Marked c c') {t : T} {below : g.Form} (hs : c.stack = .terminal t :: below)
    (ht : t = c.lookahead.kind) :
    Marked ⟨below, c.rest.tail, c.close⟩ ⟨below, c'.rest.tail, c'.close⟩ := by
  cases h with
  | read => exact .read _
  | @ahead s rest close hrest =>
    cases rest with
    | nil => exact .read _
    | cons a rest =>
      rcases List.append_eq_cons_iff.1 hs with ⟨-, hbottom⟩ | ⟨s, rfl, rfl⟩
      · cases hbottom
        exact absurd ht.symm (hrest a (List.mem_cons_self ..))
      · exact .ahead s close fun t ht => hrest t (List.mem_cons_of_mem _ ht)

theorem replace (h : Marked c c') {a : Symbol T g.Nonterminal} {below : g.Form}
    (hs : c.stack = a :: below) (ha : a ≠ .terminal Terminal.endMarker) (u : g.Form) :
    Marked ⟨u ++ below, c.rest, c.close⟩ ⟨u ++ below, c'.rest, c'.close⟩ := by
  cases h with
  | read => exact .read _
  | @ahead s rest close hrest =>
    rcases List.append_eq_cons_iff.1 hs with ⟨-, hbottom⟩ | ⟨s, rfl, rfl⟩
    · cases hbottom
      exact absurd rfl ha
    · rw [← List.append_assoc]
      exact .ahead (u ++ s) close hrest

theorem next_of_go (h : Marked c c') {step : Option (Step g)} {d : Config g}
    (hnext : c.next table = .go step d) : ∃ d', c'.next table = .go step d' ∧ Marked d d' := by
  have hstack := h.stack_eq
  have hlook := h.lookahead_eq
  rcases Config.next_eq_go hnext with ⟨below, hs, rfl, rfl⟩ | ⟨p, below, hs, hp, rfl, rfl⟩ |
    ⟨below, hs, rfl, rfl⟩
  · have hnext' : c'.next table = _ :=
      Config.next_of_terminal (hstack.trans hs) (congrArg Lookahead.kind hlook.symm)
    rw [hlook] at hnext'
    exact ⟨_, hnext', h.tail hs rfl⟩
  · rw [← hlook] at hp
    exact ⟨_, Config.next_of_get? (hstack.trans hs) hp, h.replace hs (by simp) p.expansion⟩
  · exact ⟨_, Config.next_of_epsilon (hstack.trans hs), h.replace hs (by simp) []⟩

theorem next_of_stop (h : Marked c c') {error : Option (ParseError T)}
    (hnext : c.next table = .stop error) : c'.next table = .stop error := by
  have hstack := h.stack_eq
  have hlook := h.lookahead_eq
  have htrailing := h.trailing_eq
  rcases Config.next_eq_stop hnext with ⟨hs, -⟩ | ⟨hs, -⟩ | ⟨t, below, hs, ht, rfl⟩ |
    ⟨x, below, hs, hx, rfl⟩
  · rwa [← h.eq_of_nil hs]
  · rwa [← h.eq_of_nil hs]
  · rw [← hlook] at ht
    rw [Config.next_of_ne (hstack.trans hs) ht, htrailing, hlook]
  · rw [← hlook] at hx
    rw [Config.next_of_get?_none (hstack.trans hs) hx, hlook]

end Marked

/-- The machines stop with the same result after the same number of steps, or neither has stopped. -/
theorem Table.run_of_marked (h : Marked c c') (limit : Nat) :
    table.run limit c' = table.run limit c := by
  induction limit generalizing c c' with
  | zero => rfl
  | succ limit ih =>
    cases hnext : c.next table with
    | stop error => rw [run_of_stop hnext, run_of_stop (h.next_of_stop hnext)]
    | go step d =>
      obtain ⟨d', hnext', hd⟩ := h.next_of_go hnext
      rw [run_of_go hnext, run_of_go hnext', ih hd]

/-- The machine treats an end marker that is missing as if it stood where the last token ends: on both
inputs it stops with the same derivation and the same error, or on both it runs for ever; so it does
whatever the table, and after the same number of steps. -/
theorem parse_append_marker (table : Table g) (tokens : List (Token T))
    (hmarker : ∀ t ∈ tokens, t.kind ≠ Terminal.endMarker) :
    let marked := tokens ++ [.atEnd (closingPoint tokens)]
    (∀ limit, table.run limit (.start g marked) = table.run limit (.start g tokens)) ∧
    (∀ r, table.Stops marked r ↔ table.Stops tokens r) ∧
    table.parse marked = table.parse tokens := by
  intro marked
  have hrun : ∀ limit, table.run limit (.start g marked) = table.run limit (.start g tokens) :=
    Table.run_of_marked (.start hmarker)
  have hstops : ∀ r, table.Stops marked r ↔ table.Stops tokens r := fun r =>
    exists_congr fun limit => by rw [hrun limit]
  refine ⟨hrun, hstops, Option.ext fun r => ?_⟩
  rw [Table.parse_eq_some_iff, Table.parse_eq_some_iff, hstops r]

namespace Endless

theorem run_config (limit i : Nat) : Endless.table.run limit (config i) = none := by
  induction limit generalizing i with
  | zero => rfl
  | succ limit ih => rw [Table.run_of_go (next_config i), ih, Option.map_none]

theorem parse_nil : Endless.table.parse [] = none := by
  rw [Table.parse]
  exact run_config _ 0

end Endless

/-- The unfinished program `(57` with an end marker and without, and the machine that never stops. -/
theorem parse_append_marker_postfix :
    let tokens : List (Token Postfix.Kind) := [⟨.openParen, "(", .single ⟨1, 1, 0⟩⟩,
      ⟨.number, "57", ⟨⟨1, 2, 1⟩, ⟨1, 3, 2⟩⟩⟩]
    (∀ t ∈ tokens, t.kind ≠ Terminal.endMarker) ∧
    (∃ steps e, Postfix.table.parse tokens = some ⟨steps, some e⟩ ∧
      Postfix.table.parse (tokens ++ [⟨.endOfInput, "", .single ⟨1, 3, 2⟩⟩]) = some ⟨steps, some e⟩ ∧
      e.found = ⟨.endOfInput, "", ⟨1, 3, 2⟩⟩) ∧
    Endless.table.parse [] = none ∧ Endless.table.parse [.atEnd .start] = none := by
  intro tokens
  have hmarker : ∀ t ∈ tokens, t.kind ≠ Terminal.endMarker := by decide
  have hrun : (Postfix.table.run 20 (.start Postfix.grammar tokens)).map
      (fun r => r.error.map (·.found)) = some (some ⟨.endOfInput, "", ⟨1, 3, 2⟩⟩) := by decide +kernel
  obtain ⟨⟨steps, error⟩, hr, herror⟩ := Option.map_eq_some_iff.1 hrun
  obtain ⟨e, rfl, hfound⟩ := Option.map_eq_some_iff.1 herror
  have hparse : Postfix.table.parse tokens = some ⟨steps, some e⟩ :=
    Table.parse_eq_some_iff.2 ⟨20, hr⟩
  have hmarked := (parse_append_marker Postfix.table tokens hmarker).2.2
  have hendless := (parse_append_marker Endless.table [] (by simp)).2.2
  exact ⟨hmarker, ⟨steps, e, hparse, hmarked.trans hparse, hfound⟩, Endless.parse_nil,
    hendless.trans Endless.parse_nil⟩

end Predictive
