import Predictive.Postfix.Kind
import Predictive.Proofs.FirstExact

/-!
# FOLLOW sets are exact

The FOLLOW sets of a grammar say what derivations say (`follow_exact`): `t` is in FOLLOW of `x` if and
only if some nonterminal, reachable or not, derives a string in which `t` stands right behind `x`, or
`t` is the end marker and the start symbol derives a string that ends in `x`. Unreachable nonterminals
are all that sets this apart from what the start symbol and the end marker derive.

Every member has a reason (`FollowSets.Sound`), which each update of a pass keeps. Conversely,
`W.Covers u` says that `W` knows what can come behind each nonterminal of the string `u`. A nonterminal
alone is covered, as nothing comes behind it, and so is the start symbol in front of the end marker;
where no occurrence adds anything (`FollowSets.Closed`), a step of a derivation keeps it
(`Closed.covers_yields`), so all that they derive is covered.
-/

namespace Predictive

section
variable {T : Type} {g : Grammar T}

namespace Grammar
variable {p : g.Production} {a b v : g.Form} {x : g.Nonterminal} {t : T}

/-- A derivation from what stands behind a nonterminal in a right-hand side. -/
theorem Production.derives_behind (hp : p.right = a ++ .nonterminal x :: b) (hb : g.Derives b v) :
    g.Derives [.nonterminal p.left] (a ++ .nonterminal x :: v) := by
  have hright : g.Derives p.right (a ++ .nonterminal x :: v) := by
    rw [hp]
    exact (Derives.refl a).append ((Derives.refl [.nonterminal x]).append hb)
  exact (Derives.production p).trans hright

/-- What follows a nonterminal follows what its alternatives can end in. -/
theorem Follows.ending (hp : p.right = a ++ .nonterminal x :: b) (hb : g.Derives b [])
    (h : g.Follows t p.left) : g.Follows t x := by
  obtain ⟨y, c, d, h⟩ := h
  have hx := (Production.derives_behind hp hb).context c (.terminal t :: d)
  exact ⟨y, c ++ a, d, h.trans (by simpa using hx)⟩

theorem EndsIn.ending (hp : p.right = a ++ .nonterminal x :: b) (hb : g.Derives b [])
    (h : g.EndsIn p.left) : g.EndsIn x := by
  obtain ⟨c, h⟩ := h
  have hx := (Production.derives_behind hp hb).context c []
  exact ⟨c ++ a, h.trans (by simpa using hx)⟩

end Grammar

variable [Terminal T]

namespace FollowSets
variable {F : FirstSets g} {W W' : FollowSets g} {u v : g.Form} {t : T}

/-! ### Every member has a reason -/

/-- Members are there for a reason. -/
def Sound (W : FollowSets g) : Prop :=
  ∀ x, ∀ t ∈ W.of x, g.Follows t x ∨ t = Terminal.endMarker ∧ g.EndsIn x

theorem Sound.absorb {o : Occurrence g} (hF : F.Sound) (hW : W.Sound) (ho : o ∈ occurrences g)
    (h : absorb? F W o = some W') : W'.Sound := by
  obtain ⟨-, rfl⟩ := absorb?_eq_some_iff.1 h
  obtain ⟨p, hp, a, hright⟩ := mem_occurrences.1 ho
  intro x t ht
  rw [of_set] at ht
  split at ht
  · next hx =>
    subst hx
    rcases TerminalSet.mem_union.1 ht with ht | ht
    · exact hW o.symbol t ht
    rcases mem_after.1 ht with ht | ⟨hnull, ht⟩
    · obtain ⟨v, hv⟩ := (hF.begins_form ht).derives
      exact .inl ⟨p.left, a, v, Grammar.Production.derives_behind hright hv⟩
    · have hrest := hF.derives_form hnull
      rw [← hp] at ht
      rcases hW p.left t ht with hfollows | ⟨hmarker, hends⟩
      · exact .inl (hfollows.ending hright hrest)
      · exact .inr ⟨hmarker, hends.ending hright hrest⟩
  · exact hW x t ht

theorem Sound.initial : (initial g).Sound := by
  intro x t ht
  rw [of_initial] at ht
  split at ht
  · next hx =>
    subst hx
    exact .inr ⟨TerminalSet.mem_singleton.1 ht, [], .refl _⟩
  · exact absurd ht TerminalSet.not_mem_empty

/-! ### Nothing is left out -/

/-- No occurrence adds anything, and the end marker follows the start symbol. -/
structure Closed (W : FollowSets g) : Prop where
  start : Terminal.endMarker ∈ W.of g.start
  inside : ∀ (p : g.Production) a x b, p.right = a ++ .nonterminal x :: b →
    ∀ t, g.Begins t b → t ∈ W.of x
  ending : ∀ (p : g.Production) a x b, p.right = a ++ .nonterminal x :: b → g.Derives b [] →
    ∀ t ∈ W.of p.left, t ∈ W.of x

/-- What can come behind the nonterminals of a string is in their FOLLOW sets. -/
def Covers (W : FollowSets g) : g.Form → Prop
  | [] => True
  | .nonterminal x :: u => (∀ t, g.Begins t u → t ∈ W.of x) ∧ W.Covers u
  | .terminal _ :: u | .epsilon :: u => W.Covers u

namespace Covers
variable {a b : g.Form} {x : g.Nonterminal}

theorem tail {s : Symbol T g.Nonterminal} (h : W.Covers (s :: u)) : W.Covers u := by
  cases s with
  | nonterminal x => exact h.2
  | terminal t => exact h
  | epsilon => exact h

theorem of_append (h : W.Covers (a ++ u)) : W.Covers u := by
  induction a with
  | nil => exact h
  | cons s a ih => exact ih h.tail

theorem singleton (W : FollowSets g) (x : g.Nonterminal) : W.Covers [.nonterminal x] :=
  ⟨fun _ ht => (nomatch ht), trivial⟩

theorem mem_of (h : W.Covers (a ++ .nonterminal x :: b)) (hb : g.Begins t b) : t ∈ W.of x := by
  induction a with
  | nil => exact h.1 t hb
  | cons s a ih => exact ih h.tail

/-- What a part of a string becomes can be put in its place. -/
theorem context (hd : g.Derives u v) (h : W.Covers (u ++ b) → W.Covers (v ++ b))
    (hu : W.Covers (a ++ (u ++ b))) : W.Covers (a ++ (v ++ b)) := by
  induction a with
  | nil => exact h hu
  | cons s a ih =>
    have htail := ih hu.tail
    cases s with
    | terminal t => exact htail
    | epsilon => exact htail
    | nonterminal x =>
      have hda : g.Derives (a ++ (u ++ b)) (a ++ (v ++ b)) := by simpa using hd.context a b
      exact ⟨fun t ht => hu.1 t (ht.of_derives hda), htail⟩

end Covers

namespace Closed
variable {p : g.Production}

/-- The parts of a right-hand side are covered in front of whatever its left-hand side is covered in
front of. -/
theorem covers_suffix (hW : W.Closed) {a : g.Form} (hp : p.right = a ++ v)
    (hu : ∀ t, g.Begins t u → t ∈ W.of p.left) (hc : W.Covers u) : W.Covers (v ++ u) := by
  induction v generalizing a with
  | nil => exact hc
  | cons s v ih =>
    have hv : W.Covers (v ++ u) := ih (a := a ++ [s]) (by simpa using hp)
    cases s with
    | terminal t => exact hv
    | epsilon => exact hv
    | nonterminal x =>
      refine ⟨fun t ht => ?_, hv⟩
      rcases ht.append_inv with ht | ⟨hnil, ht⟩
      · exact hW.inside p a x v hp t ht
      · exact hW.ending p a x v hp hnil t (hu t ht)

theorem covers_replace (hW : W.Closed) (hc : W.Covers (.nonterminal p.left :: u)) :
    W.Covers (p.right ++ u) :=
  hW.covers_suffix (a := []) (v := p.right) rfl hc.1 hc.2

theorem covers_right (hW : W.Closed) (p : g.Production) : W.Covers p.right := by
  simpa using hW.covers_replace (Covers.singleton W p.left)

theorem covers_start (hW : W.Closed) : W.Covers g.startForm := by
  unfold Grammar.startForm
  refine ⟨fun t ht => ?_, trivial⟩
  obtain ⟨v, hv⟩ := ht.derives
  obtain ⟨w, hw, -⟩ := hv.terminal_inv
  obtain rfl : t = Terminal.endMarker := by simpa using congrArg List.head? hw
  exact hW.start

theorem covers_yields (hW : W.Closed) (h : g.Yields u v) (hu : W.Covers u) : W.Covers v := by
  cases h with
  | replace p a b =>
    rw [List.append_assoc]
    exact Covers.context (.production p) hW.covers_replace hu
  | drop a b => exact Covers.context (u := [.epsilon]) (v := []) (.single (.drop [] [])) Covers.tail hu

theorem covers_derives (hW : W.Closed) (h : g.Derives u v) (hu : W.Covers u) : W.Covers v := by
  induction h with
  | refl => exact hu
  | head step _ ih => exact ih (hW.covers_yields step hu)

theorem mem_of_startForm (hW : W.Closed) {a b : g.Form} {x : g.Nonterminal}
    (h : g.Derives g.startForm (a ++ .nonterminal x :: .terminal t :: b)) : t ∈ W.of x :=
  (hW.covers_derives h hW.covers_start).mem_of (.terminal b)

end Closed

end FollowSets

namespace Grammar

theorem sound_follow (g : Grammar T) : (follow g.first.value).value.Sound :=
  saturate_induction
    (fun _ hW => sweep_induction (fun _ _ ho _ hW h => hW.absorb (sound_first g) ho h) hW) _
    FollowSets.Sound.initial

theorem endMarker_mem_follow (F : FirstSets g) :
    Terminal.endMarker ∈ (follow F).value.of g.start := by
  let P : FollowSets g → Prop := fun W => Terminal.endMarker ∈ W.of g.start
  refine saturate_induction (P := P) (fun W hW => ?_) _ ?_
  · refine sweep_induction (P := P) (fun W o _ W' hW h => ?_) hW
    show Terminal.endMarker ∈ W'.of g.start
    obtain ⟨-, rfl⟩ := FollowSets.absorb?_eq_some_iff.1 h
    rw [FollowSets.of_set]
    split
    · next ho => exact TerminalSet.mem_union.2 (.inl (ho ▸ hW))
    · exact hW
  · show Terminal.endMarker ∈ (FollowSets.initial g).of g.start
    rw [FollowSets.of_initial, if_pos rfl]
    exact TerminalSet.mem_singleton.2 rfl

theorem closed_follow (g : Grammar T) : (follow g.first.value).value.Closed := by
  have hadded : ∀ (p : g.Production) a x b, p.right = a ++ .nonterminal x :: b →
      ((follow g.first.value).value.after g.first.value ⟨p.left, x, b⟩).Subset
        ((follow g.first.value).value.of x) := fun p a x b hp =>
    FollowSets.absorb?_eq_none_iff.1
      (absorb?_follow _ (FollowSets.mem_occurrences.2 ⟨p, rfl, a, hp⟩))
  refine ⟨endMarker_mem_follow _, fun p a x b hp t ht => ?_, fun p a x b hp hb t ht => ?_⟩
  · exact hadded p a x b hp t (FollowSets.mem_after.2 (.inl (mem_first_iff.2 ht)))
  · exact hadded p a x b hp t (FollowSets.mem_after.2 (.inr ⟨nullable_first_iff.2 hb, ht⟩))

theorem EndsIn.derives_startForm {x : g.Nonterminal} (h : g.EndsIn x) :
    ∃ a, g.Derives g.startForm (a ++ [.nonterminal x, .terminal Terminal.endMarker]) := by
  obtain ⟨a, h⟩ := h
  have hmarker := h.append (.refl [.terminal Terminal.endMarker])
  rw [List.append_assoc] at hmarker
  exact ⟨a, hmarker⟩

theorem mem_follow_iff {x : g.Nonterminal} {t : T} : t ∈ (follow g.first.value).value.of x ↔
    g.Follows t x ∨ t = Terminal.endMarker ∧ g.EndsIn x := by
  have hclosed := closed_follow g
  constructor
  · exact sound_follow g x t
  · rintro (⟨y, a, b, h⟩ | ⟨rfl, hends⟩)
    · exact (hclosed.covers_derives h (.singleton _ y)).mem_of (.terminal b)
    · obtain ⟨a, h⟩ := hends.derives_startForm
      exact hclosed.mem_of_startForm h

/-- What a reachable nonterminal derives, the start symbol derives in some context. -/
theorem IsReachable.derives_startForm {x : g.Nonterminal} {v : g.Form} (h : g.IsReachable x)
    (hx : g.Derives [.nonterminal x] v) : ∃ a b, g.Derives g.startForm (a ++ v ++ b) := by
  obtain ⟨a, b, h⟩ := h
  have hv : g.Derives (a ++ .nonterminal x :: b) (a ++ v ++ b) := by simpa using hx.context a b
  refine ⟨a, b ++ [.terminal Terminal.endMarker], ?_⟩
  rw [← List.append_assoc]
  exact (h.trans hv).append (.refl [.terminal Terminal.endMarker])

end Grammar

/-- The passes for FOLLOW come to an end by themselves. A terminal is then in FOLLOW of `x` exactly if
some nonterminal derives a string in which it stands right behind `x`, or it is the end marker and the
start symbol derives a string that ends in `x`; if every nonterminal is reachable, exactly if it stands
right behind `x` in what the start symbol and the end marker derive. -/
theorem follow_exact (g : Grammar T) :
    FollowSets.grow g.first.value (Grammar.follow g.first.value).value =
      ((Grammar.follow g.first.value).value, false) ∧
    ∀ x t,
      (t ∈ (Grammar.follow g.first.value).value.of x ↔
        g.Follows t x ∨ t = Terminal.endMarker ∧ g.EndsIn x) ∧
      ((∀ y, g.IsReachable y) → (t ∈ (Grammar.follow g.first.value).value.of x ↔
        ∃ a b, g.Derives g.startForm (a ++ .nonterminal x :: .terminal t :: b))) := by
  refine ⟨sweep_eq_self fun o ho => Grammar.absorb?_follow _ ho, fun x t =>
    ⟨Grammar.mem_follow_iff, fun hreach => ?_⟩⟩
  constructor
  · intro ht
    rcases Grammar.mem_follow_iff.1 ht with ⟨y, a, b, h⟩ | ⟨rfl, hends⟩
    · obtain ⟨c, d, hstart⟩ := (hreach y).derives_startForm h
      exact ⟨c ++ a, b ++ d, by simpa using hstart⟩
    · obtain ⟨a, hstart⟩ := hends.derives_startForm
      exact ⟨a, [], hstart⟩
  · rintro ⟨a, b, h⟩
    exact (Grammar.closed_follow g).mem_of_startForm h

end

/-! ### A list in parentheses -/

namespace Listing
open Postfix (Kind)

/-- The grammar of `Line -> ( Items Op )`, where `Items` are numbers and `Op` is a plus, a minus or
empty. -/
def grammar : Grammar Kind where
  size := 3
  names := #v["Line", "Items", "Op"]
  alternatives := #v[
    [[.terminal .openParen, .nonterminal 1, .nonterminal 2, .terminal .closeParen]],
    [[.terminal .number, .nonterminal 1], [.epsilon]],
    [[.terminal .plus], [.terminal .minus], [.epsilon]]]
  start := 0

def line : grammar.Production := ⟨(0 : Fin 3), ⟨0, by decide⟩⟩

def items : grammar.Nonterminal := (1 : Fin 3)

theorem isReachable : ∀ y, grammar.IsReachable y
  | (0 : Fin 3) => ⟨[], [], .refl _⟩
  | (1 : Fin 3) => ⟨[_], [_, _], .production line⟩
  | (2 : Fin 3) => ⟨[_, _], [_], .production line⟩

end Listing

/-- The parenthesis that closes a list can follow its items, as the operator can be empty, but no number
can. -/
theorem follow_exact_listing :
    (∀ y, Listing.grammar.IsReachable y) ∧
    (∃ a b, Listing.grammar.Derives Listing.grammar.startForm
      (a ++ .nonterminal Listing.items :: .terminal .closeParen :: b)) ∧
    ¬ ∃ a b, Listing.grammar.Derives Listing.grammar.startForm
      (a ++ .nonterminal Listing.items :: .terminal .number :: b) := by
  have hfollow := fun t => ((follow_exact Listing.grammar).2 Listing.items t).2 Listing.isReachable
  refine ⟨Listing.isReachable, (hfollow .closeParen).1 (by decide +kernel), fun h => ?_⟩
  exact absurd ((hfollow .number).2 h) (by decide +kernel)

end Predictive
