import Mathlib.Data.List.Induction
import Predictive.Lexer

/-!
# A lexer tiles the text

There is one way to cut a text into pieces of which each is the longest match there, and is the last
rule's of those with a match of that length, as far as rules have matches (`Lexer.Tiles`). The tokens
are the pieces that some kind is assigned to, each at its place in the text, and a text that cannot be
cut up to its end is refused at the first character that is left (`tokenize_tiles`).

The cuts ask for the lengths of matches only. So a lexer some of whose rules make no tokens any more
cuts the text in the same way, and the tokens of the other rules stay where they are.

`LexerRule.select` goes through the rules once. Which rule it ends with is said by `Wins`, where a rule
is known by its number in the list (`decides_select`); the induction is on the list from its end,
since the last rule is compared last.
-/

namespace Predictive
variable {T : Type}

namespace LexerRule
variable {rules : List (LexerRule T)} {s : List Char} {r r' : LexerRule T} {i j n m : Nat}

/-- Rule number `i` reads the next `n` characters: no match is longer, and no later rule has one of
that length. -/
structure Wins (rules : List (LexerRule T)) (s : List Char) (i n : Nat) : Prop where
  reads : ∃ r, rules[i]? = some r ∧ r.matchLength s = some n
  pos : 0 < n
  longest : ∀ (j : Nat) (r : LexerRule T) (m : Nat), rules[j]? = some r → r.matchLength s = some m →
    m ≤ n ∧ (m = n → j ≤ i)

/-- No rule has a match that is not empty. -/
def Stuck (rules : List (LexerRule T)) (s : List Char) : Prop :=
  ∀ (j : Nat) (r : LexerRule T) (m : Nat), rules[j]? = some r → r.matchLength s = some m → m = 0

theorem Wins.unique (h : Wins rules s i n) (h' : Wins rules s j m) : i = j ∧ n = m := by
  obtain ⟨r, hr, hn⟩ := h.reads
  obtain ⟨r', hr', hm⟩ := h'.reads
  have hmn := h.longest j r' m hr' hm
  have hnm := h'.longest i r n hr hn
  have heq : n = m := Nat.le_antisymm hnm.1 hmn.1
  exact ⟨Nat.le_antisymm (hnm.2 heq) (hmn.2 heq.symm), heq⟩

theorem Wins.not_stuck (h : Wins rules s i n) : ¬ Stuck rules s := by
  intro hstuck
  obtain ⟨r, hr, hn⟩ := h.reads
  have hzero := hstuck i r n hr hn
  exact absurd h.pos (by omega)

section
variable {rules' : List (LexerRule T)}
  (hrules : rules.map LexerRule.matchLength = rules'.map LexerRule.matchLength)
include hrules

theorem exists_congr (hr : rules'[i]? = some r) (hn : r.matchLength s = some n) :
    ∃ q, rules[i]? = some q ∧ q.matchLength s = some n := by
  have hi := congrArg (fun lengths => lengths[i]?) hrules
  simp only [List.getElem?_map, hr] at hi
  obtain ⟨q, hq, hlength⟩ := Option.map_eq_some_iff.1 hi
  exact ⟨q, hq, by rw [hlength, hn]⟩

theorem Stuck.congr (h : Stuck rules s) : Stuck rules' s := by
  intro j r m hr hm
  obtain ⟨q, hq, hm⟩ := exists_congr hrules hr hm
  exact h j q m hq hm

theorem Wins.congr (h : Wins rules s i n) : Wins rules' s i n := by
  obtain ⟨r, hr, hn⟩ := h.reads
  refine ⟨exists_congr hrules.symm hr hn, h.pos, fun j r m hr hm => ?_⟩
  obtain ⟨q, hq, hm⟩ := exists_congr hrules hr hm
  exact h.longest j q m hq hm

end

/-! ### The rule that is selected -/

theorem getElem?_snoc : (rules ++ [r])[j]? = some r' ↔
    rules[j]? = some r' ∨ j = rules.length ∧ r' = r := by
  rcases Nat.lt_trichotomy j rules.length with hj | rfl | hj
  · rw [List.getElem?_append_left hj]
    exact ⟨.inl, fun h => h.resolve_right (by omega)⟩
  · simp [eq_comm]
  · rw [List.getElem?_eq_none (by simp; omega), List.getElem?_eq_none (by omega)]
    simp only [reduceCtorEq, false_or, false_iff]
    omega

theorem Stuck.snoc (h : Stuck rules s) (hr : ∀ m, r.matchLength s = some m → m = 0) :
    Stuck (rules ++ [r]) s := by
  intro j q m hq hm
  rcases getElem?_snoc.1 hq with hq | ⟨rfl, rfl⟩
  · exact h j q m hq hm
  · exact hr m hm

theorem Wins.snoc (h : Wins rules s i n) (hr : ∀ m, r.matchLength s = some m → m < n) :
    Wins (rules ++ [r]) s i n := by
  obtain ⟨q, hq, hn⟩ := h.reads
  refine ⟨⟨q, getElem?_snoc.2 (.inl hq), hn⟩, h.pos, fun j q m hq hm => ?_⟩
  rcases getElem?_snoc.1 hq with hq | ⟨rfl, rfl⟩
  · exact h.longest j q m hq hm
  · have hlt := hr m hm
    exact ⟨by omega, by omega⟩

/-- The last rule wins if no rule before it has a longer match. -/
theorem wins_snoc (hn : r.matchLength s = some n) (hpos : 0 < n)
    (hrules : ∀ (j : Nat) (q : LexerRule T) (m : Nat), rules[j]? = some q →
      q.matchLength s = some m → m ≤ n) : Wins (rules ++ [r]) s rules.length n := by
  refine ⟨⟨r, getElem?_snoc.2 (.inr ⟨rfl, rfl⟩), hn⟩, hpos, fun j q m hq hm => ?_⟩
  rcases getElem?_snoc.1 hq with hq | ⟨rfl, rfl⟩
  · have hj := (List.getElem?_eq_some_iff.1 hq).1
    exact ⟨hrules j q m hq hm, fun _ => Nat.le_of_lt hj⟩
  · obtain rfl := Option.some.inj (hm.symm.trans hn)
    exact ⟨Nat.le_refl _, fun _ => Nat.le_refl _⟩

/-- What the choice says about the rules. -/
def Decides (rules : List (LexerRule T)) (s : List Char) : Option (LexerRule T × Nat) → Prop
  | none => Stuck rules s
  | some (r, n) => ∃ i, rules[i]? = some r ∧ Wins rules s i n

theorem Decides.better {best : Option (LexerRule T × Nat)} (h : Decides rules s best)
    (r : LexerRule T) : Decides (rules ++ [r]) s (better s best r) := by
  -- without a match that is not empty the rule is passed over
  have hkeep (hr : ∀ m, r.matchLength s = some m → m = 0) : Decides (rules ++ [r]) s best := by
    cases best with
    | none => exact h.snoc hr
    | some found =>
      obtain ⟨i, hi, hwins⟩ := h
      refine ⟨i, getElem?_snoc.2 (.inl hi), hwins.snoc fun m hm => ?_⟩
      have hzero := hr m hm
      have hpos := hwins.pos
      omega
  unfold LexerRule.better
  split
  · next hnone => exact hkeep (by simp [hnone])
  · next hzero => exact hkeep (by simp [hzero])
  · next n hn =>
    have hwins : Wins (rules ++ [r]) s rules.length (n + 1) :=
      wins_snoc hn n.succ_pos fun j q m hq hm => by
        have hzero := h j q m hq hm
        omega
    exact ⟨rules.length, getElem?_snoc.2 (.inr ⟨rfl, rfl⟩), hwins⟩
  · next n r' m hn =>
    obtain ⟨i, hi, hwins⟩ := h
    split
    -- a later rule wins if its match is as long
    · next hle =>
      have hnew : Wins (rules ++ [r]) s rules.length (n + 1) :=
        wins_snoc hn n.succ_pos fun j q k hq hk => Nat.le_trans (hwins.longest j q k hq hk).1 hle
      exact ⟨rules.length, getElem?_snoc.2 (.inr ⟨rfl, rfl⟩), hnew⟩
    · next hgt =>
      refine ⟨i, getElem?_snoc.2 (.inl hi), hwins.snoc fun k hk => ?_⟩
      obtain rfl := Option.some.inj (hn.symm.trans hk)
      omega

theorem decides_select (rules : List (LexerRule T)) (s : List Char) :
    Decides rules s (select rules s) := by
  induction rules using List.reverseRecOn with
  | nil => exact fun j r m hr => by simp at hr
  | append_singleton rules r ih =>
    have hstep : select (rules ++ [r]) s = better s (select rules s) r := by
      rw [select, select, List.foldl_append]
      rfl
    rw [hstep]
    exact ih.better r

theorem le_of_select (h : select rules s = some (r, n)) (hr : r' ∈ rules)
    (hm : r'.matchLength s = some m) : m ≤ n := by
  have hdecides := decides_select rules s
  rw [h] at hdecides
  obtain ⟨i, -, hwins⟩ := hdecides
  obtain ⟨j, hj⟩ := List.mem_iff_getElem?.1 hr
  exact (hwins.longest j r' m hj hm).1

theorem exists_select (hr : r ∈ rules) (hn : r.matchLength s = some n) (hpos : 0 < n) :
    ∃ r' m, select rules s = some (r', m) := by
  cases hselect : select rules s with
  | some found => exact ⟨found.1, found.2, rfl⟩
  | none =>
    have hstuck := decides_select rules s
    rw [hselect] at hstuck
    obtain ⟨j, hj⟩ := List.mem_iff_getElem?.1 hr
    have hzero := hstuck j r n hj hn
    omega

theorem select_eq_of_only (hr : r ∈ rules) (hn : r.matchLength s = some n) (hpos : 0 < n)
    (honly : ∀ r' ∈ rules, ∀ m, r'.matchLength s = some m → r' = r) :
    select rules s = some (r, n) := by
  obtain ⟨r', m, hselect⟩ := exists_select hr hn hpos
  obtain ⟨hr', hm, -⟩ := select_spec hselect
  obtain rfl := honly r' hr' m hm
  obtain rfl := Option.some.inj (hn.symm.trans hm)
  exact hselect

end LexerRule

/-! ### Cuts -/

/-- A piece of a text with what stands before it, and the number of the rule that reads it. -/
structure Cut where
  before : List Char
  piece : List Char
  rule : Nat
deriving DecidableEq, Repr

namespace Lexer
variable {l : Lexer T} {before s rest rest' : List Char} {cuts cuts' : List Cut}

/-- The pieces, from one place in a text on: each is read by the rule that wins where it begins, and
what is left is where no rule reads anything. -/
inductive Tiles (l : Lexer T) : (before s : List Char) → List Cut → (rest : List Char) → Prop where
  | stop {before s : List Char} : LexerRule.Stuck l.rules s → Tiles l before s [] s
  | cut {before piece s rest : List Char} {i : Nat} {cuts : List Cut} :
    LexerRule.Wins l.rules (piece ++ s) i piece.length → Tiles l (before ++ piece) s cuts rest →
    Tiles l before (piece ++ s) (⟨before, piece, i⟩ :: cuts) rest

namespace Tiles

theorem unique (h : l.Tiles before s cuts rest) (h' : l.Tiles before s cuts' rest') :
    cuts' = cuts ∧ rest' = rest := by
  induction h generalizing cuts' with
  | stop hstuck =>
    cases h' with
    | stop => exact ⟨rfl, rfl⟩
    | cut hwins => exact absurd hstuck hwins.not_stuck
  | @cut before piece s rest i cuts hwins _ ih =>
    generalize hs : piece ++ s = u at h' hwins
    cases h' with
    | stop hstuck => exact absurd hstuck hwins.not_stuck
    | @cut _ piece' s' _ j cuts' hwins' h' =>
      obtain ⟨rfl, hlength⟩ := hwins.unique hwins'
      obtain ⟨rfl, rfl⟩ := List.append_inj hs hlength
      obtain ⟨rfl, rfl⟩ := ih h'
      exact ⟨rfl, rfl⟩

theorem text_eq (h : l.Tiles before s cuts rest) : (cuts.map (·.piece)).flatten ++ rest = s := by
  induction h with
  | stop => rfl
  | cut _ _ ih => simp [ih]

/-- The tiling asks for the lengths of matches only. -/
theorem congr {l' : Lexer T}
    (hl : l.rules.map LexerRule.matchLength = l'.rules.map LexerRule.matchLength)
    (h : l.Tiles before s cuts rest) : l'.Tiles before s cuts rest := by
  induction h with
  | stop hstuck => exact .stop (hstuck.congr hl)
  | cut hwins _ ih => exact .cut (hwins.congr hl) ih

end Tiles

/-- The token of a piece, unless its rule makes none. -/
def token? (l : Lexer T) (c : Cut) : Option (Token T) :=
  (l.rules[c.rule]?).bind fun r => (r.kind (String.ofList c.piece)).map fun kind =>
    ⟨kind, String.ofList c.piece,
      ⟨Point.start.advance c.before, Point.start.advance (c.before ++ c.piece.dropLast)⟩⟩

/-- The pieces that are found are a tiling, and its tokens are those that are located. -/
theorem tiles_tile (l : Lexer T) (before s : List Char) : ∃ cuts,
    l.Tiles before s cuts (l.tile s).2 ∧
      locate (Point.start.advance before) (l.tile s).1 = cuts.filterMap l.token? := by
  fun_induction tile l s generalizing before with
  | case1 s hnone =>
    have hstuck := LexerRule.decides_select l.rules s
    rw [hnone] at hstuck
    exact ⟨[], .stop hstuck, rfl⟩
  | case2 s r n hsome _ pieces rest heq ih =>
    have hwins := LexerRule.decides_select l.rules s
    rw [hsome] at hwins
    obtain ⟨i, hi, hwins⟩ := hwins
    obtain ⟨cuts, hcuts, hlocate⟩ := ih (before ++ s.take n)
    rw [heq] at hcuts hlocate
    have hlength : (s.take n).length = n := by
      rw [List.length_take, Nat.min_eq_left (LexerRule.select_le hsome)]
    have htiles : l.Tiles before (s.take n ++ s.drop n) (⟨before, s.take n, i⟩ :: cuts) rest :=
      .cut (by rwa [hlength, List.take_append_drop]) hcuts
    rw [List.take_append_drop] at htiles
    refine ⟨_, htiles, ?_⟩
    rw [Point.advance_append] at hlocate
    simp only [locate, hlocate, List.filterMap_cons, token?, hi, Option.bind_some, Point.advance_append]
    cases r.kind (String.ofList (s.take n)) <;> rfl

/-- The lexer in which some rules, known by their numbers, make no tokens. -/
def mute (muted : Nat → Bool) (l : Lexer T) : Lexer T :=
  ⟨l.rules.mapIdx fun i r => if muted i then { r with kind := fun _ => none } else r⟩

theorem getElem?_mute {muted : Nat → Bool} {i : Nat} : (l.mute muted).rules[i]? =
    (l.rules[i]?).map fun r => if muted i then { r with kind := fun _ => none } else r :=
  List.getElem?_mapIdx

theorem Tiles.mute {muted : Nat → Bool} (h : l.Tiles before s cuts rest) :
    (l.mute muted).Tiles before s cuts rest := by
  refine h.congr (List.ext_getElem? fun i => ?_)
  rw [List.getElem?_map, List.getElem?_map, getElem?_mute, Option.map_map]
  congr 1
  funext r
  show r.matchLength = LexerRule.matchLength (if muted i then _ else r)
  split <;> rfl

theorem token?_mute {muted : Nat → Bool} (c : Cut) :
    (l.mute muted).token? c = if muted c.rule then none else l.token? c := by
  unfold token?
  rw [getElem?_mute]
  cases l.rules[c.rule]? with
  | none => simp
  | some r => cases hm : muted c.rule <;> simp

theorem filterMap_mute {muted : Nat → Bool} (cuts : List Cut) :
    cuts.filterMap (l.mute muted).token? =
      (cuts.filter fun c => !muted c.rule).filterMap l.token? := by
  rw [List.filterMap_filter]
  congr 1
  funext c
  rw [token?_mute]
  cases muted c.rule <;> rfl

theorem Tiles.scan_eq {text : String} (h : l.Tiles [] text.toList cuts rest) :
    l.scan text = ⟨cuts.filterMap l.token?, Point.start.advance (cuts.map (·.piece)).flatten,
      rest.head?.map (⟨·, Point.start.advance (cuts.map (·.piece)).flatten⟩)⟩ := by
  obtain ⟨found, hfound, hlocate⟩ := l.tiles_tile [] text.toList
  obtain ⟨rfl, hrest⟩ := h.unique hfound
  have htext := l.flatten_tile text.toList
  rw [hrest] at htext
  have hpieces := List.append_cancel_right (htext.trans h.text_eq.symm)
  rw [Point.advance_nil] at hlocate
  simp only [scan, hlocate, hrest, hpieces]

variable [Terminal T]

theorem Tiles.tokenize_ok {text : String} (h : l.Tiles [] text.toList cuts []) :
    l.tokenize text =
      .ok (cuts.filterMap l.token? ++ [.atEnd (Point.start.advance text.toList)]) := by
  have htext := h.text_eq
  rw [List.append_nil] at htext
  rw [tokenize, h.scan_eq, htext]
  rfl

theorem Tiles.tokenize_error {text : String} {c : Char} (h : l.Tiles [] text.toList cuts (c :: rest)) :
    l.tokenize text = .error ⟨c, Point.start.advance (cuts.map (·.piece)).flatten⟩ := by
  rw [tokenize, h.scan_eq]
  rfl

end Lexer

/-- There is one tiling of a text. The lexer refuses the text exactly if the tiling stops before the end,
at the first character left; otherwise it gives the tokens of the pieces, each at its place, and the end
marker behind the text. Where some rules make no tokens any more, the others' tokens are all that is
given, and nothing else is changed. -/
theorem tokenize_tiles [Terminal T] (l : Lexer T) (text : String) :
    ∃ cuts rest, l.Tiles [] text.toList cuts rest ∧
      (∀ cuts' rest', l.Tiles [] text.toList cuts' rest' → cuts' = cuts ∧ rest' = rest) ∧
      (cuts.map (·.piece)).flatten ++ rest = text.toList ∧
      (∀ e, l.tokenize text = .error e ↔ ∃ before s, before ++ e.character :: s = text.toList ∧
        rest = e.character :: s ∧ e.position = Point.start.advance before) ∧
      (rest = [] → l.tokenize text =
        .ok (cuts.filterMap l.token? ++ [.atEnd (Point.start.advance text.toList)])) ∧
      ∀ muted : Nat → Bool,
        (∀ e, (l.mute muted).tokenize text = .error e ↔ l.tokenize text = .error e) ∧
        (rest = [] → (l.mute muted).tokenize text =
          .ok ((cuts.filter fun c => !muted c.rule).filterMap l.token? ++
            [.atEnd (Point.start.advance text.toList)])) := by
  obtain ⟨cuts, htiles, -⟩ := l.tiles_tile [] text.toList
  generalize (l.tile text.toList).2 = rest at htiles
  refine ⟨cuts, rest, htiles, fun _ _ h => htiles.unique h, htiles.text_eq, ?_⟩
  cases rest with
  | nil =>
    refine ⟨fun e => ?_, fun _ => htiles.tokenize_ok, fun muted => ⟨fun e => ?_, fun _ => ?_⟩⟩
    · rw [htiles.tokenize_ok]
      simp
    · rw [htiles.tokenize_ok, htiles.mute.tokenize_ok]
      simp
    · rw [← Lexer.filterMap_mute]
      exact htiles.mute.tokenize_ok
  | cons c s =>
    have herror := htiles.tokenize_error
    refine ⟨fun e => ?_, by simp, fun muted => ⟨fun e => ?_, by simp⟩⟩
    · rw [herror, Except.error.injEq]
      constructor
      · rintro rfl
        exact ⟨_, s, htiles.text_eq, rfl, rfl⟩
      · rintro ⟨before, s', hbefore, hrest, hposition⟩
      -- what is left determines what stands before it
        obtain ⟨hc, rfl⟩ := List.cons.inj hrest
        rw [← htiles.text_eq, ← hc] at hbefore
        obtain rfl := List.append_cancel_right hbefore
        rw [hc, ← hposition]
    · rw [herror, htiles.mute.tokenize_error]

end Predictive
