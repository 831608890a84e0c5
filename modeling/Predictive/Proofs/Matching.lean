import Mathlib.Data.List.TakeWhile
import Predictive.Pattern.Program

/-!
# What programs of simple patterns match

Patterns that ask for the start of the text: a literal (`firstEnd_literal`), and runs of characters, of
which the first one may have to be in a class of its own (`firstEnd_star`, `firstEnd_plus`).

A walk meets the instructions between two characters one after the other. Where it goes is followed along
the pattern, with what waits behind it left open (`Walks`), so that the parts of a pattern can be put
together. Of what is met only the characters that can be read count, and where they lead (`Offers`): a
repetition is then one round after another (`run_rounds`).
-/

namespace Predictive

/-! ### Walks, part by part -/

section
variable {n : Nat} {next : Fin n → List (Fin n)} {marks marks₁ marks₂ : Vector Bool n}
  {x y z : Fin n} {met met₁ met₂ : List (Fin n)}

/-- From `x` on a walk meets `met` before it comes back to what was waiting, and leaves the marks
`marks'`. -/
def Walks (next : Fin n → List (Fin n)) (marks : Vector Bool n) (x : Fin n) (met : List (Fin n))
    (marks' : Vector Bool n) : Prop :=
  ∀ todo, walk next (x :: todo) marks = met ++ walk next todo marks'

def mark (marks : Vector Bool n) (x : Fin n) : Vector Bool n := marks.set x true x.isLt

theorem get_mark : (mark marks x).get y = (decide (x = y) || marks.get y) := by
  change (marks.set x true x.isLt)[(y : Nat)] = _
  rw [Vector.getElem_set]
  by_cases h : x = y
  · simp [h]
  · have hne : (x : Nat) ≠ y := fun hxy => h (Fin.ext hxy)
    simp only [hne, if_false, h, decide_false, Bool.false_or]
    rfl

theorem get_unmarked (x : Fin n) : (Vector.replicate n false).get x = false := by simp [Vector.get]

theorem get_mark_of_ne (h : y ≠ x) : (mark marks x).get y = marks.get y := by
  rw [get_mark, decide_eq_false (Ne.symm h), Bool.false_or]

namespace Walks

theorem leaf (hx : marks.get x = false) (hnext : next x = []) :
    Walks next marks x [x] (mark marks x) := by
  intro todo
  rw [walk_cons_of_unmarked hx, hnext]
  rfl

theorem one (hx : marks.get x = false) (hnext : next x = [y])
    (hy : Walks next (mark marks x) y met marks₁) : Walks next marks x (x :: met) marks₁ := by
  intro todo
  rw [walk_cons_of_unmarked hx, hnext, List.singleton_append]
  exact congrArg (x :: ·) (hy todo)

theorem two (hx : marks.get x = false) (hnext : next x = [y, z])
    (hy : Walks next (mark marks x) y met₁ marks₁) (hz : Walks next marks₁ z met₂ marks₂) :
    Walks next marks x (x :: (met₁ ++ met₂)) marks₂ := by
  intro todo
  rw [walk_cons_of_unmarked hx, hnext]
  have hwalk := hy (z :: todo)
  rw [hz todo, ← List.append_assoc] at hwalk
  exact congrArg (x :: ·) hwalk

end Walks

end

namespace Program
variable {P : Program} {base next : Nat} {i : Instr} {code : List Instr} {k : Nat}

/-- From number `base` on the instructions of the program begin with `code`. -/
def Holds (P : Program) (base : Nat) (code : List Instr) : Prop :=
  ∀ k i, code[k]? = some i → P.code[base + k]? = some i

theorem holds_cons : P.Holds base (i :: code) ↔ P.code[base]? = some i ∧ P.Holds (base + 1) code := by
  constructor
  · intro h
    refine ⟨h 0 i rfl, fun k j hj => ?_⟩
    rw [Nat.add_right_comm]
    exact h (k + 1) j hj
  · rintro ⟨hi, h⟩ k j hj
    cases k with
    | zero => cases hj; exact hi
    | succ k =>
      have := h k j hj
      rwa [Nat.add_right_comm] at this

theorem holds_append {code' : List Instr} :
    P.Holds base (code ++ code') ↔ P.Holds base code ∧ P.Holds (base + code.length) code' := by
  induction code generalizing base with
  | nil => simp [Holds]
  | cons i code ih =>
    rw [List.cons_append, holds_cons, ih, holds_cons, and_assoc, List.length_cons,
      Nat.add_right_comm base]
    rfl

theorem holds_ofPattern (p : Pattern) : (ofPattern p).Holds 0 (p.code 0 p.size ++ [.stop]) := by
  intro k i hi
  rw [Nat.zero_add]
  unfold ofPattern
  rw [Vector.getElem?_mk, List.getElem?_toArray]
  exact hi

theorem Holds.exists_index (h : P.Holds base code) (hne : code ≠ []) : ∃ x : Fin P.size, x = base := by
  obtain ⟨i, code, rfl⟩ := List.exists_cons_of_ne_nil hne
  obtain ⟨hbase, -⟩ := Vector.getElem?_eq_some_iff.1 (holds_cons.1 h).1
  exact ⟨⟨base, hbase⟩, rfl⟩

theorem exists_get (h : P.code[k]? = some i) : ∃ x : Fin P.size, x = k ∧ P.code.get x = i := by
  obtain ⟨hk, hi⟩ := Vector.getElem?_eq_some_iff.1 h
  exact ⟨⟨k, hk⟩, rfl, hi⟩

theorem get_of_getElem? {x : Fin P.size} (h : P.code[k]? = some i) (hx : x = k) : P.code.get x = i := by
  obtain ⟨y, hy, hi⟩ := exists_get h
  obtain rfl : x = y := Fin.ext (hx.trans hy.symm)
  exact hi

theorem index?_val (x : Fin P.size) : P.index? x = some x := dif_pos x.isLt

section
variable {before after : Option Char} {x y z : Fin P.size} {c : Char} {l : Look}

theorem targets_read {m : CharClass} (h : P.code.get x = .read m next) :
    P.targets before after x = [] := by simp only [targets, h]

theorem targets_stop (h : P.code.get x = .stop) : P.targets before after x = [] := by
  simp only [targets, h]

theorem targets_jump (h : P.code.get x = .jump y) : P.targets before after x = [y] := by
  simp only [targets, h, index?_val, Option.toList_some]

theorem targets_fork (h : P.code.get x = .fork y z) : P.targets before after x = [y, z] := by
  simp only [targets, h, index?_val, Option.toList_some, List.singleton_append]

theorem targets_check (h : P.code.get x = .check l y) :
    P.targets before after x = if l.holds before after then [y] else [] := by
  simp only [targets, h, index?_val, Option.toList_some]

theorem targets_check_of_false (h : P.code.get x = .check l next)
    (hl : l.holds before after = false) : P.targets before after x = [] := by
  simp only [targets, h, hl, Bool.false_eq_true, if_false]

theorem afterChar_read {m : CharClass} (h : P.code.get x = .read m y) :
    P.afterChar c x = if m.has c then some y else none := by
  simp only [afterChar, h, index?_val]

theorem afterChar_single {d : Char} (h : P.code.get x = .read (.single c) y) :
    P.afterChar d x = if d = c then some y else none := by
  rw [afterChar_read h, CharClass.has_single]
  by_cases hd : d = c
  · rw [if_pos hd, if_pos (by simp [hd])]
  · rw [if_neg hd, if_neg (by simpa using hd)]

theorem afterChar_silent (h : P.code.get x = i) (hi : ∀ k next, i ≠ .read k next) :
    P.afterChar c x = none := by
  unfold afterChar
  rw [h]
  cases i with
  | read k next => exact absurd rfl (hi k next)
  | _ => rfl

theorem stopsAt_eq_true_iff : P.stopsAt x = true ↔ P.code.get x = .stop := by simp [stopsAt]

theorem stopsAt_eq_false (h : P.code.get x = i) (hi : i ≠ .stop) : P.stopsAt x = false := by
  simp [stopsAt, h, hi]

end

/-! ### Reading one character -/

/-- Instructions that a walk meets in front of a stop: they read the characters of `m`, and then the
program is where `Q` holds. -/
structure Offers (P : Program) (m : Char → Bool) (Q : Fin P.size → Prop) (met : List (Fin P.size)) :
    Prop where
  stopsAt : ∀ x ∈ met, P.stopsAt x = false
  reads : ∀ c, met.filterMap (P.afterChar c) ≠ [] ↔ m c = true
  leads : ∀ c, ∀ x ∈ met.filterMap (P.afterChar c), Q x

namespace Offers
variable {m m' : Char → Bool} {Q : Fin P.size → Prop} {met met' : List (Fin P.size)} {x : Fin P.size}

theorem append (h : P.Offers m Q met) (h' : P.Offers m' Q met') :
    P.Offers (fun c => m c || m' c) Q (met ++ met') := by
  refine ⟨fun x hx => ?_, fun c => ?_, fun c x hx => ?_⟩
  · exact (List.mem_append.1 hx).elim (h.stopsAt x) (h'.stopsAt x)
  · have hreads := h.reads c
    have hreads' := h'.reads c
    rw [List.filterMap_append, Bool.or_eq_true, ← hreads, ← hreads', ne_eq, List.append_eq_nil_iff,
      Classical.not_and_iff_not_or_not]
  · rw [List.filterMap_append] at hx
    exact (List.mem_append.1 hx).elim (h.leads c x) (h'.leads c x)

theorem nil : P.Offers (fun _ => false) Q [] := ⟨by simp, by simp, by simp⟩

theorem cons (h : P.Offers m Q met) (hx : P.code.get x = i) (hi : i ≠ .stop)
    (hread : ∀ k next, i ≠ .read k next) : P.Offers m Q (x :: met) := by
  refine ⟨fun y hy => ?_, fun c => ?_, fun c y hy => ?_⟩
  · rcases List.mem_cons.1 hy with rfl | hy
    · exact stopsAt_eq_false hx hi
    · exact h.stopsAt y hy
  · rw [List.filterMap_cons_none (afterChar_silent hx hread)]
    exact h.reads c
  · rw [List.filterMap_cons_none (afterChar_silent hx hread)] at hy
    exact h.leads c y hy

theorem mono {Q' : Fin P.size → Prop} (h : P.Offers m Q met) (hQ : ∀ x, Q x → Q' x) :
    P.Offers m Q' met :=
  ⟨h.stopsAt, h.reads, fun c x hx => hQ x (h.leads c x hx)⟩

theorem read {k : CharClass} {y : Fin P.size} (h : P.code.get x = .read k y) (hy : Q y) :
    P.Offers k.has Q [x] := by
  refine ⟨fun z hz => ?_, fun c => ?_, fun c z hz => ?_⟩
  · rw [List.mem_singleton.1 hz]
    exact stopsAt_eq_false h (by simp)
  · rw [List.filterMap_cons, afterChar_read h]
    cases k.has c <;> simp
  · rw [List.filterMap_cons, afterChar_read h] at hz
    cases hk : k.has c
    · simp [hk] at hz
    · obtain rfl : z = y := by simpa [hk] using hz
      exact hy

end Offers

/-- The program is at instruction `n`, or jumps there. -/
def LeadsTo (P : Program) (n : Nat) (x : Fin P.size) : Prop := x = n ∨ P.code.get x = .jump n

/-- From number `base` on no instruction has a mark, jumps apart. -/
def Fresh (P : Program) (marks : Vector Bool P.size) (base size : Nat) : Prop :=
  ∀ x : Fin P.size, base ≤ x → x < base + size → marks.get x = true → ∃ n, P.code.get x = .jump n

theorem Fresh.get_eq_false {marks : Vector Bool P.size} {size : Nat} {x : Fin P.size}
    (h : P.Fresh marks base size) (hx : base ≤ x ∧ x < base + size) (hi : P.code.get x = i)
    (hjump : ∀ n, i ≠ .jump n) : marks.get x = false := by
  refine Bool.eq_false_iff.2 fun hmark => ?_
  obtain ⟨n, hn⟩ := h x hx.1 hx.2 hmark
  exact hjump n (hi.symm.trans hn)

theorem Fresh.part {marks marks' : Vector Bool P.size} {size base' size' : Nat}
    (h : P.Fresh marks base size) (hbase : base ≤ base' ∧ base' + size' ≤ base + size)
    (hmarks : ∀ x : Fin P.size, base' ≤ x → x < base' + size' → marks'.get x = marks.get x) :
    P.Fresh marks' base' size' := by
  intro x hx hx' hmark
  rw [hmarks x hx hx'] at hmark
  exact h x (by omega) (by omega) hmark

end Program

namespace Pattern

/-- The pattern is a choice of characters, those of `m`. -/
inductive OneOf : Pattern → (Char → Bool) → Prop where
  | one (k : CharClass) : OneOf (.one k) k.has
  | literal (c : Char) : OneOf (.literal [c]) (CharClass.single c).has
  | alt {p q : Pattern} {m m' : Char → Bool} : OneOf p m → OneOf q m' →
    OneOf (.alt p q) fun c => m c || m' c

theorem OneOf.code_ne_nil {p : Pattern} {m : Char → Bool} (hp : p.OneOf m) {base next : Nat} :
    p.code base next ≠ [] := by
  cases hp <;> simp [code, literalCode]

/-- A walk through a choice of characters meets all that read one, and nothing else that counts. What
has a mark already may only be what follows a character. -/
theorem OneOf.walks {P : Program} {p : Pattern} {m : Char → Bool} (hp : p.OneOf m) {base : Nat}
    {next x : Fin P.size} (hcode : P.Holds base (p.code base next)) (hx : x = base)
    {marks : Vector Bool P.size} (hmarks : P.Fresh marks base p.size) (before after : Option Char) :
    ∃ met marks', Walks (P.targets before after) marks x met marks' ∧ P.Offers m (P.LeadsTo next) met ∧
      ∀ y : Fin P.size, y < base ∨ base + p.size ≤ y → marks'.get y = marks.get y := by
  induction hp generalizing base x marks with
  | one k =>
    obtain ⟨hread, -⟩ := Program.holds_cons.1 hcode
    have hget := Program.get_of_getElem? hread hx
    have hfree := hmarks.get_eq_false (by simp only [size]; omega) hget (by simp)
    refine ⟨[x], _, .leaf hfree (Program.targets_read hget), .read hget (.inl rfl), fun y hy => ?_⟩
    simp only [size] at hy
    exact get_mark_of_ne (by omega)
  | literal c =>
    obtain ⟨hread, hjump⟩ := Program.holds_cons.1 hcode
    obtain ⟨hjump, -⟩ := Program.holds_cons.1 hjump
    have hget := Program.get_of_getElem? hread hx
    obtain ⟨z, hz, hzget⟩ := Program.exists_get hjump
    rw [← hz] at hget
    have hfree := hmarks.get_eq_false (by simp only [size]; omega) hget (by simp)
    refine ⟨[x], _, .leaf hfree (Program.targets_read hget), .read hget (.inr hzget), fun y hy => ?_⟩
    simp only [size] at hy
    exact get_mark_of_ne (by omega)
  | @alt p q m m' hp hq ihp ihq =>
    obtain ⟨hfork, hcode⟩ := Program.holds_cons.1 hcode
    obtain ⟨hcodep, hcodeq⟩ := Program.holds_append.1 hcode
    rw [length_code] at hcodeq
    obtain ⟨y, hy⟩ := hcodep.exists_index hp.code_ne_nil
    obtain ⟨z, hz⟩ := hcodeq.exists_index hq.code_ne_nil
    have hget := Program.get_of_getElem? hfork hx
    rw [← hz, ← hy] at hget
    simp only [size] at hmarks ⊢
    have hfree := hmarks.get_eq_false (by omega) hget (by simp)
    -- each part is walked through with marks on the fork and on the other part only
    have hmarksp : P.Fresh (mark marks x) (base + 1) p.size :=
      hmarks.part (by omega) fun w hw _ => get_mark_of_ne (by omega)
    obtain ⟨metp, marks₁, hwalkp, hofferp, hsamep⟩ := ihp hcodep hy hmarksp
    have hmarksq : P.Fresh marks₁ (base + 1 + p.size) q.size :=
      hmarks.part (by omega) fun w hw _ => by rw [hsamep w (by omega), get_mark_of_ne (by omega)]
    obtain ⟨metq, marks₂, hwalkq, hofferq, hsameq⟩ := ihq hcodeq hz hmarksq
    refine ⟨_, marks₂, .two hfree (Program.targets_fork hget) hwalkp hwalkq,
      (hofferp.append hofferq).cons hget (by simp) (by simp), fun w hw => ?_⟩
    rw [hsameq w (by omega), hsamep w (by omega), get_mark_of_ne (by omega)]

end Pattern

namespace Program
variable {P : Program} {next : Nat} {m m' : Char → Bool} {Q : Fin P.size → Prop} {x : Fin P.size}

/-- From `x` on, behind some character, the program reads one more of `m` and comes to where `Q` holds,
or stops, and prefers to read. -/
def Rounds (P : Program) (m : Char → Bool) (Q : Fin P.size → Prop) (x : Fin P.size) : Prop :=
  ∀ before after, ∃ met stop marks, P.Offers m Q met ∧ P.stopsAt stop = true ∧
    Walks (P.targets (some before) after) (Vector.replicate P.size false) x (met ++ [stop]) marks

theorem Rounds.meet (h : P.Rounds m Q x) (live : List (Fin P.size)) (best : Option Nat) (before : Char)
    (after : Option Char) : ∃ met, P.Offers m Q met ∧
      (P.meet (x :: live) best (some before) after).any P.stopsAt = true ∧
      (P.meet (x :: live) best (some before) after).takeWhile (!P.stopsAt ·) = met := by
  obtain ⟨met, stop, marks, hoffers, hstop, hwalk⟩ := h before after
  unfold Program.meet preorder
  dsimp only
  rw [List.cons_append, hwalk]
  refine ⟨met, hoffers, by simp [hstop], ?_⟩
  rw [List.append_assoc, List.takeWhile_append_of_pos]
  · simp [hstop]
  · intro y hy
    rw [hoffers.stopsAt y hy]
    rfl

/-- Where all that is live may make one more round, the match goes on as far as it can. -/
theorem run_rounds (hQ : ∀ x, Q x → P.Rounds m Q x) {live : List (Fin P.size)} (hne : live ≠ [])
    (hlive : ∀ x ∈ live, Q x) {before : Char} {read : Nat} {best : Option Nat} {s : List Char} :
    P.run live (some before) read best s = some (read + (s.takeWhile m).length) := by
  induction s generalizing live before read best with
  | nil =>
    obtain ⟨x, live, rfl⟩ := List.exists_cons_of_ne_nil hne
    obtain ⟨-, -, hstop, -⟩ := (hQ x (hlive x (List.mem_cons_self ..))).meet live best before none
    rw [run, if_pos hstop]
    rfl
  | cons c s ih =>
    obtain ⟨x, live, rfl⟩ := List.exists_cons_of_ne_nil hne
    obtain ⟨met, hoffers, hstop, hmet⟩ :=
      (hQ x (hlive x (List.mem_cons_self ..))).meet live best before (some c)
    unfold run
    dsimp only
    rw [if_pos hstop, hmet]
    by_cases hc : m c = true
    -- what reading leads to begins a round again
    · have hread := (hoffers.reads c).2 hc
      rw [if_neg (by simp [hread]), ih hread (hoffers.leads c), List.takeWhile_cons_of_pos hc,
        List.length_cons]
      congr 1
      omega
    · have hread : met.filterMap (P.afterChar c) = [] := by
        rw [← hoffers.reads c] at hc
        exact Decidable.not_not.1 hc
      rw [hread, List.takeWhile_cons_of_neg hc]
      rfl

/-- A fork into a choice of characters, which leads to `next`, or a stop. Neither the fork nor the stop
is part of the choice. -/
structure Loop (P : Program) (q : Pattern) (base : Nat) (next fork stop : Fin P.size) : Prop where
  code : P.Holds base (q.code base next)
  get_fork : P.code.get fork = .fork base stop
  get_stop : P.code.get stop = .stop
  fork_out : fork < base ∨ base + q.size ≤ fork
  stop_out : stop < base ∨ base + q.size ≤ stop

namespace Loop
variable {q : Pattern} {base : Nat} {next fork stop : Fin P.size} {marks : Vector Bool P.size}

theorem walks (h : P.Loop q base next fork stop) (hq : q.OneOf m)
    (hmarks : ∀ y, marks.get y = true → ∃ n, P.code.get y = .jump n) (before after : Option Char) :
    ∃ met marks', P.Offers m (P.LeadsTo next) met ∧
      Walks (P.targets before after) marks fork (met ++ [stop]) marks' := by
  obtain ⟨first, hfirst⟩ := h.code.exists_index hq.code_ne_nil
  have hfork := h.get_fork
  rw [← hfirst] at hfork
  have free : ∀ {y : Fin P.size} {i : Instr}, P.code.get y = i → (∀ n, i ≠ .jump n) →
      marks.get y = false := by
    intro y i hi hjump
    refine Bool.eq_false_iff.2 fun hmark => ?_
    obtain ⟨n, hn⟩ := hmarks y hmark
    exact hjump n (hi.symm.trans hn)
  have hout := h.fork_out
  have hfresh : P.Fresh (mark marks fork) base q.size := by
    intro y hy hy' hmark
    rw [get_mark_of_ne (by omega)] at hmark
    exact hmarks y hmark
  obtain ⟨met, marks₁, hwalk, hoffers, hsame⟩ := hq.walks h.code hfirst hfresh before after
  have hne : stop ≠ fork := by
    intro heq
    have hstop := h.get_stop
    rw [heq, h.get_fork] at hstop
    cases hstop
  have hstop : marks₁.get stop = false := by
    rw [hsame stop h.stop_out, get_mark_of_ne hne]
    exact free h.get_stop (by simp)
  refine ⟨fork :: met, mark marks₁ stop, hoffers.cons h.get_fork (by simp) (by simp), ?_⟩
  exact .two (free h.get_fork (by simp)) (targets_fork hfork) hwalk
    (.leaf hstop (targets_stop h.get_stop))

/-- A round begins at the fork, and where a jump leads to the fork. -/
theorem rounds (h : P.Loop q base next fork stop) (hq : q.OneOf m) (hQ : ∀ y, P.LeadsTo next y → Q y)
    (hx : P.LeadsTo fork x) : P.Rounds m Q x := by
  intro before after
  rcases hx with hx | hx
  · obtain rfl : x = fork := Fin.ext hx
    have hmarks : ∀ y, (Vector.replicate P.size false).get y = true → ∃ n, P.code.get y = .jump n :=
      fun y hy => by rw [get_unmarked] at hy; cases hy
    obtain ⟨met, marks, hoffers, hwalk⟩ := h.walks hq hmarks (some before) after
    exact ⟨met, stop, marks, hoffers.mono hQ, stopsAt_eq_true_iff.2 h.get_stop, hwalk⟩
  · have hmarks : ∀ y, (mark (Vector.replicate P.size false) x).get y = true →
        ∃ n, P.code.get y = .jump n := by
      intro y hy
      rw [get_mark, get_unmarked, Bool.or_false, decide_eq_true_eq] at hy
      exact ⟨fork, hy ▸ hx⟩
    obtain ⟨met, marks, hoffers, hwalk⟩ := h.walks hq hmarks (some before) after
    exact ⟨x :: met, stop, marks, (hoffers.mono hQ).cons hx (by simp) (by simp),
      stopsAt_eq_true_iff.2 h.get_stop, .one (get_unmarked x) (targets_jump hx) hwalk⟩

end Loop

/-! ### Matches -/

theorem isFront_of_get (hx : (x : Nat) = 0) (h : P.code.get x = .check .textStart next) :
    P.isFront = true := by
  unfold isFront
  rw [← hx, index?_val, Option.map_some, h]

/-- Where a program cannot stop and has no match yet, the next character decides. -/
theorem run_of_offers (hfront : P.isFront = true) {live met : List (Fin P.size)} {before : Option Char}
    {read : Nat} {s : List Char} (hoffers : P.Offers m Q met)
    (hmeet : P.meet live none before s.head? = met) :
    P.run live before read none s = match s with
      | [] => none
      | c :: s => if m c then P.run (met.filterMap (P.afterChar c)) (some c) (read + 1) none s
        else none := by
  have hnone : met.any P.stopsAt = false := by simpa using hoffers.stopsAt
  cases s with
  | nil =>
    rw [List.head?_nil] at hmeet
    rw [run, hmeet, hnone]
    rfl
  | cons c s =>
    rw [List.head?_cons] at hmeet
    have hall : met.takeWhile (!P.stopsAt ·) = met :=
      List.takeWhile_eq_self_iff.2 fun y hy => by rw [hoffers.stopsAt y hy]; rfl
    rw [run]
    dsimp only
    rw [hmeet, hnone, hall, hfront]
    by_cases hc : m c = true
    · have hread := (hoffers.reads c).2 hc
      rw [if_pos hc, if_neg (by simp [hread]), if_neg (by simp)]
    · have hread : met.filterMap (P.afterChar c) = [] := by
        rw [← hoffers.reads c] at hc
        exact Decidable.not_not.1 hc
      rw [hread, if_neg hc]
      rfl

/-- At the start of a text a program goes behind its first instruction. -/
theorem meet_start (hcheck : P.code[0]? = some (.check .textStart 1)) {first : Fin P.size}
    (hfirst : (first : Nat) = 1) (after : Option Char) :
    ∃ start : Fin P.size, (start : Nat) = 0 ∧ P.code.get start = .check .textStart first ∧
      ∀ met marks, Walks (P.targets none after) (mark (Vector.replicate P.size false) start) first met
        marks → P.meet [] none none after = start :: met := by
  obtain ⟨start, hstart, hget⟩ := exists_get hcheck
  rw [← hfirst] at hget
  refine ⟨start, hstart, hget, fun met marks hwalk => ?_⟩
  have hpath : Walks (P.targets none after) _ start (start :: met) marks :=
    .one (get_unmarked start) (targets_check hget) hwalk
  have hroots : (P.index? 0).toList = [start] := by
    rw [← hstart, index?_val]
    rfl
  have hnil := hpath []
  rw [walk_nil, List.append_nil] at hnil
  exact (congrArg (fun roots => preorder (P.targets none after) roots) hroots).trans hnil

/-- How much of a text is a character of `m₀` and as many of `m` behind it as there are. -/
def runLength (m₀ m : Char → Bool) : List Char → Option Nat
  | [] => none
  | c :: s => if m₀ c then some (1 + (s.takeWhile m).length) else none

/-- The program asks for the start of the text first, then for a character of `m₀`, and goes on in
rounds. -/
theorem firstEnd_of_rounds {p : Pattern} {m₀ : Char → Bool} (hp : p.OneOf m₀) {next : Fin P.size}
    (hcheck : P.code[0]? = some (.check .textStart 1)) (hcode : P.Holds 1 (p.code 1 next))
    (hQ : ∀ x, Q x → P.Rounds m Q x) (hnext : ∀ x, P.LeadsTo next x → Q x) (s : List Char) :
    P.firstEnd s = runLength m₀ m s := by
  obtain ⟨first, hfirst⟩ := hcode.exists_index hp.code_ne_nil
  obtain ⟨start, hstart, hget, hmeet⟩ := meet_start hcheck hfirst s.head?
  have hfresh : P.Fresh (mark (Vector.replicate P.size false) start) 1 p.size := by
    intro y hy hy' hmark
    rw [get_mark_of_ne (by omega), get_unmarked] at hmark
    cases hmark
  obtain ⟨met, marks, hwalk, hoffers, -⟩ := hp.walks hcode hfirst hfresh none s.head?
  have hoffers' := (hoffers.mono hnext).cons hget (by simp) (by simp)
  rw [firstEnd, run_of_offers (isFront_of_get hstart hget) hoffers' (hmeet met marks hwalk)]
  cases s with
  | nil => rfl
  | cons c s =>
    by_cases hc : m₀ c = true
    · have hread := (hoffers'.reads c).2 hc
      dsimp only
      rw [runLength, if_pos hc, if_pos hc, run_rounds hQ hread (hoffers'.leads c), Nat.zero_add]
    · dsimp only
      rw [runLength, if_neg hc, if_neg hc]

/-- A character of `m₀` at the start of the text, and as many of `m` behind it as there are. -/
theorem firstEnd_star {p q : Pattern} {m₀ m : Char → Bool} (hp : p.OneOf m₀) (hq : q.OneOf m)
    (s : List Char) : (ofPattern (.front (.seq p (.star q)))).firstEnd s = runLength m₀ m s := by
  have hcode := holds_ofPattern (.front (.seq p (.star q)))
  generalize ofPattern (.front (.seq p (.star q))) = P at hcode
  simp only [Pattern.front, Pattern.star, Pattern.code, Pattern.size, Pattern.roundFork,
    List.append_assoc, List.cons_append, List.nil_append, holds_cons, holds_append,
    Pattern.length_code, Bool.false_eq_true, if_false] at hcode
  obtain ⟨hcheck, hcodep, hfork, hcodeq, hagain, hstop, -⟩ := hcode
  obtain ⟨fork, hforkval, hfork⟩ := exists_get hfork
  obtain ⟨again, hagainval, hagain⟩ := exists_get hagain
  obtain ⟨stop, hstopval, hstop⟩ := exists_get hstop
  have hend : 1 + (p.size + (q.size + 2)) = stop := by omega
  rw [hend] at hfork hagain
  -- the first fork is met once, and then the one behind the choice
  have hfirst : P.Loop q _ again fork stop :=
    ⟨by rwa [hagainval], hfork, hstop, by omega, by omega⟩
  have hlater : P.Loop q _ again again stop :=
    ⟨by rwa [hagainval], hagain, hstop, by omega, by omega⟩
  rw [← hforkval] at hcodep
  refine firstEnd_of_rounds (Q := fun x => P.LeadsTo fork x ∨ P.LeadsTo again x) hp hcheck hcodep
    (fun x hx => ?_) (fun x hx => .inl hx) s
  rcases hx with hx | hx
  · exact hfirst.rounds hq (fun y hy => .inr hy) hx
  · exact hlater.rounds hq (fun y hy => .inr hy) hx

theorem firstEnd_plus {p : Pattern} {m : Char → Bool} (hp : p.OneOf m) (s : List Char) :
    (ofPattern (.front (.plus p))).firstEnd s = runLength m m s := by
  have hcode := holds_ofPattern (.front (.plus p))
  generalize ofPattern (.front (.plus p)) = P at hcode
  simp only [Pattern.front, Pattern.plus, Pattern.code, Pattern.size, Pattern.roundFork,
    List.append_assoc, List.cons_append, List.nil_append, holds_cons, holds_append,
    Pattern.length_code, Bool.false_eq_true, if_false] at hcode
  obtain ⟨hcheck, hcodep, hfork, hstop, -⟩ := hcode
  obtain ⟨fork, hforkval, hfork⟩ := exists_get hfork
  obtain ⟨stop, hstopval, hstop⟩ := exists_get hstop
  have hend : 1 + (p.size + 1) = stop := by omega
  rw [hend] at hfork
  rw [← hforkval] at hcodep
  have hloop : P.Loop p _ fork fork stop := ⟨hcodep, hfork, hstop, by omega, by omega⟩
  exact firstEnd_of_rounds hp hcheck hcodep (fun x hx => hloop.rounds hp (fun y hy => hy) hx)
    (fun x hx => hx) s

/-- Where a literal is read through, the program jumps to its stop. -/
theorem run_jump {x stop : Fin P.size} (hx : P.code.get x = .jump stop) (hstop : P.code.get stop = .stop)
    {before : Char} {read : Nat} {best : Option Nat} {s : List Char} :
    P.run [x] (some before) read best s = some read := by
  have hne : stop ≠ x := by
    rintro rfl
    rw [hstop] at hx
    cases hx
  have hrounds : P.Rounds (fun _ => false) (· = x) x := by
    intro before after
    refine ⟨[x], stop, _, Offers.nil.cons hx (by simp) (by simp), stopsAt_eq_true_iff.2 hstop,
      .one (get_unmarked x) (targets_jump hx) (.leaf ?_ (targets_stop hstop))⟩
    rw [get_mark_of_ne hne, get_unmarked]
  have hrun : P.run [x] (some before) read best s =
      some (read + (s.takeWhile fun _ => false).length) :=
    run_rounds (Q := (· = x)) (by rintro y rfl; exact hrounds) (by simp) (by simp)
  have hnil : s.takeWhile (fun _ => false) = [] := by cases s <;> rfl
  rwa [hnil] at hrun

/-- Behind some character, what is left of a literal is matched if it comes next. -/
theorem run_literal {start stop : Fin P.size} (hstart : (start : Nat) = 0)
    (hcheck : P.code.get start = .check .textStart next) (hstop : P.code.get stop = .stop)
    {w : List Char} {base : Nat} (hbase : 0 < base)
    (hcode : P.Holds base (Pattern.literalCode w base stop)) {x : Fin P.size} (hx : x = base)
    (before : Char) (read : Nat) (s : List Char) :
    P.run [x] (some before) read none s = if w.isPrefixOf s then some (read + w.length) else none := by
  induction w generalizing base x before read s with
  | nil =>
    have hjump := get_of_getElem? (holds_cons.1 hcode).1 hx
    rw [run_jump hjump hstop]
    simp
  | cons c w ih =>
    obtain ⟨hread, hrest⟩ := holds_cons.1 hcode
    have hget := get_of_getElem? hread hx
    obtain ⟨y, hy⟩ := hrest.exists_index (by cases w <;> simp [Pattern.literalCode])
    rw [← hy] at hget
    have hne : start ≠ x := fun h => by rw [← h] at hx; omega
    -- the start is tried again at every place, and its check fails there
    have hmeet : P.meet [x] none (some before) s.head? = [x] ++ [start] := by
      have hroots : (P.index? 0).toList = [start] := by
        rw [← hstart, index?_val]
        rfl
      have hread : Walks (P.targets (some before) s.head?) (Vector.replicate P.size false) x [x] _ :=
        .leaf (get_unmarked x) (targets_read hget)
      have hback : Walks (P.targets (some before) s.head?) (mark (Vector.replicate P.size false) x) start
          [start] _ :=
        .leaf (by rw [get_mark_of_ne hne, get_unmarked]) (targets_check_of_false hcheck rfl)
      have hwalk := hread [start]
      rw [hback [], walk_nil] at hwalk
      unfold Program.meet preorder
      dsimp only
      rw [Option.isNone_none, if_pos rfl, hroots]
      exact hwalk
    have hoffers : P.Offers (fun d => (CharClass.single c).has d || false) (· = y) ([x] ++ [start]) :=
      (Offers.read (Q := (· = y)) hget rfl).append (Offers.nil.cons hcheck (by simp) (by simp))
    rw [run_of_offers (isFront_of_get hstart hcheck) hoffers hmeet]
    cases s with
    | nil => rfl
    | cons d s =>
      have hafter : ([x] ++ [start]).filterMap (P.afterChar d) = if d = c then [y] else [] := by
        rw [List.filterMap_append, List.filterMap_cons, afterChar_single hget, List.filterMap_cons,
          afterChar_silent hcheck (by simp)]
        by_cases hd : d = c <;> simp [hd]
      dsimp only
      rw [hafter]
      by_cases hd : d = c
      · subst hd
        simp only [CharClass.has_single, decide_true, Bool.true_or, if_true]
        rw [ih (by omega) hrest hy d (read + 1)]
        simp [Nat.add_assoc, Nat.add_comm 1]
      · simp [hd, Ne.symm hd]

theorem firstEnd_literal (c : Char) (w s : List Char) :
    (ofPattern (.front (.literal (c :: w)))).firstEnd s =
      if (c :: w).isPrefixOf s then some (1 + w.length) else none := by
  have hcode := holds_ofPattern (.front (.literal (c :: w)))
  generalize ofPattern (.front (.literal (c :: w))) = P at hcode
  simp only [Pattern.front, Pattern.code, Pattern.size, Pattern.literalCode, List.cons_append,
    List.nil_append, holds_cons, holds_append, Pattern.length_literalCode] at hcode
  obtain ⟨hcheck, hread, hrest, hstop, -⟩ := hcode
  obtain ⟨first, hfirst, hread⟩ := exists_get hread
  obtain ⟨stop, hstopval, hstop⟩ := exists_get hstop
  obtain ⟨y, hy⟩ := hrest.exists_index (by cases w <;> simp [Pattern.literalCode])
  have hend : 1 + ((c :: w).length + 1) = stop := by rw [List.length_cons]; omega
  rw [hend] at hrest
  rw [← hy] at hread
  obtain ⟨start, hstart, hget, hmeet⟩ := meet_start hcheck hfirst s.head?
  have hne : first ≠ start := fun h => by rw [h] at hfirst; omega
  have hwalk := hmeet [first] _
    (.leaf (by rw [get_mark_of_ne hne, get_unmarked]) (targets_read hread))
  have hoffers : P.Offers (CharClass.single c).has (· = y) [start, first] :=
    (Offers.read (Q := (· = y)) hread rfl).cons hget (by simp) (by simp)
  rw [firstEnd, run_of_offers (isFront_of_get hstart hget) hoffers hwalk]
  cases s with
  | nil => rfl
  | cons d s =>
    have hafter : [start, first].filterMap (P.afterChar d) = if d = c then [y] else [] := by
      rw [List.filterMap_cons, afterChar_silent hget (by simp), List.filterMap_cons,
        afterChar_single hread]
      by_cases hd : d = c <;> simp [hd]
    dsimp only
    rw [hafter]
    by_cases hd : d = c
    · subst hd
      simp only [CharClass.has_single, decide_true, if_true]
      rw [run_literal hstart hget hstop (by omega) hrest hy]
      simp
    · simp [hd, Ne.symm hd]

end Program
end Predictive
