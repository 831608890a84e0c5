import Predictive.Proofs.Checking
import Predictive.Proofs.Diagnosis

/-!
# What an accepted text is read as

The tokens of a text are its characters without the blanks (`Reading.lexemes`), cut into spellings of
their kinds, and each is placed where it stands. Both passes over an accepted text leave something out,
the scanner the blanks and the machine the epsilons, and neither leaves out more: what the steps match is
a reading of the text and then the end marker, which comes last (`reading_of_check`).

What spells a kind is said without the scanner (`IsSpelling`). A text is a spelling if it is one piece as a
whole (`isSpelling_of_pieceAt`), and only then (`IsSpelling.pieceAt_eq`), so no text spells two kinds.
-/

namespace Predictive

namespace Point
variable {p q r : Point}

/-- The point comes first, in bytes and in lines and columns. -/
structure Before (p q : Point) : Prop where
  index : p.index < q.index
  place : p.line < q.line ∨ p.line = q.line ∧ p.column < q.column

theorem Before.trans (h : p.Before q) (h' : q.Before r) : p.Before r := by
  obtain ⟨hindex, hplace⟩ := h
  obtain ⟨hindex', hplace'⟩ := h'
  exact ⟨by omega, by omega⟩

theorem before_next (p : Point) (c : Char) : p.Before (p.next c) := by
  refine ⟨index_lt_index_next p c, ?_⟩
  unfold next
  split
  · exact .inl (Nat.lt_succ_self _)
  · exact .inr ⟨rfl, Nat.lt_succ_self _⟩

theorem before_advance (p : Point) {s : List Char} (hs : s ≠ []) : p.Before (p.advance s) := by
  induction s generalizing p with
  | nil => exact absurd rfl hs
  | cons c s ih =>
    rw [advance_cons]
    by_cases hnil : s = []
    · subst hnil
      exact p.before_next c
    · exact (p.before_next c).trans (ih _ hnil)

end Point

namespace Postfix
open Kind

/-! ### Spellings -/

/-- The text is a way to write a token of the kind: an operator or a parenthesis, a word with a meaning of its
own, any other word, or a number. -/
inductive IsSpelling (separators : List Char) : Kind → List Char → Prop where
  | symbol {k : Kind} {w : List Char} : k.symbol? = some (String.ofList w) → IsSpelling separators k w
  | keyword {k : Kind} {w : List Char} : k.keyword? = some (String.ofList w) → IsSpelling separators k w
  | identifier {c : Char} {w : List Char} : isUpperCase c = true → (∀ d ∈ w, inWord separators d = true) →
    (∀ k : Kind, k.keyword? ≠ some (String.ofList (c :: w))) → IsSpelling separators .identifier (c :: w)
  | number {c : Char} {w : List Char} : isDigit c = true → (∀ d ∈ w, inNumber d = true) →
    IsSpelling separators .number (c :: w)

variable {separators : List Char} {w s : List Char} {k k' : Kind} {c : Char} {p : Point}
  {ts : List (Token Kind)}

theorem wordKind_of_keyword (h : k.keyword? = some (String.ofList w)) : wordKind w = k := by
  rw [wordKind, ← lists_keywords.lookup_eq, lists_keywords.lookup k _ h]
  rfl

theorem wordKind_of_not_keyword (h : ∀ k : Kind, k.keyword? ≠ some (String.ofList w)) :
    wordKind w = identifier := by
  rw [wordKind, spelled?_eq_none_iff.2 h]
  rfl

theorem exists_cons_of_keyword (h : k.keyword? = some (String.ofList w)) :
    ∃ c v, w = c :: v ∧ isUpperCase c = true ∧ ∀ d ∈ v, isUpperCase d = true := by
  have hall : keywords.all (fun entry => entry.1.toList ≠ [] && entry.1.toList.all isUpperCase) = true := by
    decide
  have hw := List.all_eq_true.1 hall _ (lists_keywords.mem_iff.2 h)
  rw [String.toList_ofList, Bool.and_eq_true, decide_eq_true_eq, List.all_eq_true] at hw
  obtain ⟨c, v, rfl⟩ := List.exists_cons_of_ne_nil hw.1
  exact ⟨c, v, rfl, List.forall_mem_cons.1 hw.2⟩

/-- No operator is longer than the text that is one. -/
theorem operatorAt_self (h : k.symbol? = some (String.ofList w)) :
    operatorAt w = some (String.ofList w, k) := by
  refine operatorAt_eq_some ⟨lists_operators.mem_iff.2 h, by rw [String.toList_ofList]⟩ ?_
  intro op hop
  rw [← String.length_toList, String.length_ofList]
  exact hop.2.length_le

namespace IsSpelling

theorem word (hc : isUpperCase c = true) (hw : ∀ d ∈ w, inWord separators d = true) :
    IsSpelling separators (wordKind (c :: w)) (c :: w) := by
  cases hkeyword : spelled? keyword? (String.ofList (c :: w)) with
  | some k =>
    have hk := of_spelled? hkeyword
    rw [wordKind_of_keyword hk]
    exact .keyword hk
  | none =>
    have hnone := spelled?_eq_none_iff.1 hkeyword
    rw [wordKind_of_not_keyword hnone]
    exact .identifier hc hw hnone

/-- A spelling is an operator, or a word or a number by its first character. -/
theorem inv (h : IsSpelling separators k w) : k.symbol? = some (String.ofList w) ∨
    (∃ c v, w = c :: v ∧ isUpperCase c = true ∧ (∀ d ∈ v, inWord separators d = true) ∧ k = wordKind w) ∨
    ∃ c v, w = c :: v ∧ isDigit c = true ∧ (∀ d ∈ v, inNumber d = true) ∧ k = Kind.number := by
  cases h with
  | symbol h => exact .inl h
  | keyword h =>
    obtain ⟨c, v, rfl, hc, hv⟩ := exists_cons_of_keyword h
    have hword : ∀ d ∈ v, inWord separators d = true := fun d hd => by rw [inWord, hv d hd, Bool.true_or]
    exact .inr (.inl ⟨c, v, rfl, hc, hword, (wordKind_of_keyword h).symm⟩)
  | identifier hc hw h => exact .inr (.inl ⟨_, _, rfl, hc, hw, (wordKind_of_not_keyword h).symm⟩)
  | number hc hw => exact .inr (.inr ⟨_, _, rfl, hc, hw, rfl⟩)

/-- A spelling by itself is one piece. -/
theorem pieceAt_eq (h : IsSpelling separators k w) : pieceAt separators w = some (some k, w.length) := by
  rcases h.inv with h | ⟨c, v, rfl, hc, hv, rfl⟩ | ⟨c, v, rfl, hc, hv, rfl⟩
  · have hop := lists_operators.mem_iff.2 h
    cases w with
    | nil => exact absurd (String.toList_ofList ▸ rfl) (toList_ne_nil_of_mem_operators hop)
    | cons c w =>
      obtain ⟨hupper, hdigit, hblank⟩ := first_of_starts ⟨hop, by rw [String.toList_ofList]⟩
      rw [pieceAt, if_neg (by simp [hupper]), if_neg (by simp [hdigit]), if_neg (by simp [hblank]),
        operatorAt_self h, Option.map_some]
      dsimp only
      rw [String.length_ofList]
  · have hwhole : v.takeWhile (fun d => isUpperCase d || separators.contains d) = v :=
      List.takeWhile_eq_self_iff.2 hv
    rw [pieceAt, if_pos hc, hwhole]
  · have hupper : ¬ isUpperCase c = true := fun h => by simp [isDigit_of_isUpperCase h] at hc
    have hwhole : v.takeWhile (fun d => isDigit d || d == '.') = v := List.takeWhile_eq_self_iff.2 hv
    rw [pieceAt, if_neg hupper, if_pos hc, hwhole, List.length_cons, Nat.add_comm]

/-- A text is a spelling of one kind only. -/
theorem unique (h : IsSpelling separators k w) (h' : IsSpelling separators k' w) : k = k' := by
  have hpiece := h.pieceAt_eq
  rw [h'.pieceAt_eq] at hpiece
  cases hpiece
  rfl

theorem isBlank_eq_false (hseparators : ∀ d ∈ separators, Text.isBlank d = false)
    (h : IsSpelling separators k w) : ∀ d ∈ w, Text.isBlank d = false := by
  rcases h.inv with h | ⟨c, v, rfl, hc, hv, -⟩ | ⟨c, v, rfl, hc, hv, -⟩
  · have hall : operators.all (·.1.toList.all (!Text.isBlank ·)) = true := by decide
    have hw := List.all_eq_true.1 (List.all_eq_true.1 hall _ (lists_operators.mem_iff.2 h))
    rw [String.toList_ofList] at hw
    exact fun d hd => by simpa using hw d hd
  · intro d hd
    rcases List.mem_cons.1 hd with rfl | hd
    · exact isBlank_of_isUpperCase hc
    · rcases Bool.or_eq_true_iff.1 (hv d hd) with hd | hd
      · exact isBlank_of_isUpperCase hd
      · exact hseparators d (by simpa using hd)
  · intro d hd
    rcases List.mem_cons.1 hd with rfl | hd
    · exact isBlank_of_isDigit hc
    · rcases Bool.or_eq_true_iff.1 (hv d hd) with hd | hd
      · exact isBlank_of_isDigit hd
      · obtain rfl := beq_iff_eq.1 hd
        decide

end IsSpelling

theorem all_of_length_takeWhile {tail : Char → Bool} (h : (w.takeWhile tail).length = w.length) :
    ∀ d ∈ w, tail d = true := by
  have heq := (List.takeWhile_prefix tail (l := w)).eq_of_length h
  exact List.takeWhile_eq_self_iff.1 heq

/-- A piece of a text is a spelling of its kind. -/
theorem isSpelling_of_pieceAt (h : pieceAt separators (w ++ s) = some (some k, w.length)) :
    IsSpelling separators k w := by
  have hw := pieceAt_of_append h (Nat.le_refl _)
  cases w with
  | nil => cases hw
  | cons c w =>
    unfold pieceAt at hw
    dsimp only at hw
    split_ifs at hw with hupper hdigit hblank
    · obtain ⟨hk, hlength⟩ := Prod.mk.inj (Option.some.inj hw)
      have hall : ∀ d ∈ w, inWord separators d = true := all_of_length_takeWhile (Nat.succ.inj hlength)
      obtain rfl := Option.some.inj hk
      have hwhole : w.takeWhile (inWord separators) = w := List.takeWhile_eq_self_iff.2 hall
      show IsSpelling separators (wordKind (c :: w.takeWhile (inWord separators))) (c :: w)
      rw [hwhole]
      exact .word hupper hall
    · obtain ⟨hk, hlength⟩ := Prod.mk.inj (Option.some.inj hw)
      obtain rfl := Option.some.inj hk
      rw [Nat.add_comm] at hlength
      exact .number hdigit (all_of_length_takeWhile (Nat.succ.inj hlength))
    · cases hw
    · obtain ⟨op, hop, heq⟩ := Option.map_eq_some_iff.1 hw
      obtain ⟨hk, hlength⟩ := Prod.mk.inj heq
      obtain rfl := Option.some.inj hk
      obtain ⟨hmem, hprefix⟩ := starts_of_operatorAt hop
      have hspelling : op.1.toList = c :: w := hprefix.eq_of_length (by rw [String.length_toList, hlength])
      refine .symbol ?_
      rw [← hspelling, String.ofList_toList]
      exact lists_operators.spelling op hmem

theorem filter_of_pieceAt (hseparators : ∀ d ∈ separators, Text.isBlank d = false)
    (h : pieceAt separators (w ++ s) = some (some k, w.length)) : w.filter (!Text.isBlank ·) = w := by
  refine List.filter_eq_self.2 fun d hd => ?_
  rw [(isSpelling_of_pieceAt h).isBlank_eq_false hseparators d hd]
  rfl

/-! ### The tokens of a text -/

namespace Scans

theorem isSpelling (h : Scans separators p s ts) : ∀ t ∈ ts, IsSpelling separators t.kind t.lexeme.toList := by
  induction h with
  | nil => simp
  | blank _ _ ih => exact ih
  | token hw _ ih =>
    refine List.forall_mem_cons.2 ⟨?_, ih⟩
    rw [String.toList_ofList]
    exact isSpelling_of_pieceAt hw

/-- The characters that are not blank are those of the tokens. -/
theorem lexemes (hseparators : ∀ d ∈ separators, Text.isBlank d = false) (h : Scans separators p s ts) :
    ts.flatMap (·.lexeme.toList) = s.filter (!Text.isBlank ·) := by
  induction h with
  | nil => rfl
  | blank hc _ ih => rw [ih, List.filter_cons_of_neg (by simp [hc])]
  | token hw _ ih =>
    rw [List.flatMap_cons, ih, List.filter_append, filter_of_pieceAt hseparators hw, String.toList_ofList]

/-- Each token is placed where it stands, with the tokens before it in front. -/
theorem places (hseparators : ∀ d ∈ separators, Text.isBlank d = false) (h : Scans separators p s ts)
    {a b : List (Token Kind)} {t : Token Kind} (hsplit : ts = a ++ t :: b) :
    ∃ before after, s = before ++ t.lexeme.toList ++ after ∧ t.position = p.advance before ∧
      before.filter (!Text.isBlank ·) = a.flatMap (·.lexeme.toList) := by
  induction h generalizing a with
  | nil => simp at hsplit
  | @blank p c s ts hc _ ih =>
    obtain ⟨before, after, rfl, hposition, hbefore⟩ := ih hsplit
    refine ⟨c :: before, after, rfl, hposition, ?_⟩
    rw [List.filter_cons_of_neg (by simp [hc]), hbefore]
  | @token p w s k ts hw hts ih =>
    rcases List.cons_eq_append_iff.1 hsplit with ⟨rfl, heq⟩ | ⟨a, rfl, hrest⟩
    · cases heq
      exact ⟨[], s, by rw [String.toList_ofList]; rfl, rfl, rfl⟩
    · obtain ⟨before, after, rfl, hposition, hbefore⟩ := ih hrest
      refine ⟨w ++ before, after, by simp, ?_, ?_⟩
      · rw [hposition, Point.advance_append]
      · rw [List.filter_append, filter_of_pieceAt hseparators hw, hbefore, List.flatMap_cons,
          String.toList_ofList]

/-- The tokens and the end of the text come one behind the other. -/
theorem increasing (h : Scans separators p s ts) :
    (ts.map (·.position) ++ [p.advance s]).Pairwise Point.Before ∧
      ∀ q ∈ ts.map (·.position) ++ [p.advance s], p = q ∨ p.Before q := by
  induction h with
  | nil p => simp
  | @blank p c s ts hc _ ih =>
    obtain ⟨hpairwise, hfrom⟩ := ih
    refine ⟨hpairwise, fun q hq => .inr ?_⟩
    rcases hfrom q hq with rfl | hbefore
    · exact p.before_next c
    · exact (p.before_next c).trans hbefore
  | @token p w s k ts hw _ ih =>
    obtain ⟨hpairwise, hfrom⟩ := ih
    have hne : w ≠ [] := List.ne_nil_of_length_pos (length_of_pieceAt hw).1
    have hbehind : ∀ q ∈ ts.map (·.position) ++ [(p.advance w).advance s], p.Before q := by
      intro q hq
      rcases hfrom q hq with rfl | hbefore
      · exact p.before_advance hne
      · exact (p.before_advance hne).trans hbefore
    rw [Point.advance_append, List.map_cons, List.cons_append]
    refine ⟨List.pairwise_cons.2 ⟨hbehind, hpairwise⟩, List.forall_mem_cons.2 ⟨.inl rfl, ?_⟩⟩
    exact fun q hq => .inr (hbehind q hq)

end Scans

end Postfix

/-! ### The steps of an accepted text -/

open Postfix Kind

/-- The tokens are what the text is read as: its characters without the blanks, each token of the one kind
that it spells and at the place where it stands. -/
structure Reading (text : List Char) (tokens : List (Lookahead Kind)) : Prop where
  lexemes : tokens.flatMap (·.lexeme.toList) = text.filter (!Text.isBlank ·)
  kind_iff : ∀ t ∈ tokens, ∀ k, IsSpelling defaultSeparators k t.lexeme.toList ↔ k = t.kind
  place : ∀ a t b, tokens = a ++ t :: b → ∃ before after, text = before ++ t.lexeme.toList ++ after ∧
    t.position = Point.start.advance before ∧
    before.filter (!Text.isBlank ·) = a.flatMap (·.lexeme.toList)
  increasing : (tokens.map (·.position) ++ [Point.start.advance text]).Pairwise Point.Before

theorem reading_of_scans {s : List Char} {ts : List (Token Kind)}
    (h : Scans defaultSeparators .start s ts) : Reading s (ts.map .ofToken) := by
  have hseparators : ∀ d ∈ defaultSeparators, Text.isBlank d = false :=
    List.forall_mem_singleton.2 (by decide)
  refine ⟨?_, ?_, ?_, ?_⟩
  · rw [List.flatMap_map]
    exact h.lexemes hseparators
  · intro t ht k
    obtain ⟨t', ht', rfl⟩ := List.mem_map.1 ht
    have hspelling := h.isSpelling t' ht'
    refine ⟨fun hk => hk.unique hspelling, ?_⟩
    rintro rfl
    exact hspelling
  · intro a t b hsplit
    obtain ⟨a, rest, rfl, rfl, hrest⟩ := List.map_eq_append_iff.1 hsplit
    obtain ⟨t, b, rfl, rfl, -⟩ := List.map_eq_cons_iff.1 hrest
    rw [List.flatMap_map]
    exact h.places hseparators rfl
  · rw [List.map_map]
    exact h.increasing.1

theorem parse_endsInMatch {tokens : List (Token Kind)} {result : ParseResult grammar}
    (h : parse tokens = some result) : EndsInMatch result.derivation := by
  have hpred := Table.predicts_of_ofGrammar ofGrammar_eq_ok
  obtain ⟨d, hd, hstop⟩ := Table.stopsFrom_iff.1 (Table.parse_eq_some_iff.1 h)
  have hends : (Config.start grammar tokens).EndsOnce := ⟨[.nonterminal grammar.start], rfl, by simp⟩
  exact hpred.last_is_matched single_follow isProductive endMarker_not_mem_right hends hpred.covers_start hd
    hstop

/-- The steps of an accepted text match the tokens that it is read as and then the end marker at its end,
with nothing behind that. -/
theorem reading_of_check {text : String} {steps : List (Step grammar)} (h : check text = .ok steps) :
    ∃ front, steps = front ++ [.matched (.atEnd (Point.start.advance text.toList))] ∧
      Reading text.toList (tokensRead front) := by
  obtain ⟨ts, hts, -, hread⟩ := scans_of_check h
  have htokens := tokenize_eq_ok_iff.2 ⟨ts, hts, rfl⟩
  rcases check_of_tokenize htokens with ⟨steps', hcheck, hparse⟩ | ⟨e, steps', hcheck, -⟩
  · rw [h] at hcheck
    obtain rfl := Except.ok.inj hcheck
    rcases parse_endsInMatch hparse with hnil | ⟨front, token, hfront⟩
    · dsimp only at hnil
      rw [hnil] at hread
      simp [tokensRead] at hread
    · dsimp only at hfront
      rw [hfront, tokensRead_append] at hread
      obtain ⟨hfrontread, hlast⟩ := List.append_inj' hread rfl
      obtain rfl : token = .atEnd (Point.start.advance text.toList) := by simpa using hlast
      refine ⟨front, hfront, ?_⟩
      rw [hfrontread]
      exact reading_of_scans hts
  · rw [h] at hcheck
    cases hcheck

/-- The tokens of `((A ANDY AND) NOT)`. -/
def negated : List (Token Kind) :=
  [⟨openParen, "(", .single ⟨1, 1, 0⟩⟩, ⟨openParen, "(", .single ⟨1, 2, 1⟩⟩,
    ⟨identifier, "A", .single ⟨1, 3, 2⟩⟩, ⟨identifier, "ANDY", ⟨⟨1, 5, 4⟩, ⟨1, 8, 7⟩⟩⟩,
    ⟨Kind.and, "AND", ⟨⟨1, 10, 9⟩, ⟨1, 12, 11⟩⟩⟩, ⟨closeParen, ")", .single ⟨1, 13, 12⟩⟩,
    ⟨Kind.not, "NOT", ⟨⟨1, 15, 14⟩, ⟨1, 17, 16⟩⟩⟩, ⟨closeParen, ")", .single ⟨1, 18, 17⟩⟩]

theorem tokenize_negated : tokenize "((A ANDY AND) NOT)" = .ok (negated ++ [.atEnd ⟨1, 19, 18⟩]) := by
  rw [tokenize_eq]
  decide +kernel

theorem isProgram_negated : IsProgram (kinds negated) := by
  have hinner : IsExpression ([identifier] ++ [identifier] ++ [Kind.and]) :=
    .binary .identifier .identifier (by decide)
  exact .line (.mk (.expression hinner.negation))

/-- `AND` and `NOT` are read as keywords and `ANDY` as an identifier, with the end marker behind them. -/
theorem reading_of_check_negated : ∃ steps front, check "((A ANDY AND) NOT)" = .ok steps ∧
    steps = front ++ [.matched (.atEnd ⟨1, 19, 18⟩)] ∧ tokensRead front = negated.map .ofToken ∧
    Reading "((A ANDY AND) NOT)".toList (negated.map .ofToken) := by
  have hts := scans_of_tokenize tokenize_negated
  obtain ⟨steps, h⟩ := exists_check_of_scans hts isProgram_negated
  obtain ⟨front, hsteps, hreading⟩ := reading_of_check h
  obtain ⟨ts', hts', -, hread⟩ := scans_of_check h
  rw [hts'.unique hts, hsteps, tokensRead_append] at hread
  have hfront : tokensRead front = negated.map .ofToken := (List.append_inj' hread rfl).1
  exact ⟨steps, front, h, hsteps, hfront, hfront ▸ hreading⟩

end Predictive
