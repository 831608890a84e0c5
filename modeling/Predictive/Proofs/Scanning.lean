import Predictive.Postfix.Lexer
import Predictive.Postfix.Scanner
import Predictive.Proofs.Matching
import Predictive.Proofs.Quoting
import Predictive.Proofs.Tiling

/-!
# The lexer of the postfix language scans by the next character

The rules are patterns that run against one another. The first character tells which of the rules for
words, numbers and blanks has a match, if one of them has (`reader_of_match`); no operator begins with
such a character. So only operators are ever compared, and they agree on the kinds of their tokens: it is
enough that the longest one is taken (`operatorAt_eq_some`). The tables of the lexer find the kind that is
written so, for operators and for words (`Lists.lookup_eq`).

The rules as they are written are read as these rules, whatever the separators are
(`ofTexts?_ruleTexts`).
-/

namespace Predictive.Postfix
open Program (runLength)

variable {separators : List Char} {c : Char} {s : List Char} {r : LexerRule Kind} {n : Nat}

/-! ### Classes of characters -/

theorem isUpperCase_iff : isUpperCase c = true ↔ 65 ≤ c.toNat ∧ c.toNat ≤ 90 := by
  rw [isUpperCase, Bool.and_eq_true, decide_eq_true_eq, decide_eq_true_eq]
  rfl

theorem isDigit_iff : isDigit c = true ↔ 48 ≤ c.toNat ∧ c.toNat ≤ 57 := by
  rw [isDigit, Bool.and_eq_true, decide_eq_true_eq, decide_eq_true_eq]
  rfl

theorem isDigit_of_isUpperCase (h : isUpperCase c = true) : isDigit c = false := by
  rw [isUpperCase_iff] at h
  rw [Bool.eq_false_iff, ne_eq, isDigit_iff]
  omega

theorem isBlank_of_isUpperCase (h : isUpperCase c = true) : Text.isBlank c = false := by
  rw [isUpperCase_iff] at h
  simp [Text.isBlank, Text.inRanges, Text.blankRanges]
  omega

theorem isBlank_of_isDigit (h : isDigit c = true) : Text.isBlank c = false := by
  rw [isDigit_iff] at h
  simp [Text.isBlank, Text.inRanges, Text.blankRanges]
  omega

theorem has_upperCase : upperCase.has = isUpperCase := by
  funext c
  rw [Bool.eq_iff_iff, isUpperCase_iff]
  simp [upperCase]

theorem has_digit : digit.has = isDigit := by
  funext c
  rw [Bool.eq_iff_iff, isDigit_iff]
  simp [digit]

/-- What words and numbers go on with. -/
def inWord (separators : List Char) (c : Char) : Bool := isUpperCase c || separators.contains c

def inNumber (c : Char) : Bool := isDigit c || c == '.'

theorem has_wordTail (separators : List Char) : (wordTail separators).has = inWord separators := by
  have hseparators (c : Char) :
      Text.inRanges (separators.map fun d => (d.toNat, d.toNat)) c.toNat = separators.contains c := by
    rw [Bool.eq_iff_iff, Text.inRanges_iff, List.contains_iff_mem]
    constructor
    · rintro ⟨r, hr, hle⟩
      obtain ⟨d, hd, rfl⟩ := List.mem_map.1 hr
      obtain rfl : d = c := Char.toNat_inj.1 (by omega)
      exact hd
    · intro hc
      exact ⟨_, List.mem_map.2 ⟨c, hc, rfl⟩, Nat.le_refl _, Nat.le_refl _⟩
  funext c
  rw [CharClass.has, wordTail, Text.inRanges_append, hseparators, ← CharClass.has, has_upperCase]
  rfl

theorem has_numberTail : numberTail.has = inNumber := by
  funext c
  rw [numberTail, CharClass.has_append, has_digit, CharClass.has_single]
  rfl

/-! ### Tables of spellings -/

/-- The table has the spellings of the kinds and no others, and each kind is found by its own. -/
structure Lists (table : List (String × Kind)) (spelling? : Kind → Option String) : Prop where
  spelling : ∀ entry ∈ table, spelling? entry.2 = some entry.1
  lookup : ∀ k s, spelling? k = some s → table.lookup s = some k

namespace Lists
variable {table : List (String × Kind)} {spelling? : Kind → Option String} {k : Kind}

theorem mem_iff (h : Lists table spelling?) {s : String} : (s, k) ∈ table ↔ spelling? k = some s := by
  refine ⟨h.spelling (s, k), fun hk => ?_⟩
  obtain ⟨before, after, hsplit, -⟩ := List.lookup_eq_some_iff.1 (h.lookup k s hk)
  exact hsplit ▸ by simp

theorem lookup_eq (h : Lists table spelling?) (s : String) : table.lookup s = Kind.spelled? spelling? s := by
  cases hs : Kind.spelled? spelling? s with
  | some k => exact h.lookup k s (Kind.of_spelled? hs)
  | none =>
    refine Option.eq_none_iff_forall_ne_some.2 fun k hk => ?_
    obtain ⟨before, after, hsplit, -⟩ := List.lookup_eq_some_iff.1 hk
    exact Kind.spelled?_eq_none_iff.1 hs k (h.spelling (s, k) (hsplit ▸ by simp))

end Lists

theorem lists_operators : Lists Kind.operators Kind.symbol? where
  spelling := by decide
  lookup k s h := by cases k <;> cases h <;> rfl

theorem lists_keywords : Lists Kind.keywords Kind.keyword? where
  spelling := by decide
  lookup k s h := by cases k <;> cases h <;> rfl

theorem ofWord_ofList (word : List Char) : Kind.ofWord (String.ofList word) = wordKind word := by
  rw [Kind.ofWord, lists_keywords.lookup_eq]
  rfl

/-! ### Matches of the rules -/

theorem matchLength_wordRule :
    (wordRule separators).matchLength = runLength isUpperCase (inWord separators) := by
  funext s
  rw [← has_upperCase, ← has_wordTail]
  exact Program.firstEnd_star (.one _) (.one _) s

theorem matchLength_numberRule : numberRule.matchLength = runLength isDigit inNumber := by
  funext s
  rw [← has_digit, ← has_numberTail]
  exact Program.firstEnd_star (.one _) (.one _) s

theorem matchLength_blankRule : blankRule.matchLength = runLength Text.isBlank Text.isBlank := by
  funext s
  exact Program.firstEnd_plus (.one _) s

theorem toList_ne_nil_of_mem_operators {op : String × Kind} (h : op ∈ Kind.operators) :
    op.1.toList ≠ [] := by
  have hall : ∀ op ∈ Kind.operators, op.1.toList ≠ [] := by decide
  exact hall op h

theorem matchLength_operatorRule {op : String × Kind} (h : op ∈ Kind.operators) :
    (operatorRule op.1).matchLength s = if op.1.toList.isPrefixOf s then some op.1.length else none := by
  obtain ⟨c, w, hw⟩ := List.exists_cons_of_ne_nil (toList_ne_nil_of_mem_operators h)
  rw [← String.length_toList, hw, List.length_cons, Nat.add_comm]
  exact hw ▸ Program.firstEnd_literal c w s

theorem mem_rules : r ∈ (lexer separators).rules ↔
    (∃ op ∈ Kind.operators, operatorRule op.1 = r) ∨ r = wordRule separators ∨ r = numberRule ∨
      r = blankRule := by
  simp [lexer, -Prod.exists]

/-! ### Operators -/

/-- The operator is at the front of the text. -/
def Starts (s : List Char) (op : String × Kind) : Prop := op ∈ Kind.operators ∧ op.1.toList <+: s

theorem first_of_starts {op : String × Kind} (h : Starts (c :: s) op) :
    isUpperCase c = false ∧ isDigit c = false ∧ Text.isBlank c = false := by
  have hall : ∀ op ∈ Kind.operators, op.1.toList.head?.map
      (fun d => (isUpperCase d, isDigit d, Text.isBlank d)) = some (false, false, false) := by decide
  obtain ⟨hop, t, ht⟩ := h
  obtain ⟨d, w, hw⟩ := List.exists_cons_of_ne_nil (toList_ne_nil_of_mem_operators hop)
  rw [hw, List.cons_append] at ht
  obtain ⟨rfl, -⟩ := List.cons.inj ht
  have hfirst := hall op hop
  rw [hw, List.head?_cons, Option.map_some, Option.some.injEq, Prod.mk.injEq, Prod.mk.injEq] at hfirst
  exact hfirst

theorem ofOperator?_eq_some {op : String × Kind} (h : op ∈ Kind.operators) :
    Kind.ofOperator? op.1 = some op.2 :=
  lists_operators.lookup op.2 op.1 (lists_operators.spelling op h)

theorem mem_operators_of_withKind {spelling : String} {op : String × Kind}
    (h : operatorAt.withKind spelling = some op) : op ∈ Kind.operators ∧ op.1 = spelling := by
  obtain ⟨k, hk, rfl⟩ := Option.map_eq_some_iff.1 h
  exact ⟨lists_operators.mem_iff.2 (Kind.of_spelled? hk), rfl⟩

theorem withKind_of_mem {op : String × Kind} (h : op ∈ Kind.operators) :
    operatorAt.withKind op.1 = some op := by
  have hkind := ofOperator?_eq_some h
  rw [Kind.ofOperator?, lists_operators.lookup_eq] at hkind
  rw [operatorAt.withKind, hkind]
  rfl

theorem starts_of_operatorAt {op : String × Kind} (h : operatorAt s = some op) : Starts s op := by
  have hkind {w : List Char} (hw : w <+: s) (h : operatorAt.withKind (String.ofList w) = some op) :
      Starts s op := by
    obtain ⟨hop, hspelling⟩ := mem_operators_of_withKind h
    exact ⟨hop, by rwa [hspelling, String.toList_ofList]⟩
  match s, h with
  | [c], h => exact hkind List.prefix_rfl h
  | c :: d :: t, h =>
    rcases Option.or_eq_some_iff.1 h with h | ⟨-, h⟩
    · exact hkind ⟨t, rfl⟩ h
    · exact hkind ⟨d :: t, rfl⟩ h

theorem operatorAt_eq_some {op : String × Kind} (h : Starts s op)
    (hlongest : ∀ op', Starts s op' → op'.1.length ≤ op.1.length) : operatorAt s = some op := by
  have hlengths : ∀ op ∈ Kind.operators, op.1.toList.length = 1 ∨ op.1.toList.length = 2 := by decide
  obtain ⟨hop, t, rfl⟩ := h
  have hfound := withKind_of_mem hop
  rw [← String.ofList_toList (s := op.1)] at hfound
  rw [← String.length_toList] at hlongest
  rcases hlengths op hop with hlength | hlength
  · obtain ⟨c, hc⟩ := List.length_eq_one_iff.1 hlength
    rw [hc] at hfound hlongest ⊢
    cases t with
    | nil => exact hfound
    | cons d t =>
      cases hpair : operatorAt.withKind (String.ofList [c, d]) with
      | none => rw [List.singleton_append, operatorAt, hpair, hfound]; rfl
      | some op' =>
        -- an operator of two characters would be longer
        obtain ⟨hop', hspelling⟩ := mem_operators_of_withKind hpair
        have hle := hlongest op' ⟨hop', t, by rw [hspelling, String.toList_ofList]; rfl⟩
        rw [hspelling, String.length_ofList] at hle
        exact absurd hle (by simp)
  · obtain ⟨c, d, hcd⟩ := List.length_eq_two.1 hlength
    rw [hcd] at hfound ⊢
    rw [List.cons_append, List.singleton_append, operatorAt, hfound]
    rfl

/-! ### The rule that reads the next piece -/

/-- Which rules may have a match, by the first character. -/
theorem reader_of_match (hr : r ∈ (lexer separators).rules) (hn : r.matchLength (c :: s) = some n) :
    (isUpperCase c = true ∧ r = wordRule separators) ∨
      (isUpperCase c = false ∧ isDigit c = true ∧ r = numberRule) ∨
      (isUpperCase c = false ∧ isDigit c = false ∧ Text.isBlank c = true ∧ r = blankRule) ∨
      (isUpperCase c = false ∧ isDigit c = false ∧ Text.isBlank c = false ∧
        ∃ op, Starts (c :: s) op ∧ r = operatorRule op.1 ∧ n = op.1.length) := by
  have hrun {m₀ m : Char → Bool} (h : runLength m₀ m (c :: s) = some n) : m₀ c = true := by
    by_contra hc
    rw [runLength, if_neg hc] at h
    cases h
  have hdisjoint {m m' : Char → Bool} (hm : m c = true) (h : m' c = true → m c = false) :
      m' c = false := by
    refine Bool.eq_false_iff.2 fun hm' => ?_
    rw [h hm'] at hm
    cases hm
  rcases mem_rules.1 hr with ⟨op, hop, rfl⟩ | rfl | rfl | rfl
  · rw [matchLength_operatorRule hop] at hn
    obtain ⟨hstarts, hn⟩ := Option.ite_none_right_eq_some.1 hn
    have hstarts : Starts (c :: s) op := ⟨hop, List.isPrefixOf_iff_prefix.1 hstarts⟩
    obtain ⟨hupper, hdigit, hblank⟩ := first_of_starts hstarts
    exact .inr (.inr (.inr ⟨hupper, hdigit, hblank, op, hstarts, rfl, (Option.some.inj hn).symm⟩))
  · rw [matchLength_wordRule] at hn
    exact .inl ⟨hrun hn, rfl⟩
  · rw [matchLength_numberRule] at hn
    have hdigit := hrun hn
    exact .inr (.inl ⟨hdisjoint hdigit isDigit_of_isUpperCase, hdigit, rfl⟩)
  · rw [matchLength_blankRule] at hn
    have hblank := hrun hn
    exact .inr (.inr (.inl ⟨hdisjoint hblank isBlank_of_isUpperCase,
      hdisjoint hblank isBlank_of_isDigit, hblank, rfl⟩))

/-- The kind of the next piece and its length. -/
def selected (separators : List Char) (s : List Char) : Option (Option Kind × Nat) :=
  (LexerRule.select (lexer separators).rules s).map fun found =>
    (found.1.kind (String.ofList (s.take found.2)), found.2)

theorem selected_of_run {m₀ m : Char → Bool} (hr : r ∈ (lexer separators).rules)
    (hrun : r.matchLength = runLength m₀ m) (hc : m₀ c = true)
    (honly : ∀ r' ∈ (lexer separators).rules, ∀ n, r'.matchLength (c :: s) = some n → r' = r) :
    selected separators (c :: s) =
      some (r.kind (String.ofList (c :: s.takeWhile m)), 1 + (s.takeWhile m).length) := by
  have hmatch : r.matchLength (c :: s) = some (1 + (s.takeWhile m).length) := by
    rw [hrun, runLength, if_pos hc]
  have hpiece : (c :: s).take (1 + (s.takeWhile m).length) = c :: s.takeWhile m := by
    rw [Nat.add_comm, List.take_succ_cons]
    exact congrArg (c :: ·) (List.prefix_iff_eq_take.1 (List.takeWhile_prefix m)).symm
  rw [selected, LexerRule.select_eq_of_only hr hmatch (by omega) honly, Option.map_some, hpiece]

theorem selected_of_operators (hupper : isUpperCase c = false) (hdigit : isDigit c = false)
    (hblank : Text.isBlank c = false) : selected separators (c :: s) =
      (operatorAt (c :: s)).map fun (spelling, kind) => (some kind, spelling.length) := by
  have hreader {r : LexerRule Kind} {n : Nat} (hr : r ∈ (lexer separators).rules)
      (hn : r.matchLength (c :: s) = some n) :
      ∃ op, Starts (c :: s) op ∧ r = operatorRule op.1 ∧ n = op.1.length := by
    rcases reader_of_match hr hn with h | h | h | h
    · simp [hupper] at h
    · simp [hdigit] at h
    · simp [hblank] at h
    · exact h.2.2.2
  have hmatch {op : String × Kind} (hop : Starts (c :: s) op) :
      (operatorRule op.1).matchLength (c :: s) = some op.1.length := by
    rw [matchLength_operatorRule hop.1, if_pos (List.isPrefixOf_iff_prefix.2 hop.2)]
  have hmem {op : String × Kind} (hop : Starts (c :: s) op) :
      operatorRule op.1 ∈ (lexer separators).rules := mem_rules.2 (.inl ⟨op, hop.1, rfl⟩)
  unfold selected
  cases hselect : LexerRule.select (lexer separators).rules (c :: s) with
  | none =>
    cases hop : operatorAt (c :: s) with
    | none => rfl
    | some op =>
      have hop := starts_of_operatorAt hop
      have hpos : 0 < op.1.length := by
        rw [← String.length_toList]
        exact List.length_pos_iff.2 (toList_ne_nil_of_mem_operators hop.1)
      obtain ⟨r, m, hsome⟩ := LexerRule.exists_select (hmem hop) (hmatch hop) hpos
      rw [hselect] at hsome
      cases hsome
  | some found =>
    obtain ⟨r, n⟩ := found
    obtain ⟨hr, hn, -⟩ := LexerRule.select_spec hselect
    obtain ⟨op, hop, rfl, rfl⟩ := hreader hr hn
    -- the selected rule has the longest match, so no other operator is longer
    have hlongest : ∀ op', Starts (c :: s) op' → op'.1.length ≤ op.1.length := fun op' hop' =>
      LexerRule.le_of_select hselect (hmem hop') (hmatch hop')
    have hpiece : (c :: s).take op.1.length = op.1.toList := by
      rw [← String.length_toList]
      exact (List.prefix_iff_eq_take.1 hop.2).symm
    rw [operatorAt_eq_some hop hlongest, Option.map_some, Option.map_some, hpiece, String.ofList_toList]
    exact congrArg (fun kind => some (kind, op.1.length)) (ofOperator?_eq_some hop.1)

theorem selected_eq_pieceAt (separators s : List Char) :
    selected separators s = pieceAt separators s := by
  cases s with
  | nil => rw [selected, LexerRule.select_nil]; rfl
  | cons c s =>
    unfold pieceAt
    dsimp only
    cases hupper : isUpperCase c with
    | true =>
      rw [selected_of_run (mem_rules.2 (.inr (.inl rfl))) matchLength_wordRule hupper]
      · rw [if_pos rfl, List.length_cons, Nat.add_comm]
        exact congrArg (fun kind => some (some kind, _)) (ofWord_ofList _)
      · intro r' hr' n hn
        have hreader := reader_of_match hr' hn
        simp only [hupper, true_and, Bool.true_eq_false, false_and, or_false] at hreader
        exact hreader
    | false =>
      cases hdigit : isDigit c with
      | true =>
        rw [selected_of_run (mem_rules.2 (.inr (.inr (.inl rfl)))) matchLength_numberRule hdigit]
        · rfl
        · intro r' hr' n hn
          have hreader := reader_of_match hr' hn
          simpa [hupper, hdigit] using hreader
      | false =>
        cases hblank : Text.isBlank c with
        | true =>
          rw [selected_of_run (mem_rules.2 (.inr (.inr (.inr rfl)))) matchLength_blankRule hblank]
          · rfl
          · intro r' hr' n hn
            have hreader := reader_of_match hr' hn
            simpa [hupper, hdigit, hblank] using hreader
        | false => exact selected_of_operators hupper hdigit hblank

/-! ### Whole texts -/

theorem scanFrom_eq_tile (separators : List Char) (p : Point) (s : List Char) :
    scanFrom separators p s = match (lexer separators).tile s with
      | (pieces, []) => .ok (Lexer.locate p pieces ++ [.atEnd (p.advance (pieces.map (·.2)).flatten)])
      | (pieces, c :: _) => .error ⟨c, p.advance (pieces.map (·.2)).flatten⟩ := by
  fun_induction Lexer.tile (lexer separators) s generalizing p with
  | case1 s hnone =>
    have hpiece := selected_eq_pieceAt separators s
    rw [selected, hnone, Option.map_none] at hpiece
    cases s with
    | nil => rw [scanFrom]; rfl
    | cons c s => rw [scanFrom, ← hpiece]; rfl
  | case2 s r n hsome _ pieces rest heq ih =>
    have hpiece := selected_eq_pieceAt separators s
    rw [selected, hsome, Option.map_some] at hpiece
    have hle := LexerRule.select_le hsome
    -- the piece is not empty, so it begins with the character that the scanner looks at
    obtain ⟨m, rfl⟩ := Nat.exists_eq_add_of_lt (LexerRule.select_pos hsome)
    cases s with
    | nil => simp at hle
    | cons c t =>
      rw [Nat.zero_add, List.take_succ_cons] at hpiece
      rw [Nat.zero_add, List.drop_succ_cons] at ih heq
      rw [scanFrom, ← hpiece]
      cases rest with
      | nil =>
        simp only [Nat.zero_add, Nat.add_sub_cancel, List.take_succ_cons, ih, heq, List.map_cons,
          List.flatten_cons, Point.advance_append, Lexer.locate]
        cases r.kind (String.ofList (c :: t.take m)) <;> rfl
      | cons d rest =>
        simp only [Nat.zero_add, Nat.add_sub_cancel, List.take_succ_cons, ih, heq, List.map_cons,
          List.flatten_cons, Point.advance_append]

theorem tokenize_lexer (separators : List Char) (text : String) :
    (lexer separators).tokenize text = scan separators text := by
  rw [scan, scanFrom_eq_tile, Lexer.tokenize, Lexer.scan]
  rcases (lexer separators).tile text.toList with ⟨pieces, - | ⟨c, rest⟩⟩ <;> rfl

/-! ### The written rules -/

section
variable {T : Type} {kind : String → Option T} {p q : Pattern} {text : String}

theorem ofPattern_congr (h : (Program.ofPattern p).firstEnd = (Program.ofPattern q).firstEnd) :
    LexerRule.ofPattern p kind = LexerRule.ofPattern q kind := by
  simp only [LexerRule.ofPattern, h]

theorem ofTexts?_append {rules rules' : List (String × (String → Option T))} {l l' : Lexer T}
    (h : Lexer.ofTexts? rules = some l) (h' : Lexer.ofTexts? rules' = some l') :
    Lexer.ofTexts? (rules ++ rules') = some ⟨l.rules ++ l'.rules⟩ := by
  obtain ⟨rs, hrs, rfl⟩ := Option.map_eq_some_iff.1 h
  obtain ⟨rs', hrs', rfl⟩ := Option.map_eq_some_iff.1 h'
  rw [Lexer.ofTexts?, List.mapM_append, hrs, hrs']
  rfl

theorem ofTexts?_singleton (h : Pattern.ofContent? text = some p) :
    Lexer.ofTexts? [(text, kind)] = some ⟨[LexerRule.ofPattern p kind]⟩ := by
  rw [Lexer.ofTexts?, List.mapM_cons, h]
  rfl

theorem ofTexts?_operators {ops : List (String × Kind)} (hops : ∀ op ∈ ops, op.1.toList ≠ []) :
    Lexer.ofTexts? (ops.map fun op => (Pattern.quote op.1, Kind.ofOperator?)) =
      some ⟨ops.map (operatorRule ·.1)⟩ := by
  induction ops with
  | nil => rfl
  | cons op ops ih =>
    have hop := Pattern.ofContent?_quote (hops op (List.mem_cons_self ..))
    exact ofTexts?_append (ofTexts?_singleton hop) (ih fun op' h => hops op' (List.mem_cons_of_mem _ h))

theorem oneOf_ofBranches {m : Char → Bool} (hp : p.OneOf m) (s : List Char) :
    (Pattern.ofBranches p (s.map fun c => .literal [c])).OneOf fun c => m c || s.contains c := by
  induction s generalizing p m with
  | nil => simpa [Pattern.ofBranches] using hp
  | cons c s ih =>
    have hmembers : (fun d => m d || (c :: s).contains d) =
        fun d => m d || ((CharClass.single c).has d || s.contains d) := by
      funext d
      rw [List.contains_cons, CharClass.has_single]
      rfl
    rw [hmembers]
    exact .alt hp (ih (.literal c))

end

/-- The rules as they are written are read as the rules of the lexer. -/
theorem ofTexts?_ruleTexts (separators : List Char) :
    Lexer.ofTexts? (ruleTexts separators) = some (lexer separators) := by
  have hword : LexerRule.ofPattern
      (.front (.seq (.one upperCase) (.star (Pattern.wordChoice separators)))) (some <| Kind.ofWord ·) =
        wordRule separators := by
    refine ofPattern_congr (funext fun s => ?_)
    have hchoice : (Pattern.wordChoice separators).OneOf (inWord separators) := by
      have hbranches := oneOf_ofBranches (.one upperCase) separators
      rwa [has_upperCase] at hbranches
    rw [Program.firstEnd_star (.one _) hchoice, has_upperCase]
    exact (congrFun matchLength_wordRule s).symm
  have hnumber : LexerRule.ofPattern
      (.front (.seq (.one digit) (.star (.one ⟨[(46, 46), (48, 57)]⟩)))) (fun _ => some .number) =
        numberRule := by
    refine ofPattern_congr (funext fun s => ?_)
    have hhas : (CharClass.mk [(46, 46), (48, 57)]).has = numberTail.has := by
      funext c
      simp [numberTail, digit, CharClass.has, Text.inRanges, CharClass.append, CharClass.single,
        CharClass.range, Bool.or_comm]
    rw [Program.firstEnd_star (.one _) (.one _), Program.firstEnd_star (.one _) (.one _), hhas]
  have hwords : Lexer.ofTexts? [(wordText separators, (some <| Kind.ofWord ·))] =
      some ⟨[wordRule separators]⟩ := by
    rw [← hword]
    exact ofTexts?_singleton (Pattern.ofContent?_wordText separators)
  have hnumbers : Lexer.ofTexts? [("[0-9][0-9.]*", fun _ => some Kind.number)] =
      some ⟨[numberRule]⟩ := by
    rw [← hnumber]
    exact ofTexts?_singleton (by decide)
  have hblanks : Lexer.ofTexts? [("\x5cs+", fun _ => none)] = some ⟨[blankRule]⟩ :=
    ofTexts?_singleton (by decide)
  have hoperators := ofTexts?_operators fun op hop => toList_ne_nil_of_mem_operators hop
  exact ofTexts?_append hoperators (ofTexts?_append hwords (ofTexts?_append hnumbers hblanks))

/-- The written rules can be read, and the lexer that they make reads every text as the scanner does. -/
theorem tokenize_eq_scan (separators : List Char) :
    Lexer.ofTexts? (ruleTexts separators) = some (lexer separators) ∧
      ∀ text, (lexer separators).tokenize text = scan separators text :=
  ⟨ofTexts?_ruleTexts separators, tokenize_lexer separators⟩

/-- A word is a keyword only as a whole: `AND` goes on in `ANDY` and in `AND_`. -/
theorem tokenize_eq_scan_words : (lexer ['_']).tokenize "AND ANDY\nAND_ NOT" = .ok [
    ⟨.and, "AND", ⟨⟨1, 1, 0⟩, ⟨1, 3, 2⟩⟩⟩, ⟨.identifier, "ANDY", ⟨⟨1, 5, 4⟩, ⟨1, 8, 7⟩⟩⟩,
    ⟨.identifier, "AND_", ⟨⟨2, 1, 9⟩, ⟨2, 4, 12⟩⟩⟩, ⟨.not, "NOT", ⟨⟨2, 6, 14⟩, ⟨2, 8, 16⟩⟩⟩,
    .atEnd ⟨2, 9, 17⟩] := by
  rw [(tokenize_eq_scan ['_']).2]
  decide +kernel

end Predictive.Postfix
