import TableImport.Proofs.Expr.Covering
import TableImport.Proofs.Expr.Writing

/-! Expressions are written with the fewest parentheses: no list of tokens with fewer of them is
parsed to the same tree. -/
namespace TableImport.Expr

/-- The parentheses around an expression where only phrases of the level or tighter may stand: one
pair or none. -/
def groupsAt (level : Nat) (e : Expr) : Nat := if e.precedence < level then 1 else 0

mutual

/-- The opening parentheses that an expression needs: one for each call, and one for each operand
that binds too loosely for its place. -/
def parens : Expr → Nat
  | number _ | var _ => 0
  | negate e => groupsAt 4 e + parens e
  | binary op l r =>
    groupsAt op.precedence l + parens l + (groupsAt (op.precedence + 1) r + parens r)
  | compare _ l r => groupsAt 2 l + parens l + (groupsAt 2 r + parens r)
  | call _ args => parensOfAll args + 1

def parensOfAll : List Expr → Nat
  | [] => 0
  | e :: es => parens e + parensOfAll es

end

theorem parensOfAll_eq (es : List Expr) : parensOfAll es = (es.map parens).sum := by
  induction es with
  | nil => rfl
  | cons e es ih => rw [parensOfAll, ih, List.map_cons, List.sum_cons]

section
variable {e : Expr} {level : Nat}

theorem groupsAt_le_one : groupsAt level e ≤ 1 := by
  unfold groupsAt
  split <;> decide

theorem groupsAt_eq_zero (h : level ≤ e.precedence) : groupsAt level e = 0 :=
  if_neg (Nat.not_lt.mpr h)

theorem four_le_precedence_number (x : Float) : 4 ≤ (number x).precedence := by
  rw [precedence]
  split <;> decide

end

/-! ### What a tree needs -/

def TokenKind.isOpenParen : TokenKind → Bool
  | openParen => true
  | _ => false

/-- The opening parentheses in a list of tokens. -/
def countOpen (ks : List TokenKind) : Nat := ks.countP TokenKind.isOpenParen

@[simp] theorem countOpen_append (ks ls : List TokenKind) :
    countOpen (ks ++ ls) = countOpen ks + countOpen ls := List.countP_append

@[simp] theorem countOpen_cons (k : TokenKind) (ks : List TokenKind) :
    countOpen (k :: ks) = countOpen ks + if k.isOpenParen then 1 else 0 := List.countP_cons

@[simp] theorem countOpen_nil : countOpen [] = 0 := rfl

theorem countOpen_intercalate (tss : List (List TokenKind)) :
    countOpen ([.comma].intercalate tss) = (tss.map countOpen).sum := by
  induction tss with
  | nil => rfl
  | cons ts tss ih =>
    cases tss with
    | nil => simp
    | cons us tss =>
      rw [List.intercalate_cons_of_ne_nil (List.cons_ne_nil us tss), countOpen_append,
        countOpen_append, ih, List.map_cons, List.sum_cons]
      rfl

theorem sum_parens_le {args : List (List TokenKind × Expr)}
    (h : ∀ a ∈ args, a.2.parens ≤ countOpen a.1) :
    parensOfAll (args.map Prod.snd) ≤ countOpen ([.comma].intercalate (args.map Prod.fst)) := by
  rw [parensOfAll_eq, countOpen_intercalate, List.map_map, List.map_map]
  exact List.sum_le_sum h

theorem parens_binary_le {op : BinaryOp} {l r : Expr} {ls rs : List TokenKind}
    (hl : groupsAt op.precedence l + l.parens ≤ countOpen ls)
    (hr : groupsAt (op.precedence + 1) r + r.parens ≤ countOpen rs) :
    (binary op l r).parens ≤ countOpen (ls ++ .operator op :: rs) := by
  rw [parens]
  simpa [TokenKind.isOpenParen] using Nat.add_le_add hl hr

/-- A phrase has the parentheses that its tree needs, and one more if the tree binds too loosely
to stand there without. What is as tight as a negation needs none anywhere. -/
theorem Derives.parens_le {c : Category} {ks : List TokenKind} {e : Expr} (h : Derives c ks e)
    {level : Nat} (hlevel : level ≤ min c.level 4) :
    groupsAt level e + e.parens ≤ countOpen ks := by
  induction h generalizing level with
  | sumAlone _ ih | productAlone _ ih | unaryAlone _ ih | primaryAlone _ ih =>
    exact ih (Nat.le_trans hlevel (by decide))
  | @comparison ls rs l r op _ _ ihl ihr =>
    have hl : groupsAt 2 l + l.parens ≤ countOpen ls := ihl (by decide)
    have hr : groupsAt 2 r + r.parens ≤ countOpen rs := ihr (by decide)
    rw [groupsAt_eq_zero (e := .compare op l r) hlevel, parens]
    simpa [TokenKind.isOpenParen] using Nat.add_le_add hl hr
  | @addition ls rs l r op hop _ _ ihl ihr | @multiplication ls rs l r op hop _ _ ihl ihr =>
    have htight : level ≤ (Expr.binary op l r).precedence := by
      rcases hop with rfl | rfl <;> exact hlevel
    rw [groupsAt_eq_zero htight, Nat.zero_add]
    rcases hop with rfl | rfl
    all_goals exact parens_binary_le (ihl (by decide)) (ihr (by decide))
  | @negation ts e _ ih =>
    have hoperand : groupsAt 4 e + e.parens ≤ countOpen ts := ih (by decide)
    rw [groupsAt_eq_zero hlevel, parens]
    simpa [TokenKind.isOpenParen] using hoperand
  | number x =>
    rw [groupsAt_eq_zero (Nat.le_trans hlevel (four_le_precedence_number x))]
    exact Nat.zero_le _
  | identifier path =>
    have htight : level ≤ (var path).precedence := Nat.le_trans hlevel (by decide : 4 ≤ 5)
    rw [groupsAt_eq_zero htight]
    exact Nat.zero_le _
  | @call name f args _ _ _ ih =>
    have htight : level ≤ (Expr.call f.name (args.map Prod.snd)).precedence :=
      Nat.le_trans hlevel (by decide : 4 ≤ 5)
    have hargs : ∀ a ∈ args, a.2.parens ≤ countOpen a.1 := by
      intro a ha
      exact Nat.le_trans (Nat.le_add_left _ _) (ih a ha (Nat.zero_le _))
    rw [groupsAt_eq_zero htight, parens]
    simpa [TokenKind.isOpenParen] using sum_parens_le hargs
  | @group ts e _ ih =>
    have hinner := ih (Nat.zero_le _)
    have houter : groupsAt level e ≤ 1 := groupsAt_le_one
    simp [TokenKind.isOpenParen]
    omega

/-! ### What is written -/

theorem count_enclose (loose : Bool) (cs : List Char) :
    (enclose loose cs).count '(' = (if loose then 1 else 0) + cs.count '(' := by
  cases loose with
  | true => simp [enclose, Nat.add_comm]
  | false => simp [enclose]

theorem count_openParen_of_isName {word : List Char} (h : IsName word) : word.count '(' = 0 := by
  obtain ⟨c, more, rfl, hc, hmore⟩ := h
  have hparen : isNameChar '(' = false := by decide
  rw [List.count_eq_zero, List.mem_cons, not_or]
  refine ⟨?_, fun hmem => ?_⟩
  · rintro rfl
    exact absurd hc (by decide)
  · cases hparen.symm.trans (hmore _ hmem)

theorem IsPath.isName {s : String} (h : IsPath s) : IsName s.toList := by
  obtain ⟨c, cs, hchars, hc, hcs⟩ := h
  exact ⟨c, cs, hchars, isNameStart_of_letter hc, fun d hd => isNameChar_of_letter (hcs d hd)⟩

theorem count_openParen_of_isDecimal {n : Numeral} (h : n.IsDecimal) :
    n.plainChars.count '(' = 0 := by
  rw [List.count_eq_zero]
  intro hmem
  rcases isDigit_or_point_of_mem_plainChars h hmem with hdigit | hpoint
  · exact absurd hdigit (by decide)
  · exact absurd hpoint (by decide)

theorem count_plain_chars {x : Float} (hfinite : x.isFinite = true)
    (hsign : Binary64.isNegative x = false) : (Layout.plain.chars x).count '(' = 0 := by
  obtain ⟨n, hplain, hchars, -⟩ := Layout.plain_chars hfinite hsign
  rw [hchars]
  exact count_openParen_of_isDecimal hplain.isDecimal

theorem count_argumentChars {args : List Expr} (h : ∀ a ∈ args, a.chars.count '(' = a.parens) :
    (argumentChars args).count '(' = parensOfAll args := by
  induction args with
  | nil => rfl
  | cons e es ih =>
    rw [List.forall_mem_cons] at h
    cases es with
    | nil => simpa [argumentChars, parensOfAll] using h.1
    | cons e' es =>
      rw [argumentChars, List.count_append, h.1, List.count_cons_of_ne (by decide),
        List.count_cons_of_ne (by decide), ih h.2]
      · rfl
      · simp

/-- An expression is written with the parentheses that it needs and no others. -/
theorem Legible.count_chars {e : Expr} (h : Legible e) : e.chars.count '(' = e.parens := by
  induction h with
  | @number x hfinite =>
    rw [chars, parens]
    cases hsign : Binary64.isNegative x with
    | true =>
      have hopposite : Binary64.isNegative (-x) = false := by
        rw [Binary64.isNegative_neg hfinite, hsign]
        rfl
      rw [if_pos rfl, List.count_cons_of_ne (by decide)]
      exact count_plain_chars (Binary64.isFinite_neg hfinite) hopposite
    | false =>
      rw [if_neg Bool.false_ne_true]
      exact count_plain_chars hfinite hsign
  | var hpath =>
    rw [chars, parens]
    exact count_openParen_of_isName hpath.isName
  | negate _ ih => simp [chars, count_enclose, ih, parens, groupsAt]
  | @binary op l r _ _ ihl ihr =>
    have hop : op.chars.count '(' = 0 := by cases op <;> rfl
    simp [chars, count_enclose, ihl, ihr, parens, groupsAt, hop]
  | @compare op l r _ _ ihl ihr =>
    have hop : op.chars.count '(' = 0 := by cases op <;> rfl
    simp [chars, count_enclose, ihl, ihr, parens, groupsAt, hop]
  | call hname _ ih =>
    simp [chars, count_openParen_of_isName hname.isName, count_argumentChars ih, parens]

theorem Denotes.count_openParen {word : List Char} {kind : TokenKind} (h : Denotes word kind) :
    word.count '(' = if kind.isOpenParen then 1 else 0 := by
  cases h with
  | number hn => exact count_openParen_of_isDecimal hn
  | identifier hword | function hword => exact count_openParen_of_isName hword
  | operator op => cases op <;> rfl
  | comparison op => cases op <;> rfl
  | equal | openParen | closeParen | comma => rfl

/-- The tokens of a text have as many opening parentheses as the text. -/
theorem Covers.countOpen_eq {offset : Nat} {cs : List Char} {ts : List Token}
    (h : Covers offset cs ts) : countOpen (ts.map Token.kind) = cs.count '(' := by
  induction h with
  | done => rfl
  | @blank offset c cs ts hc _ ih =>
    have hne : c ≠ '(' := by
      rintro rfl
      exact absurd hc (by decide)
    rw [ih, List.count_cons_of_ne hne]
  | token hword _ _ _ ih =>
    rw [List.map_cons, countOpen_cons, ih, List.count_append, hword.count_openParen, Nat.add_comm]

/-! ### Equal trees -/

/-- Equal trees bind equally tightly, but for the signs of zeros, which make no number too loose
for any place. -/
theorem groupsAt_congr {a b : Expr} (h : same a b = true) {level : Nat} (hlevel : level ≤ 4) :
    groupsAt level a = groupsAt level b := by
  unfold same at h
  split at h
  · next x y =>
    rw [groupsAt_eq_zero (Nat.le_trans hlevel (four_le_precedence_number x)),
      groupsAt_eq_zero (Nat.le_trans hlevel (four_le_precedence_number y))]
  · rfl
  · rfl
  · simp only [Bool.and_eq_true, beq_iff_eq] at h
    obtain ⟨⟨rfl, -⟩, -⟩ := h
    rfl
  · rfl
  · rfl
  · cases h

mutual

theorem parens_congr {a b : Expr} (h : same a b = true) : a.parens = b.parens := by
  unfold same at h
  split at h
  · rfl
  · rfl
  · next a b =>
    rw [parens, parens, groupsAt_congr h (le_refl 4), parens_congr h]
  · next o a b p c d =>
    simp only [Bool.and_eq_true, beq_iff_eq] at h
    obtain ⟨⟨rfl, hl⟩, hr⟩ := h
    have hop := o.precedence_le_three
    rw [parens, parens, groupsAt_congr hl (by omega), groupsAt_congr hr (by omega),
      parens_congr hl, parens_congr hr]
  · next o a b p c d =>
    simp only [Bool.and_eq_true, beq_iff_eq] at h
    obtain ⟨⟨rfl, hl⟩, hr⟩ := h
    rw [parens, parens, groupsAt_congr hl (by decide), groupsAt_congr hr (by decide),
      parens_congr hl, parens_congr hr]
  · next f as g bs =>
    simp only [Bool.and_eq_true, beq_iff_eq] at h
    rw [parens, parens, parensOfAll_congr h.2]
  · cases h

theorem parensOfAll_congr {as bs : List Expr} (h : sameAll as bs = true) :
    parensOfAll as = parensOfAll bs := by
  unfold sameAll at h
  split at h
  · rfl
  · next a as b bs =>
    rw [Bool.and_eq_true] at h
    rw [parensOfAll, parensOfAll, parens_congr h.1, parensOfAll_congr h.2]
  · cases h

end

/-- Tokens that are parsed have the parentheses that their tree needs. -/
theorem parens_le_of_parseTokens {ts : List Token} {e : Expr} (h : parseTokens ts = .ok e) :
    e.parens ≤ countOpen (ts.map Token.kind) := by
  have hneeds : groupsAt 0 e + e.parens ≤ countOpen (beforeEnd ts) :=
    (derives_of_parseTokens h).parens_le (Nat.zero_le _)
  have hpart : countOpen (beforeEnd ts) ≤ countOpen (ts.map Token.kind) :=
    (List.takeWhile_sublist _).countP_le
  omega

/-- Every pair of parentheses in the text of an expression is needed: without an opening
parenthesis and a closing one after it, a matching pair around an operand among them, the tokens
of the text are refused or parsed to another tree. -/
theorem parseTokens_without_parens {e : Expr} (h : Legible e) :
    ∃ tokens, tokenize e.text = .ok tokens ∧
      ∀ before opening inside closing after,
        tokens = before ++ opening :: inside ++ closing :: after →
        opening.kind = .openParen → closing.kind = .closeParen →
        ∀ e', parseTokens (before ++ inside ++ after) = .ok e' → same e' e = false := by
  obtain ⟨d, -, hshows⟩ := h.shows
  obtain ⟨ts, next, htokens, -⟩ := hshows.tokenize
  refine ⟨_, htokens, ?_⟩
  intro before opening inside closing after hsplit hopening hclosing e' hparse
  rw [tokenize, String.toList_ofList] at htokens
  have hcovers := covers_of_tokensFrom 0 _ _ htokens
  have hcount : countOpen _ = e.parens := hcovers.countOpen_eq.trans h.count_chars
  rw [hsplit] at hcount
  have hneeds := parens_le_of_parseTokens hparse
  rw [Bool.eq_false_iff]
  intro hsame
  rw [parens_congr hsame] at hneeds
  simp [hopening, hclosing, TokenKind.isOpenParen] at hcount hneeds
  omega

/-- The expression `-(a + b) * c`. -/
def weighted : Expr := .binary .mul (.negate (.binary .add (.var "a") (.var "b"))) (.var "c")

/-- Without the parentheses around the sum only `a` is negated. -/
theorem parseTokens_without_parens_weighted :
    Legible weighted ∧ weighted.text = "-(a + b) * c" ∧
      ∃ before opening inside closing after e',
        tokenize weighted.text = .ok (before ++ opening :: inside ++ closing :: after) ∧
        opening.kind = .openParen ∧ closing.kind = .closeParen ∧
        parseTokens (before ++ inside ++ after) = .ok e' ∧ same e' weighted = false := by
  have ha : Legible (.var "a") := .var ⟨'a', [], rfl, by decide, by simp⟩
  have hb : Legible (.var "b") := .var ⟨'b', [], rfl, by decide, by simp⟩
  have hc : Legible (.var "c") := .var ⟨'c', [], rfl, by decide, by simp⟩
  have h : Legible weighted := .binary (.negate (.binary ha hb)) hc
  have htext : weighted.text = "-(a + b) * c" := by decide +kernel
  let before : List Token := [⟨.operator .sub, 0⟩]
  let inside : List Token := [⟨.identifier "a", 2⟩, ⟨.operator .add, 4⟩, ⟨.identifier "b", 6⟩]
  let after : List Token :=
    [⟨.operator .mul, 9⟩, ⟨.identifier "c", 11⟩, ⟨.endOfInput, 12⟩]
  have htokens : tokenize weighted.text =
      .ok (before ++ ⟨.openParen, 1⟩ :: inside ++ ⟨.closeParen, 7⟩ :: after) := by
    rw [htext]
    rfl
  have hparse : parseTokens (before ++ inside ++ after) =
      .ok (.binary .add (.negate (.var "a")) (.binary .mul (.var "b") (.var "c"))) := by rfl
  obtain ⟨tokens, hok, hneeded⟩ := parseTokens_without_parens h
  have hsplit := Except.ok.inj (hok.symm.trans htokens)
  exact ⟨h, htext, before, ⟨.openParen, 1⟩, inside, ⟨.closeParen, 7⟩, after, _, htokens, rfl, rfl,
    hparse, hneeded _ _ _ _ _ hsplit rfl rfl _ hparse⟩

end TableImport.Expr
