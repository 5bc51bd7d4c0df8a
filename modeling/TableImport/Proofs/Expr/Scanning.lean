import Mathlib.Data.String.Basic
import TableImport.Proofs.Expr.Numerals
import TableImport.Proofs.Text.Trimming

/-! The head of a text that is cut into tokens, whatever stands after it. -/
namespace TableImport.Expr

theorem toNat_of_isNameStart {c : Char} (h : isNameStart c = true) :
    65 ≤ c.toNat ∧ c.toNat ≤ 90 ∨ c.toNat = 95 ∨ 97 ≤ c.toNat ∧ c.toNat ≤ 122 := by
  simp only [isNameStart, Bool.or_eq_true, decide_eq_true_eq, beq_iff_eq, Char.le_def,
    UInt32.le_iff_toNat_le] at h
  rcases h with (h | h) | rfl
  · exact .inr (.inr h)
  · exact .inl h
  · exact .inr (.inl rfl)

theorem isBlankChar_of_isNameStart {c : Char} (hc : isNameStart c = true) :
    isBlankChar c = false := by
  have hrange := toNat_of_isNameStart hc
  exact isBlankChar_eq_false (by omega) (by omega)

theorem isNameStart_of_isDigit {c : Char} (h : isDigit c = true) : isNameStart c = false := by
  by_contra hname
  have hdigit := toNat_of_isDigit h
  have hletter := toNat_of_isNameStart (eq_true_of_ne_false hname)
  omega

theorem isBlankChar_of_mem_plainChars {n : Numeral} (hn : n.IsDecimal) {c : Char}
    (hc : c ∈ n.plainChars) : isBlankChar c = false := by
  rcases isDigit_or_point_of_mem_plainChars hn hc with hc | rfl
  · have hrange := toNat_of_isDigit hc
    exact isBlankChar_eq_false (by omega) (by omega)
  · decide

/-- The characters are cut into tokens of these kinds when the others stand after them. -/
def Scans (cs : List Char) (kinds : List TokenKind) (rest : List Char) : Prop :=
  ∀ offset, ∃ (ts : List Token) (next : Nat), ts.map Token.kind = kinds ∧
    tokensFrom offset 0 (cs ++ rest) = (tokensFrom next 0 rest).map (ts ++ ·)

/-- Characters that belong to a token already read are passed over. -/
theorem tokensFrom_skip (cs rest : List Char) (offset : Nat) :
    tokensFrom offset cs.length (cs ++ rest) =
      tokensFrom (offset + String.utf8Len cs) 0 rest := by
  induction cs generalizing offset with
  | nil => rfl
  | cons c cs ih =>
    rw [List.cons_append, List.length_cons, tokensFrom]
    simp only [ih, String.utf8Len_cons, Nat.add_assoc, Nat.add_comm c.utf8Size]

namespace Scans
variable {as bs cs rest : List Char} {ks ls : List TokenKind}

theorem nil (rest : List Char) : Scans [] [] rest := by
  intro offset
  refine ⟨[], offset, rfl, ?_⟩
  cases h : tokensFrom offset 0 rest <;> simp [h, Except.map]

theorem append (ha : Scans as ks (bs ++ rest)) (hb : Scans bs ls rest) :
    Scans (as ++ bs) (ks ++ ls) rest := by
  intro offset
  obtain ⟨ts, middle, hts, ha⟩ := ha offset
  obtain ⟨us, next, hus, hb⟩ := hb middle
  refine ⟨ts ++ us, next, by simp [hts, hus], ?_⟩
  rw [List.append_assoc, ha, hb]
  cases tokensFrom next 0 rest <;> simp [Except.map]

/-- A blank makes no token. -/
theorem space (h : Scans cs ks rest) : Scans (' ' :: cs) ks rest := by
  intro offset
  obtain ⟨ts, next, hts, hrun⟩ := h (offset + ' '.utf8Size)
  refine ⟨ts, next, hts, ?_⟩
  have hblank : isBlankChar ' ' = true := by decide
  rw [List.cons_append, tokensFrom]
  simp only [hblank, if_true, hrun]

theorem lexeme {c : Char} {kind : TokenKind} (hblank : isBlankChar c = false)
    (h : lexeme? c (cs ++ rest) = some (kind, cs.length)) : Scans (c :: cs) [kind] rest := by
  intro offset
  refine ⟨[⟨kind, offset⟩], offset + c.utf8Size + String.utf8Len cs, rfl, ?_⟩
  rw [List.cons_append, tokensFrom]
  simp only [hblank, Bool.false_eq_true, if_false, h, tokensFrom_skip, List.singleton_append]

/-- A character that is a token by itself. -/
theorem single {c : Char} {kind : TokenKind} (hblank : isBlankChar c = false)
    (h : lexeme? c (cs ++ rest) = some (kind, 0)) (hcs : Scans cs ks rest) :
    Scans (c :: cs) (kind :: ks) rest := by
  have hhead : Scans [c] [kind] (cs ++ rest) := lexeme hblank h
  exact hhead.append hcs

theorem operator (op : BinaryOp) (rest : List Char) : Scans op.chars [.operator op] rest := by
  cases op <;> exact lexeme (by decide) rfl

theorem comparison (op : CompareOp) (rest : List Char) :
    Scans op.chars [.comparison op] (' ' :: rest) := by
  cases op <;> exact lexeme (by decide) rfl

theorem openParen (h : Scans cs ks rest) : Scans ('(' :: cs) (.openParen :: ks) rest :=
  single (by decide) rfl h

theorem closeParen (rest : List Char) : Scans [')'] [.closeParen] rest := lexeme (by decide) rfl

theorem comma (h : Scans cs ks rest) : Scans (',' :: cs) (.comma :: ks) rest :=
  single (by decide) rfl h

end Scans

/-- A text that neither goes on with a name or a number nor makes a name that stands before it
a function's. -/
structure Closed (rest : List Char) : Prop where
  head : ∀ c ∈ rest.head?, isNameChar c = false
  noCall : (trimStart rest).head? ≠ some '('

namespace Closed

theorem nil : Closed [] := ⟨by simp, by simp [trimStart]⟩

theorem closeParen (rest : List Char) : Closed (')' :: rest) := by
  have hblank : isBlankChar ')' = false := by decide
  exact ⟨by simp; decide, by simp [trimStart, hblank]⟩

theorem comma (rest : List Char) : Closed (',' :: rest) := by
  have hblank : isBlankChar ',' = false := by decide
  exact ⟨by simp; decide, by simp [trimStart, hblank]⟩

theorem spaced {c : Char} (hblank : isBlankChar c = false) (hc : c ≠ '(') (rest : List Char) :
    Closed (' ' :: c :: rest) := by
  have hspace : isBlankChar ' ' = true := by decide
  exact ⟨by simp; decide, by simp [trimStart, hspace, hblank, hc]⟩

theorem operator (op : BinaryOp) (rest : List Char) : Closed (' ' :: op.chars ++ rest) := by
  cases op <;> exact spaced (by decide) (by decide) _

theorem comparison (op : CompareOp) (rest : List Char) : Closed (' ' :: op.chars ++ rest) := by
  cases op <;> exact spaced (by decide) (by decide) _

variable {cs rest : List Char}

theorem head_eq_false {p : Char → Bool} (h : Closed rest) (hp : ∀ c, p c → isNameChar c) :
    ∀ c ∈ rest.head?, p c = false := by
  intro c hc
  have hname := h.head c hc
  rw [Bool.eq_false_iff]
  intro hpc
  rw [hp c hpc] at hname
  cases hname

theorem takeWhile_append {p : Char → Bool} (h : Closed rest) (hp : ∀ c, p c → isNameChar c)
    (hcs : ∀ c ∈ cs, p c) : (cs ++ rest).takeWhile p = cs :=
  takeWhile_append_of_head hcs (h.head_eq_false hp)

theorem dropWhile_append {p : Char → Bool} (h : Closed rest) (hp : ∀ c, p c → isNameChar c)
    (hcs : ∀ c ∈ cs, p c) : (cs ++ rest).dropWhile p = rest :=
  dropWhile_append_of_head hcs (h.head_eq_false hp)

end Closed

theorem isNameChar_point : isNameChar '.' = true := by decide

theorem Closed.numberChars_eq {rest : List Char} (h : Closed rest) :
    numberChars rest = ([], []) := by
  cases rest with
  | nil => rfl
  | cons c rest =>
    have hc : isNameChar c = false := h.head c rfl
    have hpoint : c ≠ '.' := by
      rintro rfl
      cases isNameChar_point.symm.trans hc
    have hdigit : isDigit c = false := by simp_all [isNameChar]
    simp [numberChars, hdigit, hpoint]

theorem headNumeral_of_closed {n : Numeral} (hn : n.IsPlain) {rest : List Char}
    (h : Closed rest) : headNumeral (n.plainChars ++ rest) = n := by
  have htake : rest.takeWhile isDigit = [] := congrArg Prod.fst h.numberChars_eq
  obtain ⟨whole, fraction, exponent⟩ := n
  obtain rfl : exponent = 0 := hn.exponent_eq
  rw [headNumeral, numberChars_append hn.isDecimal, h.numberChars_eq, htake]
  split
  · next hfraction => simpa using hfraction.symm
  · simp

/-- A number is as long as the longest numeral there. -/
theorem lexeme?_of_beginsNumber {c : Char} {cs : List Char} (h : BeginsNumber c cs) :
    lexeme? c cs = some (.number ((headNumeral (c :: cs)).toFloat false),
      (headNumeral (c :: cs)).plainChars.length - 1) := by
  have hsign : ¬(c = '>' ∨ c = '<' ∨ c = '=' ∨ c = '!') := by
    rintro (rfl | rfl | rfl | rfl) <;> revert h <;> simp [BeginsNumber] <;> decide
  have hnumber : isDigit c = true ∨ c = '.' ∧ cs.head?.any isDigit = true := h
  rw [Numeral.length_plainChars]
  unfold lexeme?
  split <;> first | exact absurd h (by simp [BeginsNumber]; decide) | skip
  rw [if_neg hsign, if_pos hnumber]
  rfl

theorem lexeme?_of_isNameStart {c : Char} (hc : isNameStart c = true) (cs : List Char) :
    lexeme? c cs =
      let more := cs.takeWhile isNameChar
      let name := String.ofList (c :: more)
      let isCall := (trimStart (cs.dropWhile isNameChar)).head? == some '('
      some (if isCall then .function name else .identifier name, more.length) := by
  have hsign : ¬(c = '>' ∨ c = '<' ∨ c = '=' ∨ c = '!') := by
    rintro (rfl | rfl | rfl | rfl) <;> revert hc <;> decide
  have hnumber : ¬(isDigit c = true ∨ (c = '.' ∧ cs.head?.any isDigit = true)) := by
    rintro (hdigit | ⟨rfl, -⟩)
    · rw [isNameStart_of_isDigit hdigit] at hc
      cases hc
    · revert hc
      decide
  unfold lexeme?
  split <;> first | exact absurd hc (by decide) | skip
  rw [if_neg hsign, if_neg hnumber, if_pos hc]

namespace Scans

/-- A plain numeral is one token. -/
theorem number {n : Numeral} (hn : n.IsPlain) {rest : List Char} (h : Closed rest) :
    Scans n.plainChars [.number (n.toFloat false)] rest := by
  obtain ⟨c, cs, hcs, hbegins⟩ := exists_plainChars_eq_cons hn.isDecimal
  have hblank : isBlankChar c = false :=
    isBlankChar_of_mem_plainChars hn.isDecimal (hcs ▸ List.mem_cons_self)
  have hnumeral := headNumeral_of_closed hn h
  rw [hcs, List.cons_append] at hnumeral
  rw [hcs]
  refine lexeme hblank ?_
  rw [lexeme?_of_beginsNumber (hbegins.append rest), hnumeral, hcs]
  rfl

variable {c : Char} {cs : List Char}

/-- A name is one token. -/
theorem identifier (hc : isNameStart c = true) (hcs : ∀ d ∈ cs, isNameChar d = true)
    {rest : List Char} (h : Closed rest) :
    Scans (c :: cs) [.identifier (String.ofList (c :: cs))] rest := by
  refine lexeme (isBlankChar_of_isNameStart hc) ?_
  rw [lexeme?_of_isNameStart hc]
  have hcall : ((trimStart rest).head? == some '(') = false := by simp [h.noCall]
  simp only [h.takeWhile_append (fun _ => id) hcs, h.dropWhile_append (fun _ => id) hcs, hcall,
    Bool.false_eq_true, if_false]

/-- A name before a parenthesis is a function's. -/
theorem function (hc : isNameStart c = true) (hcs : ∀ d ∈ cs, isNameChar d = true)
    (rest : List Char) :
    Scans (c :: cs) [.function (String.ofList (c :: cs))] ('(' :: rest) := by
  have hparen : isNameChar '(' = false := by decide
  have hblank : isBlankChar '(' = false := by decide
  refine lexeme (isBlankChar_of_isNameStart hc) ?_
  rw [lexeme?_of_isNameStart hc]
  simp [List.takeWhile_append_of_pos hcs, List.dropWhile_append_of_pos hcs, hparen, trimStart,
    hblank]

/-- Two texts with a sign between blanks between them. -/
theorem between {ls sign rs rest : List Char} {lkinds rkinds : List TokenKind} {kind : TokenKind}
    (hl : ∀ rest, Closed rest → Scans ls lkinds rest)
    (hclosed : ∀ rest, Closed (' ' :: sign ++ rest))
    (hsign : ∀ rest, Scans sign [kind] (' ' :: rest)) (hr : Scans rs rkinds rest) :
    Scans (ls ++ ' ' :: sign ++ ' ' :: rs) (lkinds ++ kind :: rkinds) rest := by
  have hright : Scans (' ' :: (sign ++ ' ' :: rs)) (kind :: rkinds) rest :=
    ((hsign (rs ++ rest)).append hr.space).space
  have hleft : Scans ls lkinds (' ' :: (sign ++ ' ' :: rs) ++ rest) :=
    hl _ (by simpa using hclosed (' ' :: rs ++ rest))
  simpa using hleft.append hright

end Scans
end TableImport.Expr
