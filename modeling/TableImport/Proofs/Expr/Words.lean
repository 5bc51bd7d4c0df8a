import TableImport.Proofs.Expr.Scanning
import TableImport.Proofs.Number.Spelling

/-! The words of tokens. What the scanner takes at the head of a text is the longest word that
begins there, and it takes something wherever a word begins. -/
namespace TableImport

namespace Numeral.IsDecimal
variable {n : Numeral}

theorem takeSign_plainChars (hn : n.IsDecimal) :
    takeSign n.plainChars = (false, n.plainChars) := by
  obtain ⟨c, more, hcons, hc | ⟨rfl, -⟩⟩ := Expr.exists_plainChars_eq_cons hn
  · obtain ⟨hminus, hplus⟩ := ne_sign_of_isDigit hc
    rw [hcons, takeSign_of_ne hminus hplus]
  · rw [hcons]
    rfl

theorem readNumeral?_plainChars (hn : n.IsDecimal) : readNumeral? n.plainChars = some n := by
  have hpoint : isDigit '.' = false := by decide
  have hne : ¬(n.whole = [] ∧ n.fraction = []) :=
    fun hnil => hn.ne_nil.elim (· hnil.1) (· hnil.2)
  have hwhole : n.plainChars.takeWhile isDigit = n.whole := by
    rw [plainChars, List.takeWhile_append_of_pos hn.whole_digits]
    split <;> simp [hpoint]
  have hfraction : pointSplit (n.plainChars.dropWhile isDigit) = (n.fraction, []) := by
    rw [plainChars, List.dropWhile_append_of_pos hn.whole_digits]
    split
    · next hnil =>
      rw [hnil]
      rfl
    · simp [hpoint, pointSplit, List.takeWhile_eq_self_iff.mpr hn.fraction_digits,
        List.dropWhile_eq_nil_iff.mpr hn.fraction_digits]
  rw [readNumeral?_eq, hwhole, hfraction, if_neg hne, readExponent?, Option.map_some,
    ← hn.exponent_eq]

/-- The characters of a decimal read as its double. -/
theorem readFloatChars?_plainChars (hn : n.IsDecimal) :
    readFloatChars? n.plainChars = some (n.toFloat false) := by
  have hplain : ∀ c ∈ n.plainChars, isPlainChar c = true := by
    intro c hc
    rcases Expr.isDigit_or_point_of_mem_plainChars hn hc with hc | rfl
    · simp [isPlainChar, hc]
    · decide
  rw [readFloatChars?_eq hn.takeSign_plainChars hplain, hn.readNumeral?_plainChars,
    Option.map_some]

end Numeral.IsDecimal

namespace Expr

/-- A letter or an underscore, then letters, digits, underscores and dots. -/
def IsName (word : List Char) : Prop :=
  ∃ c more, word = c :: more ∧ isNameStart c = true ∧ ∀ d ∈ more, isNameChar d = true

/-- The words of the tokens of each kind. Equality has a short one and a long one. -/
inductive Denotes : List Char → TokenKind → Prop where
  | number {n : Numeral} {x : Float} (hn : n.IsDecimal)
      (hx : readFloatChars? n.plainChars = some x) : Denotes n.plainChars (.number x)
  | identifier {word : List Char} (hword : IsName word) :
      Denotes word (.identifier (String.ofList word))
  | function {word : List Char} (hword : IsName word) :
      Denotes word (.function (String.ofList word))
  | operator (op : BinaryOp) : Denotes op.chars (.operator op)
  | comparison (op : CompareOp) : Denotes op.chars (.comparison op)
  | equal : Denotes ['='] (.comparison .equal)
  | openParen : Denotes ['('] .openParen
  | closeParen : Denotes [')'] .closeParen
  | comma : Denotes [','] .comma

/-- No longer word begins where the word does. -/
def Longest (word rest : List Char) : Prop :=
  ∀ longer kind, Denotes longer kind → longer <+: word ++ rest → longer.length ≤ word.length

/-- A function's name is one that stands before a parenthesis, blanks apart. -/
def TokenKind.Precedes : TokenKind → List Char → Prop
  | function _, rest => (trimStart rest).head? = some '('
  | identifier _, rest => (trimStart rest).head? ≠ some '('
  | _, _ => True

variable {c : Char} {cs more rest word : List Char} {kind : TokenKind} {n : Nat}

theorem Denotes.exists_cons (h : Denotes word kind) : ∃ c more, word = c :: more := by
  cases h with
  | number hn =>
    obtain ⟨c, more, hcons, -⟩ := exists_plainChars_eq_cons hn
    exact ⟨c, more, hcons⟩
  | identifier hword | function hword =>
    obtain ⟨c, more, rfl, -⟩ := hword
    exact ⟨c, more, rfl⟩
  | operator op => cases op <;> exact ⟨_, _, rfl⟩
  | comparison op => cases op <;> exact ⟨_, _, rfl⟩
  | equal | openParen | closeParen | comma => exact ⟨_, _, rfl⟩

/-- No word begins with a blank, and only the word of a parenthesis with a parenthesis. -/
theorem Denotes.head (h : Denotes (c :: more) kind) :
    isBlankChar c = false ∧ (kind = .openParen ↔ c = '(') := by
  generalize hword : c :: more = word at h
  cases h with
  | number hn =>
    have hc := hword ▸ List.mem_cons_self
    refine ⟨isBlankChar_of_mem_plainChars hn hc, iff_of_false nofun ?_⟩
    rintro rfl
    have hparen := isDigit_or_point_of_mem_plainChars hn hc
    revert hparen
    decide
  | identifier hname | function hname =>
    obtain ⟨d, ds, rfl, hd, -⟩ := hname
    obtain ⟨rfl, -⟩ := List.cons.inj hword
    refine ⟨isBlankChar_of_isNameStart hd, iff_of_false nofun ?_⟩
    rintro rfl
    revert hd
    decide
  | operator op =>
    cases op <;> obtain ⟨rfl, -⟩ := List.cons.inj hword <;> exact ⟨by decide, by simp⟩
  | comparison op =>
    cases op <;> obtain ⟨rfl, -⟩ := List.cons.inj hword <;> exact ⟨by decide, by simp⟩
  | equal | openParen | closeParen | comma =>
    obtain ⟨rfl, -⟩ := List.cons.inj hword
    exact ⟨by decide, by simp⟩

/-! ### What the scanner takes where a word begins -/

/-- The scanner takes at least so many characters after the first, and this token if it takes no
more than these. -/
def Takes (c : Char) (more rest : List Char) (kind : TokenKind) : Prop :=
  ∃ kind' n, lexeme? c (more ++ rest) = some (kind', n) ∧ more.length ≤ n ∧
    (n ≤ more.length → kind.Precedes rest → kind' = kind)

theorem takes_of_lexeme? (h : lexeme? c (more ++ rest) = some (kind, more.length)) :
    Takes c more rest kind :=
  ⟨kind, _, h, le_rfl, fun _ _ => rfl⟩

theorem takes_number {m : Numeral} {x : Float} (hm : m.IsDecimal)
    (hx : readFloatChars? m.plainChars = some x) (hcons : m.plainChars = c :: more)
    (rest : List Char) : Takes c more rest (.number x) := by
  obtain ⟨d, ds, hds, hbegins⟩ := exists_plainChars_eq_cons hm
  obtain ⟨rfl, rfl⟩ := List.cons.inj (hds.symm.trans hcons)
  obtain rfl : m.toFloat false = x := Option.some.inj (hm.readFloatChars?_plainChars.symm.trans hx)
  have hlength := length_le_headNumeral hm rest
  refine ⟨_, _, lexeme?_of_beginsNumber (hbegins.append rest), ?_, fun hle _ => ?_⟩
  · rw [hds, List.cons_append, List.length_cons] at hlength
    omega
  · have hsame : headNumeral (m.plainChars ++ rest) = m := by
      apply headNumeral_append hm
      rw [hds, List.cons_append, List.length_cons]
      omega
    rw [hds, List.cons_append] at hsame
    rw [hsame]

theorem takes_name (hword : IsName (c :: more)) (rest : List Char)
    (hkind : kind = .function (String.ofList (c :: more)) ∨
      kind = .identifier (String.ofList (c :: more))) : Takes c more rest kind := by
  obtain ⟨d, ds, hds, hc, hmore⟩ := hword
  obtain ⟨rfl, rfl⟩ := List.cons.inj hds
  have htake : (more ++ rest).takeWhile isNameChar = more ++ rest.takeWhile isNameChar :=
    List.takeWhile_append_of_pos hmore
  have hdrop : (more ++ rest).dropWhile isNameChar = rest.dropWhile isNameChar :=
    List.dropWhile_append_of_pos hmore
  refine ⟨_, _, lexeme?_of_isNameStart hc _, ?_, fun hle hprecedes => ?_⟩
  · rw [htake, List.length_append]
    exact Nat.le_add_right _ _
  · rw [htake, List.length_append] at hle
    have hnil : rest.takeWhile isNameChar = [] := List.eq_nil_of_length_eq_zero (by omega)
    have hrest := List.takeWhile_append_dropWhile (p := isNameChar) (l := rest)
    rw [hnil, List.nil_append] at hrest
    rw [htake, hdrop, hnil, hrest, List.append_nil]
    rcases hkind with rfl | rfl
    · exact if_pos (beq_iff_eq.mpr hprecedes)
    · exact if_neg fun hcall => hprecedes (beq_iff_eq.mp hcall)

/-- A sign of comparison that an equals sign may follow, which then belongs to it. -/
theorem takes_of_followed {longer : TokenKind} (h : lexeme? c rest =
    if rest.head? == some '=' then some (longer, 1) else some (kind, 0)) :
    Takes c [] rest kind := by
  split at h
  · exact ⟨_, _, h, Nat.zero_le _, fun hle => absurd hle (by simp)⟩
  · exact takes_of_lexeme? h

theorem takes_comparison {op : CompareOp} (hop : op.chars = c :: more) (rest : List Char) :
    Takes c more rest (.comparison op) := by
  cases op <;> obtain ⟨rfl, rfl⟩ := List.cons.inj hop
  case greater =>
    have hlexeme : lexeme? '>' rest = if rest.head? == some '=' then
        some (.comparison .greaterEqual, 1) else some (.comparison .greater, 0) := by
      cases hf : rest.head? == some '=' <;> simp [lexeme?, comparison?, hf]
    exact takes_of_followed hlexeme
  case less =>
    have hlexeme : lexeme? '<' rest = if rest.head? == some '=' then
        some (.comparison .lessEqual, 1) else some (.comparison .less, 0) := by
      cases hf : rest.head? == some '=' <;> simp [lexeme?, comparison?, hf]
    exact takes_of_followed hlexeme
  all_goals exact takes_of_lexeme? rfl

theorem Denotes.takes (h : Denotes (c :: more) kind) (rest : List Char) :
    Takes c more rest kind := by
  generalize hword : c :: more = word at h
  cases h with
  | number hm hx => exact takes_number hm hx hword.symm rest
  | identifier hname =>
    subst hword
    exact takes_name hname rest (.inr rfl)
  | function hname =>
    subst hword
    exact takes_name hname rest (.inl rfl)
  | operator op =>
    cases op <;> obtain ⟨rfl, rfl⟩ := List.cons.inj hword <;> exact takes_of_lexeme? rfl
  | comparison op => exact takes_comparison hword.symm rest
  | equal =>
    obtain ⟨rfl, rfl⟩ := List.cons.inj hword
    refine ⟨.comparison .equal, if rest.head? == some '=' then 1 else 0, ?_, Nat.zero_le _,
      fun _ _ => rfl⟩
    cases hf : rest.head? == some '=' <;> simp [lexeme?, comparison?, hf]
  | openParen | closeParen | comma =>
    obtain ⟨rfl, rfl⟩ := List.cons.inj hword
    exact takes_of_lexeme? rfl

/-! ### What the scanner takes -/

theorem denotes_of_comparison? {op : CompareOp} {followed : Bool}
    (h : comparison? c followed = some op) :
    Denotes (c :: if followed then ['='] else []) (.comparison op) := by
  unfold comparison? at h
  split at h
  · cases h
    exact .comparison .greater
  · cases h
    exact .comparison .greaterEqual
  · cases h
    exact .comparison .less
  · cases h
    exact .comparison .lessEqual
  · cases h
    cases followed
    · exact .equal
    · exact .comparison .equal
  · cases h
    exact .comparison .notEqual
  · cases h

theorem exists_append_of_followed {followed : Bool} (h : (cs.head? == some '=') = followed) :
    ∃ rest, cs = (if followed then ['='] else []) ++ rest := by
  cases followed with
  | false => exact ⟨cs, rfl⟩
  | true => exact List.head?_eq_some_iff.mp (beq_iff_eq.mp h)

theorem denotes_of_beginsNumber (h : BeginsNumber c cs) :
    ∃ more rest, cs = more ++ rest ∧
      more.length = (headNumeral (c :: cs)).plainChars.length - 1 ∧
      Denotes (c :: more) (.number ((headNumeral (c :: cs)).toFloat false)) := by
  have hdecimal := headNumeral_isDecimal h
  obtain ⟨d, more, hcons, -⟩ := exists_plainChars_eq_cons hdecimal
  obtain ⟨rest, hrest⟩ := prefix_headNumeral (c :: cs)
  rw [hcons] at hrest
  obtain ⟨rfl, rfl⟩ := List.cons.inj hrest
  refine ⟨more, rest, rfl, by rw [hcons]; rfl, ?_⟩
  rw [← hcons]
  exact .number hdecimal hdecimal.readFloatChars?_plainChars

theorem denotes_of_isNameStart (hc : isNameStart c = true) (cs : List Char) :
    let call := (trimStart (cs.dropWhile isNameChar)).head? == some '('
    let name := String.ofList (c :: cs.takeWhile isNameChar)
    let kind := if call then TokenKind.function name else .identifier name
    Denotes (c :: cs.takeWhile isNameChar) kind ∧ kind.Precedes (cs.dropWhile isNameChar) := by
  have hname : IsName (c :: cs.takeWhile isNameChar) :=
    ⟨c, _, rfl, hc, fun _ hd => List.mem_takeWhile_imp hd⟩
  cases hcall : (trimStart (cs.dropWhile isNameChar)).head? == some '(' with
  | true => exact ⟨.function hname, beq_iff_eq.mp hcall⟩
  | false => exact ⟨.identifier hname, beq_eq_false_iff_ne.mp hcall⟩

/-- What the scanner takes at the head of a text is a word of the token. -/
theorem denotes_of_lexeme? (h : lexeme? c cs = some (kind, n)) :
    ∃ more rest, cs = more ++ rest ∧ more.length = n ∧ Denotes (c :: more) kind ∧
      kind.Precedes rest := by
  have hsingle : ∀ kind', Denotes [c] kind' → kind'.Precedes cs →
      some (kind', 0) = some (kind, n) →
      ∃ more rest, cs = more ++ rest ∧ more.length = n ∧ Denotes (c :: more) kind ∧
        kind.Precedes rest := by
    rintro kind' hword hprecedes heq
    obtain ⟨rfl, rfl⟩ := Prod.mk.inj (Option.some.inj heq)
    exact ⟨[], cs, rfl, rfl, hword, hprecedes⟩
  unfold lexeme? at h
  split at h
  · exact hsingle _ (.operator .add) trivial h
  · exact hsingle _ (.operator .sub) trivial h
  · exact hsingle _ (.operator .mul) trivial h
  · exact hsingle _ (.operator .div) trivial h
  · exact hsingle _ .openParen trivial h
  · exact hsingle _ .closeParen trivial h
  · exact hsingle _ .comma trivial h
  split at h
  · obtain ⟨op, hop, hkind⟩ := Option.map_eq_some_iff.mp h
    obtain ⟨rfl, rfl⟩ := Prod.mk.inj hkind
    obtain ⟨rest, hcs⟩ := exists_append_of_followed rfl
    exact ⟨_, rest, hcs, by split <;> rfl, denotes_of_comparison? hop, trivial⟩
  split at h
  · next hnumber =>
    obtain ⟨rfl, rfl⟩ := Prod.mk.inj (Option.some.inj h)
    obtain ⟨more, rest, hcs, hlength, hword⟩ := denotes_of_beginsNumber hnumber
    rw [Numeral.length_plainChars] at hlength
    exact ⟨more, rest, hcs, hlength, hword, trivial⟩
  split at h
  · next hname =>
    obtain ⟨rfl, rfl⟩ := Prod.mk.inj (Option.some.inj h)
    exact ⟨_, _, (List.takeWhile_append_dropWhile (p := isNameChar)).symm, rfl,
      denotes_of_isNameStart hname cs⟩
  · cases h

/-- The scanner takes the longest word that begins at the head of a text. -/
theorem lexeme?_eq_some_iff : lexeme? c cs = some (kind, n) ↔
    ∃ more rest, cs = more ++ rest ∧ more.length = n ∧ Denotes (c :: more) kind ∧
      Longest (c :: more) rest ∧ kind.Precedes rest := by
  constructor
  · intro h
    obtain ⟨more, rest, rfl, rfl, hword, hprecedes⟩ := denotes_of_lexeme? h
    refine ⟨more, rest, rfl, rfl, hword, ?_, hprecedes⟩
    rintro longer kind' hlonger ⟨after, hafter⟩
    obtain ⟨d, ds, rfl⟩ := hlonger.exists_cons
    rw [List.cons_append, List.cons_append, List.cons.injEq] at hafter
    obtain ⟨rfl, hafter⟩ := hafter
    obtain ⟨_, m, hm, hle, -⟩ := hlonger.takes after
    rw [hafter, h] at hm
    obtain ⟨-, rfl⟩ := Prod.mk.inj (Option.some.inj hm)
    exact Nat.succ_le_succ hle
  · rintro ⟨more, rest, rfl, rfl, hword, hlongest, hprecedes⟩
    obtain ⟨kind', m, hm, hle, hkind⟩ := hword.takes rest
    obtain ⟨taken, after, htaken, rfl, hdenotes, -⟩ := denotes_of_lexeme? hm
    have hshort : taken.length ≤ more.length :=
      Nat.le_of_succ_le_succ (hlongest (c :: taken) kind' hdenotes ⟨after, by simp [htaken]⟩)
    rw [hm, hkind hshort hprecedes, Nat.le_antisymm hshort hle]

/-- The scanner takes nothing where no word begins. -/
theorem lexeme?_eq_none_iff : lexeme? c cs = none ↔
    ∀ word kind, Denotes word kind → ¬word <+: c :: cs := by
  rw [Option.eq_none_iff_forall_ne_some]
  constructor
  · rintro h word kind hword ⟨rest, hrest⟩
    obtain ⟨d, more, rfl⟩ := hword.exists_cons
    obtain ⟨rfl, rfl⟩ := List.cons.inj hrest
    obtain ⟨kind', n, hlexeme, -⟩ := hword.takes rest
    exact h _ hlexeme
  · rintro h ⟨kind, n⟩ hlexeme
    obtain ⟨more, rest, rfl, -, hword, -⟩ := denotes_of_lexeme? hlexeme
    exact h _ kind hword (List.prefix_append (c :: more) rest)

/-- Before the beginning of what follows a word, the scanner takes the same word. -/
theorem exists_lexeme?_of_prefix {before : List Char} (hbefore : before <+: rest)
    (h : lexeme? c (more ++ rest) = some (kind, more.length)) :
    ∃ kind', lexeme? c (more ++ before) = some (kind', more.length) := by
  obtain ⟨taken, after, htaken, hlength, hword, hlongest, -⟩ := lexeme?_eq_some_iff.mp h
  obtain ⟨rfl, rfl⟩ := List.append_inj htaken hlength.symm
  obtain ⟨kind', n, hlexeme, hle, -⟩ := hword.takes before
  obtain ⟨taken, after', hsplit, rfl, hdenotes, -⟩ := denotes_of_lexeme? hlexeme
  have hprefix : c :: taken <+: c :: more ++ rest := by
    obtain ⟨after, rfl⟩ := hbefore
    exact ⟨after' ++ after, by simp [← List.append_assoc, hsplit]⟩
  have hshort : taken.length ≤ more.length :=
    Nat.le_of_succ_le_succ (hlongest (c :: taken) kind' hdenotes hprefix)
  exact ⟨kind', by rw [hlexeme, Nat.le_antisymm hshort hle]⟩

end Expr
end TableImport
