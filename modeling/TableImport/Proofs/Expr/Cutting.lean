import TableImport.Proofs.Expr.Covering
import TableImport.Text.Word

/-! Texts that are cut into tokens, with the characters of words as scans for names see them. -/
namespace TableImport

/-- Code points of one list of ranges lie in none that a list apart from it has. -/
theorem inRanges_eq_false {rs ss : List (Nat × Nat)}
    (hapart : ∀ r ∈ rs, ∀ s ∈ ss, r.2 < s.1 ∨ s.2 < r.1) {n : Nat} (h : inRanges rs n = true) :
    inRanges ss n = false := by
  obtain ⟨r, hr, hn⟩ := List.any_eq_true.mp h
  apply List.any_eq_false.mpr
  intro s hs
  have hsr := hapart r hr s hs
  simp only [decide_eq_true_eq] at hn ⊢
  omega

theorem isWordChar_of_isBlankChar {c : Char} (h : isBlankChar c = true) : isWordChar c = false :=
  inRanges_eq_false (by decide +kernel) h

namespace Expr

theorem isWordChar_of_isNameStart {c : Char} (h : isNameStart c = true) : isWordChar c = true := by
  have hmem : (0x41, 0x5A) ∈ wordRanges ∧ (0x5F, 0x5F) ∈ wordRanges ∧
      (0x61, 0x7A) ∈ wordRanges := by decide +kernel
  apply List.any_eq_true.mpr
  rcases toNat_of_isNameStart h with hc | hc | hc
  · exact ⟨_, hmem.1, by simpa using hc⟩
  · exact ⟨_, hmem.2.1, by simp [hc]⟩
  · exact ⟨_, hmem.2.2, by simpa using hc⟩

/-- The word of a token at the head of a text, what follows it, and the token's kind. -/
inductive Lexeme : List Char → List Char → TokenKind → Prop where
  | sign {word rest : List Char} {kind : TokenKind} (hkind : kind.isSign = true)
      (hword : ∀ c ∈ word, isWordChar c = false) : Lexeme word rest kind
  | number {word rest : List Char} (x : Float) (hword : ∀ c ∈ word, isNameStart c = false) :
      Lexeme word rest (.number x)
  | name {c : Char} {more rest : List Char} {kind : TokenKind}
      (hkind : kind = .identifier (String.ofList (c :: more)) ∨
        kind = .function (String.ofList (c :: more)))
      (hc : isNameStart c = true) (hmore : ∀ d ∈ more, isNameChar d = true)
      (hrest : ∀ d ∈ rest.head?, isNameChar d = false) : Lexeme (c :: more) rest kind

theorem Lexeme.isEnd_eq_false {word rest : List Char} {kind : TokenKind}
    (h : Lexeme word rest kind) : kind.isEnd = false := by
  cases h with
  | sign hkind => cases kind <;> first | rfl | cases hkind
  | number => rfl
  | name hkind => rcases hkind with rfl | rfl <;> rfl

theorem lexeme_name {c : Char} {more rest : List Char} {kind : TokenKind}
    (hkind : kind = .identifier (String.ofList (c :: more)) ∨
      kind = .function (String.ofList (c :: more)))
    (hname : IsName (c :: more)) (hlongest : Longest (c :: more) rest) :
    Lexeme (c :: more) rest kind := by
  obtain ⟨d, ds, hds, hc, hmore⟩ := hname
  obtain ⟨rfl, rfl⟩ := List.cons.inj hds
  refine .name hkind hc hmore fun d hd => ?_
  obtain ⟨rest, rfl⟩ : ∃ tail, rest = d :: tail := List.head?_eq_some_iff.mp hd
  by_contra hnext
  have hlonger : IsName (c :: (more ++ [d])) := by
    refine ⟨c, _, rfl, hc, fun e he => ?_⟩
    rcases List.mem_append.mp he with he | he
    · exact hmore e he
    · rw [List.mem_singleton.mp he]
      exact eq_true_of_ne_false hnext
  have hle := hlongest _ _ (.identifier hlonger) ⟨rest, by simp⟩
  simp at hle

/-- The word of a token is of one of the three sorts. -/
theorem lexeme_of_denotes {word rest : List Char} {kind : TokenKind} (h : Denotes word kind)
    (hlongest : Longest word rest) : Lexeme word rest kind := by
  cases h with
  | number hn =>
    refine .number _ fun c hc => ?_
    rcases isDigit_or_point_of_mem_plainChars hn hc with hc | rfl
    · exact isNameStart_of_isDigit hc
    · decide
  | identifier hname =>
    obtain ⟨c, more, rfl, -⟩ := id hname
    exact lexeme_name (.inl rfl) hname hlongest
  | function hname =>
    obtain ⟨c, more, rfl, -⟩ := id hname
    exact lexeme_name (.inr rfl) hname hlongest
  | operator op => exact .sign rfl (by cases op <;> simp [BinaryOp.chars] <;> decide +kernel)
  | comparison op => exact .sign rfl (by cases op <;> simp [CompareOp.chars] <;> decide +kernel)
  | equal | openParen | closeParen | comma => exact .sign rfl (by simp; decide +kernel)

/-- A text with the kinds of its tokens. -/
inductive Cuts : List Char → List TokenKind → Prop where
  | nil : Cuts [] []
  | blank {c : Char} {cs : List Char} {ks : List TokenKind} (hc : isBlankChar c = true)
      (h : Cuts cs ks) : Cuts (c :: cs) ks
  | token {c : Char} {more rest : List Char} {kind : TokenKind} {ks : List TokenKind}
      (hword : Lexeme (c :: more) rest kind) (h : Cuts rest ks) :
      Cuts (c :: (more ++ rest)) (kind :: ks)

theorem Cuts.isEnd_eq_false {cs : List Char} {ks : List TokenKind} (h : Cuts cs ks) :
    ∀ k ∈ ks, k.isEnd = false := by
  induction h with
  | nil => simp
  | blank _ _ ih => exact ih
  | token hword _ ih => exact List.forall_mem_cons.mpr ⟨hword.isEnd_eq_false, ih⟩

/-- The tokens of a text are those that it is cut into, and the end of the input. -/
theorem Covers.cuts {cs : List Char} {offset : Nat} {ts : List Token} (h : Covers offset cs ts) :
    ∃ ks, ts.map Token.kind = ks ++ [.endOfInput] ∧ Cuts cs ks := by
  induction h with
  | done => exact ⟨[], rfl, .nil⟩
  | blank hc _ ih =>
    obtain ⟨ks, hkinds, hcuts⟩ := ih
    exact ⟨ks, hkinds, .blank hc hcuts⟩
  | @token _ word _ kind _ hword hlongest _ _ ih =>
    obtain ⟨ks, hkinds, hcuts⟩ := ih
    obtain ⟨c, more, rfl⟩ := hword.exists_cons
    exact ⟨kind :: ks, by simp [hkinds], .token (lexeme_of_denotes hword hlongest) hcuts⟩

theorem cuts_of_tokenize {text : String} {ts : List Token} (h : tokenize text = .ok ts) :
    Cuts text.toList (beforeEnd ts) := by
  obtain ⟨ks, hkinds, hcuts⟩ := (covers_of_tokensFrom 0 _ ts h).cuts
  have hinside : ∀ k ∈ ks, (!k.isEnd) = true := by
    intro k hk
    rw [hcuts.isEnd_eq_false k hk]
    rfl
  have hbefore : beforeEnd ts = ks := by
    rw [beforeEnd, hkinds, List.takeWhile_append_of_pos hinside]
    simp [TokenKind.isEnd]
  rw [hbefore]
  exact hcuts

end Expr
end TableImport
