import TableImport.Proofs.Expr.Grammar
import TableImport.Proofs.Expr.Words
import TableImport.Proofs.Fallible

/-! Tokens cover the text that they are cut from, or it has a character where none begins. -/
namespace TableImport.Expr

/-- A name is a function's if the next token is an opening parenthesis. -/
def TokenKind.Leads : TokenKind → List Token → Prop
  | function _, ts => ts.head?.map Token.kind = some .openParen
  | identifier _, ts => ts.head?.map Token.kind ≠ some .openParen
  | _, _ => True

/-- The words of tokens from left to right, each at its offset and as long as can be, with only
blanks around them, make up a text that stands `offset` bytes after the beginning. -/
inductive Covers : Nat → List Char → List Token → Prop where
  | done (offset : Nat) : Covers offset [] [⟨.endOfInput, offset⟩]
  | blank {offset : Nat} {c : Char} {cs : List Char} {ts : List Token}
      (hc : isBlankChar c = true) (h : Covers (offset + c.utf8Size) cs ts) :
      Covers offset (c :: cs) ts
  | token {offset : Nat} {word rest : List Char} {kind : TokenKind} {ts : List Token}
      (hword : Denotes word kind) (hlongest : Longest word rest) (hleads : kind.Leads ts)
      (h : Covers (offset + String.utf8Len word) rest ts) :
      Covers offset (word ++ rest) (⟨kind, offset⟩ :: ts)

variable {c : Char} {cs word rest : List Char} {kind : TokenKind} {offset : Nat} {ts : List Token}

namespace Covers

/-- The first token is a parenthesis if the text begins with one, blanks apart. -/
theorem head_eq_openParen_iff (h : Covers offset cs ts) :
    ts.head?.map Token.kind = some .openParen ↔ (trimStart cs).head? = some '(' := by
  induction h with
  | done => simp [trimStart]
  | blank hc _ ih => simpa [trimStart, hc] using ih
  | token hword =>
    obtain ⟨c, more, rfl⟩ := hword.exists_cons
    obtain ⟨hblank, hparen⟩ := hword.head
    simpa [trimStart, hblank] using hparen

theorem leads_iff (h : Covers offset rest ts) : kind.Leads ts ↔ kind.Precedes rest := by
  cases kind with
  | function => exact h.head_eq_openParen_iff
  | identifier => exact not_congr h.head_eq_openParen_iff
  | _ => exact Iff.rfl

/-- The offsets go up, and the end of the input is the last token and no other. -/
theorem exists_eq_append (h : Covers offset cs ts) :
    ∃ body, ts = body ++ [⟨.endOfInput, offset + String.utf8Len cs⟩] ∧
      (∀ t ∈ body, t.kind.isEnd = false ∧ offset ≤ t.offset) ∧
      body.Pairwise (·.offset < ·.offset) := by
  induction h with
  | done offset => exact ⟨[], rfl, by simp, .nil⟩
  | @blank offset c cs ts hc _ ih =>
    obtain ⟨body, rfl, hbody, hpairwise⟩ := ih
    refine ⟨body, ?_, fun t ht => ?_, hpairwise⟩
    · rw [String.utf8Len_cons, Nat.add_assoc, Nat.add_comm c.utf8Size]
    · obtain ⟨hend, hle⟩ := hbody t ht
      exact ⟨hend, by omega⟩
  | @token offset word rest kind ts hword _ _ _ ih =>
    obtain ⟨body, rfl, hbody, hpairwise⟩ := ih
    have hend : kind.isEnd = false := by cases hword <;> rfl
    have hpos : 0 < String.utf8Len word := by
      obtain ⟨c, more, rfl⟩ := hword.exists_cons
      rw [String.utf8Len_cons]
      exact Nat.add_pos_right _ c.utf8Size_pos
    refine ⟨⟨kind, offset⟩ :: body, ?_, ?_, List.pairwise_cons.mpr ⟨?_, hpairwise⟩⟩
    · rw [String.utf8Len_append, Nat.add_assoc, List.cons_append]
    · refine List.forall_mem_cons.mpr ⟨⟨hend, le_rfl⟩, fun t ht => ?_⟩
      obtain ⟨hend, hle⟩ := hbody t ht
      exact ⟨hend, by omega⟩
    · intro t ht
      obtain ⟨-, hle⟩ := hbody t ht
      exact Nat.lt_of_lt_of_le (by simp; omega) hle

end Covers

/-! ### What the scanner makes of a text -/

theorem tokensFrom_blank (hc : isBlankChar c = true) (cs : List Char) (offset : Nat) :
    tokensFrom offset 0 (c :: cs) = tokensFrom (offset + c.utf8Size) 0 cs := by
  rw [tokensFrom]
  exact if_pos hc

theorem tokensFrom_word {more : List Char} (hc : isBlankChar c = false)
    (h : lexeme? c (more ++ rest) = some (kind, more.length)) (offset : Nat) :
    tokensFrom offset 0 (c :: more ++ rest) =
      (tokensFrom (offset + String.utf8Len (c :: more)) 0 rest).map (⟨kind, offset⟩ :: ·) := by
  rw [List.cons_append, tokensFrom]
  simp only [hc, Bool.false_eq_true, if_false, h, tokensFrom_skip, String.utf8Len_cons,
    Nat.add_assoc, Nat.add_comm c.utf8Size]

theorem tokensFrom_stuck (hc : isBlankChar c = false) (h : lexeme? c cs = none) (offset : Nat) :
    tokensFrom offset 0 (c :: cs) = .error (.unexpectedChar c offset) := by
  rw [tokensFrom]
  simp only [hc, Bool.false_eq_true, if_false, h]

/-- Induction along the words of a text, up to its end or a character that it is refused at. -/
theorem text_induction {P : Nat → List Char → Prop} (done : ∀ offset, P offset [])
    (blank : ∀ offset c cs, isBlankChar c = true → P (offset + c.utf8Size) cs → P offset (c :: cs))
    (word : ∀ offset c more rest kind, isBlankChar c = false →
      lexeme? c (more ++ rest) = some (kind, more.length) →
      P (offset + String.utf8Len (c :: more)) rest → P offset (c :: more ++ rest))
    (stuck : ∀ offset c cs, isBlankChar c = false → lexeme? c cs = none → P offset (c :: cs))
    (offset : Nat) (cs : List Char) : P offset cs := by
  -- Each token takes the whole of its word, so what follows is shorter.
  induction hlength : cs.length using Nat.strong_induction_on generalizing offset cs with
  | _ n ih =>
    subst hlength
    cases cs with
    | nil => exact done offset
    | cons c cs =>
      cases hc : isBlankChar c with
      | true => exact blank offset c cs hc (ih cs.length (Nat.lt_succ_self _) _ cs rfl)
      | false =>
        cases hlexeme : lexeme? c cs with
        | none => exact stuck offset c cs hc hlexeme
        | some taken =>
          obtain ⟨kind, n⟩ := taken
          obtain ⟨more, rest, rfl, rfl, -⟩ := lexeme?_eq_some_iff.mp hlexeme
          have hshorter : rest.length < (c :: (more ++ rest)).length := by
            simp only [List.length_cons, List.length_append]
            omega
          exact word offset c more rest kind hc hlexeme (ih rest.length hshorter _ rest rfl)

theorem covers_of_tokensFrom (offset : Nat) (cs : List Char) :
    ∀ ts, tokensFrom offset 0 cs = .ok ts → Covers offset cs ts := by
  induction offset, cs using text_induction with
  | done offset =>
    intro ts h
    obtain rfl := Except.ok.inj h
    exact .done offset
  | blank offset c cs hc ih =>
    intro ts h
    rw [tokensFrom_blank hc] at h
    exact .blank hc (ih ts h)
  | word offset c more rest kind hc hlexeme ih =>
    intro ts h
    rw [tokensFrom_word hc hlexeme] at h
    obtain ⟨us, hus, rfl⟩ := Fallible.map_eq_ok_iff.mp h
    obtain ⟨more', rest', heq, hlength, hword, hlongest, hprecedes⟩ :=
      lexeme?_eq_some_iff.mp hlexeme
    obtain ⟨rfl, rfl⟩ := List.append_inj heq hlength.symm
    exact .token hword hlongest ((ih us hus).leads_iff.mpr hprecedes) (ih us hus)
  | stuck offset c cs hc hlexeme =>
    intro ts h
    rw [tokensFrom_stuck hc hlexeme] at h
    cases h

theorem tokensFrom_of_covers (h : Covers offset cs ts) : tokensFrom offset 0 cs = .ok ts := by
  induction h with
  | done => rfl
  | blank hc _ ih => rw [tokensFrom_blank hc, ih]
  | token hword hlongest hleads hrest ih =>
    obtain ⟨c, more, rfl⟩ := hword.exists_cons
    have hlexeme := lexeme?_eq_some_iff.mpr
      ⟨more, _, rfl, rfl, hword, hlongest, hrest.leads_iff.mp hleads⟩
    rw [tokensFrom_word hword.head.1 hlexeme, ih]
    rfl

/-- A text is refused at a character that is not blank and where no word begins, and up to there
it can be cut into tokens. -/
theorem tokensFrom_eq_error (offset : Nat) (cs : List Char) :
    ∀ err, tokensFrom offset 0 cs = .error err →
      ∃ before c after us, cs = before ++ c :: after ∧
        err = .unexpectedChar c (offset + String.utf8Len before) ∧ isBlankChar c = false ∧
        (∀ word kind, Denotes word kind → ¬word <+: c :: after) ∧
        tokensFrom offset 0 before = .ok us := by
  induction offset, cs using text_induction with
  | done offset => exact nofun
  | blank offset c cs hc ih =>
    intro err h
    rw [tokensFrom_blank hc] at h
    obtain ⟨before, d, after, us, rfl, rfl, hd, hnone, hus⟩ := ih err h
    refine ⟨c :: before, d, after, us, rfl, ?_, hd, hnone, ?_⟩
    · rw [String.utf8Len_cons, Nat.add_assoc, Nat.add_comm c.utf8Size]
    · rw [tokensFrom_blank hc, hus]
  | word offset c more rest kind hc hlexeme ih =>
    intro err h
    rw [tokensFrom_word hc hlexeme] at h
    obtain ⟨before, d, after, us, rfl, rfl, hd, hnone, hus⟩ :=
      ih err (Fallible.map_eq_error_iff.mp h)
    -- Where a text is cut off after a name, the name may be of the other kind.
    obtain ⟨kind', hword⟩ := exists_lexeme?_of_prefix (List.prefix_append before _) hlexeme
    refine ⟨c :: more ++ before, d, after, ⟨kind', offset⟩ :: us, ?_, ?_, hd, hnone, ?_⟩
    · rw [List.append_assoc]
    · rw [String.utf8Len_append, Nat.add_assoc]
    · rw [tokensFrom_word hc hword, hus]
      rfl
  | stuck offset c cs hc hlexeme =>
    intro err h
    rw [tokensFrom_stuck hc hlexeme] at h
    obtain rfl := Except.error.inj h
    exact ⟨[], c, cs, _, rfl, rfl, hc, lexeme?_eq_none_iff.mp hlexeme, rfl⟩

/-- A text is cut into the only tokens that cover it, or is refused at a character where no token
begins. -/
theorem tokenize_covers (text : String) :
    (∀ ts, tokenize text = .ok ts ↔ Covers 0 text.toList ts) ∧
      (∀ ts, Covers 0 text.toList ts →
        ∃ body, ts = body ++ [⟨.endOfInput, text.utf8ByteSize⟩] ∧
          (∀ t ∈ body, t.kind.isEnd = false) ∧ body.Pairwise (·.offset < ·.offset)) ∧
      ∀ err, tokenize text = .error err →
        ∃ before c after us, text.toList = before ++ c :: after ∧
          err = .unexpectedChar c (String.ofList before).utf8ByteSize ∧ isBlankChar c = false ∧
          (∀ word kind, Denotes word kind → ¬word <+: c :: after) ∧
          tokenize (String.ofList before) = .ok us := by
  refine ⟨fun ts => ⟨covers_of_tokensFrom 0 _ ts, tokensFrom_of_covers⟩, ?_, ?_⟩
  · intro ts h
    obtain ⟨body, rfl, hbody, hpairwise⟩ := h.exists_eq_append
    refine ⟨body, ?_, fun t ht => (hbody t ht).1, hpairwise⟩
    rw [Nat.zero_add, String.utf8Len_toList]
  · intro err h
    obtain ⟨before, c, after, us, htext, herr, hc, hnone, hus⟩ := tokensFrom_eq_error 0 _ err h
    rw [Nat.zero_add, ← String.utf8ByteSize_ofList] at herr
    refine ⟨before, c, after, us, htext, herr, hc, hnone, ?_⟩
    rw [tokenize, String.toList_ofList, hus]

/-- A wide blank has three bytes. -/
example : tokenize "a\u3000+ ?" = .error (.unexpectedChar '?' 6) := by rfl

end TableImport.Expr
