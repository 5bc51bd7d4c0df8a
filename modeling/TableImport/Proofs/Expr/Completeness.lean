import TableImport.Proofs.Expr.Soundness

/-! Every expression of the grammar is parsed, so that parsing decides the grammar. -/
namespace TableImport.Expr

/-- The tokens behind a list of kinds that is known up to its first kind, or up to one inside. -/
theorem split_cons {ts : List Token} {k : TokenKind} {rs : List TokenKind}
    (h : ts.map Token.kind = k :: rs) :
    ∃ offset more, ts = ⟨k, offset⟩ :: more ∧ more.map Token.kind = rs := by
  obtain ⟨⟨kind, offset⟩, more, rfl, rfl, hmore⟩ := List.map_eq_cons_iff.1 h
  exact ⟨offset, more, rfl, hmore⟩

theorem split_at {ts : List Token} {ls rs : List TokenKind} {k : TokenKind}
    (h : ts.map Token.kind = ls ++ k :: rs) :
    ∃ before offset more, ts = before ++ ⟨k, offset⟩ :: more ∧ before.map Token.kind = ls ∧
      more.map Token.kind = rs := by
  obtain ⟨before, tail, rfl, hbefore, htail⟩ := List.map_eq_append_iff.1 h
  obtain ⟨offset, more, rfl, hmore⟩ := split_cons htail
  exact ⟨before, offset, more, rfl, hbefore, hmore⟩

theorem split_last {ts : List Token} {ls : List TokenKind} {k : TokenKind}
    (h : ts.map Token.kind = ls ++ [k]) :
    ∃ before offset, ts = before ++ [⟨k, offset⟩] ∧ before.map Token.kind = ls := by
  obtain ⟨before, offset, more, rfl, hbefore, hmore⟩ := split_at h
  obtain rfl := List.map_eq_nil_iff.1 hmore
  exact ⟨before, offset, rfl, hbefore⟩

theorem split_arguments {ts : List Token} {ks : List TokenKind} {kss : List (List TokenKind)}
    (hne : kss ≠ []) (h : ts.map Token.kind = [.comma].intercalate (ks :: kss)) :
    ∃ item offset more, ts = item ++ ⟨.comma, offset⟩ :: more ∧ item.map Token.kind = ks ∧
      more.map Token.kind = [.comma].intercalate kss := by
  rw [List.intercalate_cons_of_ne_nil hne, List.append_assoc, List.singleton_append] at h
  exact split_at h

/-- From any stack with room for the phrase the parser reads its tokens and is left with an
operand that closes, at the levels of the phrase, to the phrase's tree on that stack. -/
def Parses (last : Nat) (c : Category) (tokens : List Token) (e : Expr) : Prop :=
  ∀ stack rest, room stack ≤ c.level → ∃ e' stack',
    parseFrom last .operand stack (tokens ++ rest) = parseFrom last (.after e') stack' rest ∧
      ∀ k ≤ c.level, settle k e' stack' = settle k e stack

namespace Parses
variable {last offset : Nat} {c d : Category} {ls rs ts : List Token} {l r e : Expr}

theorem loosen (h : Parses last d ts e) (hcd : c.level ≤ d.level) : Parses last c ts e := by
  intro stack rest hroom
  obtain ⟨e', stack', hrun, hsettle⟩ := h stack rest (Nat.le_trans hroom hcd)
  exact ⟨e', stack', hrun, fun k hk => hsettle k (Nat.le_trans hk hcd)⟩

/-- A left operand and its operator are put on the stack. -/
theorem left_operand {op : BinaryOp} {stack : List Frame} (hl : Parses last op.category ls l)
    (hroom : room stack ≤ op.precedence) (rest : List Token) :
    parseFrom last .operand stack (ls ++ ⟨.operator op, offset⟩ :: rest) =
      parseFrom last .operand (.binary l op :: stack) rest := by
  obtain ⟨e', s', hrun, hsettle⟩ := hl stack (⟨.operator op, offset⟩ :: rest) (by simpa)
  have hclosed : settle op.precedence e' s' = (l, stack) := by
    rw [hsettle _ (by simp), settle_of_room hroom op.precedence_le_three]
  rw [hrun]
  simp only [parseFrom, hclosed]

theorem left_comparand {op : CompareOp} {stack : List Frame} (hl : Parses last .sum ls l)
    (hroom : room stack ≤ 1) (rest : List Token) :
    parseFrom last .operand stack (ls ++ ⟨.comparison op, offset⟩ :: rest) =
      parseFrom last .operand (.compare l op :: stack) rest := by
  have hloose : room stack ≤ 2 := Nat.le_succ_of_le hroom
  obtain ⟨e', s', hrun, hsettle⟩ := hl stack (⟨.comparison op, offset⟩ :: rest) hloose
  have hclosed : settle 2 e' s' = (l, stack) := by
    rw [hsettle 2 (by decide), settle_of_room hloose (by decide)]
  rw [hrun]
  simp only [parseFrom, hclosed]
  split
  · next hopen =>
    obtain ⟨rfl, rfl⟩ := Prod.mk.inj hopen
    exact absurd hroom (by simp [room])
  · next hsame =>
    obtain ⟨rfl, rfl⟩ := Prod.mk.inj hsame
    rfl

theorem binary (op : BinaryOp) (hl : Parses last op.category ls l)
    (hr : Parses last op.operand rs r) :
    Parses last op.category (ls ++ ⟨.operator op, offset⟩ :: rs) (.binary op l r) := by
  intro stack rest hroom
  rw [op.level_category] at hroom
  obtain ⟨e', s', hrun, hsettle⟩ := hr (.binary l op :: stack) rest (by simp [room])
  refine ⟨e', s', ?_, fun k hk => ?_⟩
  · rw [List.append_assoc, List.cons_append, hl.left_operand hroom, hrun]
  · rw [op.level_category] at hk
    rw [hsettle k (by simpa using Nat.le_succ_of_le hk)]
    simp [settle, hk]

theorem compare {op : CompareOp} (hl : Parses last .sum ls l) (hr : Parses last .sum rs r) :
    Parses last .expression (ls ++ ⟨.comparison op, offset⟩ :: rs) (.compare op l r) := by
  intro stack rest hroom
  obtain ⟨e', s', hrun, hsettle⟩ :=
    hr (.compare l op :: stack) rest (by simp [room, Category.level])
  refine ⟨e', s', ?_, fun k hk => ?_⟩
  · rw [List.append_assoc, List.cons_append, hl.left_comparand hroom, hrun]
  · rw [hsettle k (Nat.le_succ_of_le hk)]
    simp [settle, show k ≤ 1 from hk]

theorem negate (h : Parses last .unary ts e) :
    Parses last .unary (⟨.operator .sub, offset⟩ :: ts) (.negate e) := by
  intro stack rest _
  obtain ⟨e', s', hrun, hsettle⟩ := h (.negate :: stack) rest (room_le_four _)
  refine ⟨e', s', ?_, fun k hk => ?_⟩
  · simp only [List.cons_append, parseFrom, hrun]
  · rw [hsettle k hk]
    rfl

theorem number (x : Float) : Parses last .primary [⟨.number x, offset⟩] (.number x) :=
  fun stack rest _ => ⟨.number x, stack, by simp [parseFrom], fun _ _ => rfl⟩

theorem identifier (path : String) :
    Parses last .primary [⟨.identifier path, offset⟩] (.var path) :=
  fun stack rest _ => ⟨.var path, stack, by simp [parseFrom], fun _ _ => rfl⟩

theorem group {offset' : Nat} (h : Parses last .expression ts e) :
    Parses last .primary (⟨.openParen, offset⟩ :: (ts ++ [⟨.closeParen, offset'⟩])) e := by
  intro stack rest _
  obtain ⟨e', s', hrun, hsettle⟩ :=
    h (.group :: stack) (⟨.closeParen, offset'⟩ :: rest) (Nat.le_refl 1)
  have hclosed : settle 1 e' s' = (e, .group :: stack) := by
    rw [hsettle 1 (Nat.le_refl 1)]
    rfl
  refine ⟨e, stack, ?_, fun _ _ => rfl⟩
  rw [List.cons_append, List.append_assoc, List.singleton_append]
  simp only [parseFrom, hrun, hclosed]

/-- An argument takes the parser to the token after it, with the argument complete. -/
theorem argument {f : Function} {done : List Expr} {stack : List Frame}
    (h : Parses last .expression ts e) (rest : List Token) :
    ∃ e' stack', parseFrom last .operand (.call f done :: stack) (ts ++ rest) =
        parseFrom last (.after e') stack' rest ∧
      settle 1 e' stack' = (e, .call f done :: stack) := by
  obtain ⟨e', s', hrun, hsettle⟩ := h (.call f done :: stack) rest (Nat.le_refl 1)
  exact ⟨e', s', hrun, (hsettle 1 (Nat.le_refl 1)).trans rfl⟩

/-- An argument before a comma is added to those that are done. -/
theorem argument_comma {f : Function} {done : List Expr} {stack : List Frame}
    (h : Parses last .expression ts e) (rest : List Token) :
    parseFrom last .operand (.call f done :: stack) (ts ++ ⟨.comma, offset⟩ :: rest) =
      parseFrom last .operand (.call f (done ++ [e]) :: stack) rest := by
  obtain ⟨e', s', hrun, hclosed⟩ := h.argument (⟨.comma, offset⟩ :: rest)
  rw [hrun]
  simp only [parseFrom, hclosed]

theorem arguments {f : Function} {stack : List Frame} {a : List TokenKind × Expr}
    {args : List (List TokenKind × Expr)} {done : List Expr} {rest : List Token}
    (hargs : ∀ b ∈ a :: args, ∀ ts : List Token, ts.map Token.kind = b.1 →
      Parses last .expression ts b.2)
    (hts : ts.map Token.kind = [.comma].intercalate ((a :: args).map Prod.fst)) :
    parseFrom last .operand (.call f done :: stack) (ts ++ ⟨.closeParen, offset⟩ :: rest) = (do
      let e ← closeCall f (done ++ (a :: args).map Prod.snd)
      parseFrom last (.after e) stack rest) := by
  induction args generalizing a done ts with
  | nil =>
    have ha := hargs a (List.mem_singleton_self a) ts (by simpa using hts)
    obtain ⟨e', s', hrun, hclosed⟩ := ha.argument (⟨.closeParen, offset⟩ :: rest)
    rw [hrun]
    simp only [parseFrom, hclosed]
    rfl
  | cons b args ih =>
    obtain ⟨item, comma, more, rfl, hitem, hmore⟩ := split_arguments (by simp) hts
    have ha := hargs a List.mem_cons_self item hitem
    rw [List.append_assoc, List.cons_append, ha.argument_comma,
      ih (fun c hc => hargs c (List.mem_cons_of_mem a hc)) hmore]
    simp

/-- An argument list starts with the first token of its first argument. -/
theorem arguments_head {ks : List TokenKind} {kss : List (List TokenKind)}
    (hhead : ∃ k rest, ks = k :: rest ∧ k ≠ .closeParen)
    (hts : ts.map Token.kind = [.comma].intercalate (ks :: kss)) :
    ∃ t ts', ts = t :: ts' ∧ t.kind ≠ .closeParen := by
  obtain ⟨k, rest, rfl, hne⟩ := hhead
  have hcons : ∃ ks', ts.map Token.kind = k :: ks' := by
    cases kss with
    | nil => exact ⟨rest, by simpa using hts⟩
    | cons ls kss =>
      rw [hts, List.intercalate_cons_of_ne_nil (by simp)]
      exact ⟨_, rfl⟩
  obtain ⟨ks', hks'⟩ := hcons
  obtain ⟨t, ts', rfl, rfl, -⟩ := List.map_eq_cons_iff.1 hks'
  exact ⟨t, ts', rfl, hne⟩

theorem opening {f : Function} {name : String} {opening : Nat}
    (hname : f.name = name.map Char.toLower) (stack : List Frame) (rest : List Token) :
    parseFrom last .operand stack (⟨.function name, offset⟩ :: ⟨.openParen, opening⟩ :: rest) =
      parseFrom last .firstArgument (.call f [] :: stack) rest := by
  simp only [parseFrom, lookup?_eq_some_iff.2 hname]

/-- The number of arguments of a call is checked when it is closed. -/
theorem closing {f : Function} {close : Nat} {args : List (List TokenKind × Expr)}
    (hargs : ∀ a ∈ args, ∀ ts : List Token, ts.map Token.kind = a.1 →
      Parses last .expression ts a.2)
    (hhead : ∀ a ∈ args, ∃ k ks, a.1 = k :: ks ∧ k ≠ .closeParen)
    (hts : ts.map Token.kind = [.comma].intercalate (args.map Prod.fst)) (stack : List Frame)
    (rest : List Token) :
    parseFrom last .firstArgument (.call f [] :: stack) (ts ++ ⟨.closeParen, close⟩ :: rest) = (do
      let e ← closeCall f (args.map Prod.snd)
      parseFrom last (.after e) stack rest) := by
  cases args with
  | nil =>
    obtain rfl := List.map_eq_nil_iff.1 hts
    simp only [List.nil_append, parseFrom, List.map_nil]
  | cons a args =>
    obtain ⟨t, ts', rfl, hne⟩ := arguments_head (hhead a List.mem_cons_self) hts
    rw [List.cons_append, parseFrom_firstArgument hne, ← List.cons_append, arguments hargs hts,
      List.nil_append]

theorem call {f : Function} {name : String} {opening close : Nat}
    {args : List (List TokenKind × Expr)} (hname : f.name = name.map Char.toLower)
    (hcount : f.accepts args.length)
    (hargs : ∀ a ∈ args, ∀ ts : List Token, ts.map Token.kind = a.1 →
      Parses last .expression ts a.2)
    (hhead : ∀ a ∈ args, ∃ k ks, a.1 = k :: ks ∧ k ≠ .closeParen)
    (hts : ts.map Token.kind = [.comma].intercalate (args.map Prod.fst)) :
    Parses last .primary
      (⟨.function name, offset⟩ :: ⟨.openParen, opening⟩ :: (ts ++ [⟨.closeParen, close⟩]))
      (.call f.name (args.map Prod.snd)) := by
  intro stack rest _
  have hclose : closeCall f (args.map Prod.snd) = .ok (.call f.name (args.map Prod.snd)) :=
    closeCall_eq_ok_iff.2 ⟨by simpa using hcount, rfl⟩
  refine ⟨.call f.name (args.map Prod.snd), stack, ?_, fun _ _ => rfl⟩
  rw [List.cons_append, List.cons_append, List.append_assoc, List.singleton_append,
    Parses.opening hname, closing hargs hhead hts, hclose]
  rfl

end Parses

/-- A phrase is not empty and does not start with a closing parenthesis. -/
theorem Derives.head {c : Category} {ks : List TokenKind} {e : Expr} (h : Derives c ks e) :
    ∃ k rest, ks = k :: rest ∧ k ≠ .closeParen := by
  induction h with
  | sumAlone _ ih | productAlone _ ih | unaryAlone _ ih | primaryAlone _ ih => exact ih
  | comparison _ _ _ ihl _ | addition _ _ _ ihl _ | multiplication _ _ _ ihl _ =>
    obtain ⟨k, rest, rfl, hk⟩ := ihl
    exact ⟨k, _, rfl, hk⟩
  | _ => exact ⟨_, _, rfl, by simp⟩

theorem Derives.parses {c : Category} {ks : List TokenKind} {e : Expr} (h : Derives c ks e)
    (last : Nat) (ts : List Token) (hts : ts.map Token.kind = ks) : Parses last c ts e := by
  induction h generalizing ts with
  | sumAlone _ ih | productAlone _ ih | unaryAlone _ ih | primaryAlone _ ih =>
    exact (ih ts hts).loosen (by decide)
  | comparison op _ _ ihl ihr =>
    obtain ⟨ls, offset, rs, rfl, hls, hrs⟩ := split_at hts
    exact (ihl ls hls).compare (ihr rs hrs)
  | addition hop _ _ ihl ihr =>
    obtain ⟨ls, offset, rs, rfl, hls, hrs⟩ := split_at hts
    rcases hop with rfl | rfl
    · exact .binary .add (ihl ls hls) (ihr rs hrs)
    · exact .binary .sub (ihl ls hls) (ihr rs hrs)
  | multiplication hop _ _ ihl ihr =>
    obtain ⟨ls, offset, rs, rfl, hls, hrs⟩ := split_at hts
    rcases hop with rfl | rfl
    · exact .binary .mul (ihl ls hls) (ihr rs hrs)
    · exact .binary .div (ihl ls hls) (ihr rs hrs)
  | negation _ ih =>
    obtain ⟨offset, rs, rfl, hrs⟩ := split_cons hts
    exact (ih rs hrs).negate
  | number x =>
    obtain ⟨offset, rs, rfl, hrs⟩ := split_cons hts
    obtain rfl := List.map_eq_nil_iff.1 hrs
    exact .number x
  | identifier path =>
    obtain ⟨offset, rs, rfl, hrs⟩ := split_cons hts
    obtain rfl := List.map_eq_nil_iff.1 hrs
    exact .identifier path
  | call args hname hcount hargs ih =>
    obtain ⟨offset, more, rfl, hmore⟩ := split_cons hts
    obtain ⟨opening, tail, rfl, htail⟩ := split_cons hmore
    obtain ⟨inner, close, rfl, hinner⟩ := split_last htail
    exact .call hname hcount ih (fun a ha => (hargs a ha).head) hinner
  | group _ ih =>
    obtain ⟨offset, more, rfl, hmore⟩ := split_cons hts
    obtain ⟨inner, close, rfl, hinner⟩ := split_last hmore
    exact (ih inner hinner).group

/-- The tokens before the end of the input, and what is left from there on. -/
theorem split_beforeEnd (ts : List Token) : ∃ inside rest, ts = inside ++ rest ∧
    inside.map Token.kind = beforeEnd ts ∧ ∀ t ∈ rest.head?, t.kind = .endOfInput := by
  induction ts with
  | nil => exact ⟨[], [], rfl, rfl, by simp⟩
  | cons t ts ih =>
    cases hend : t.kind.isEnd with
    | true =>
      refine ⟨[], t :: ts, rfl, by simp [beforeEnd, hend], ?_⟩
      intro u hu
      obtain rfl : t = u := by simpa using hu
      obtain ⟨kind, offset⟩ := t
      cases kind <;> simp [TokenKind.isEnd] at hend ⊢
    | false =>
      obtain ⟨inside, rest, rfl, hinside, hrest⟩ := ih
      refine ⟨t :: inside, rest, rfl, ?_, hrest⟩
      simpa [beforeEnd, hend] using hinside

theorem parseTokens_of_derives {ts : List Token} {e : Expr}
    (h : Derives .expression (beforeEnd ts) e) : parseTokens ts = .ok e := by
  obtain ⟨inside, rest, hsplit, hinside, hrest⟩ := split_beforeEnd ts
  obtain ⟨e', stack, hrun, hsettle⟩ :=
    h.parses (ts.getLast?.elim 0 Token.offset) inside hinside [] rest (Nat.le_refl 1)
  have hclosed : settle 1 e' stack = (e, []) := (hsettle 1 (Nat.le_refl 1)).trans rfl
  rw [parseTokens]
  generalize ts.getLast?.elim 0 Token.offset = last at hrun ⊢
  rw [hsplit, hrun]
  cases rest with
  | nil => simp only [parseFrom, hclosed]
  | cons t rest =>
    obtain ⟨kind, offset⟩ := t
    obtain rfl : kind = .endOfInput := hrest _ rfl
    simp only [parseFrom, hclosed]

theorem derives_of_parseTokens {ts : List Token} {e : Expr} (h : parseTokens ts = .ok e) :
    Derives .expression (beforeEnd ts) e := by
  have hstart : Pending .operand [] [] := .start
  simpa using derives_of_parseFrom hstart h

/-- Parsing accepts a list of tokens exactly when the kinds before the end of the input are an
expression of the grammar, and gives its tree; it refuses every other list. -/
theorem parseTokens_eq_ok_iff_derives (ts : List Token) :
    (∀ e, parseTokens ts = .ok e ↔ Derives .expression (beforeEnd ts) e) ∧
      ((∃ err, parseTokens ts = .error err) ↔ ¬∃ e, Derives .expression (beforeEnd ts) e) := by
  have haccepts : ∀ e, parseTokens ts = .ok e ↔ Derives .expression (beforeEnd ts) e :=
    fun e => ⟨derives_of_parseTokens, parseTokens_of_derives⟩
  refine ⟨haccepts, ?_⟩
  cases h : parseTokens ts with
  | error err =>
    simp [← haccepts, h]
  | ok e =>
    simp [← haccepts, h]

end TableImport.Expr
