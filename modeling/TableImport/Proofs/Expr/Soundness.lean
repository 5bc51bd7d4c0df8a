import TableImport.Proofs.Expr.Grammar

/-! Every tree that the parser gives is one of the grammar: the open frames and the mode account for
all tokens read so far, and each step keeps this. -/
namespace TableImport.Expr

/-- The kinds of the tokens behind a stack of open frames. -/
inductive Opened : List Frame → List TokenKind → Prop where
  | start : Opened [] []
  | negate {stack ks} (h : Opened stack ks) : Opened (.negate :: stack) (ks ++ [.operator .sub])
  | binary {stack ks ls l op} (h : Opened stack ks) (hroom : room stack ≤ op.precedence)
      (hl : Derives op.category ls l) :
      Opened (.binary l op :: stack) (ks ++ (ls ++ [.operator op]))
  | compare {stack ks ls l} (op : CompareOp) (h : Opened stack ks) (hroom : room stack ≤ 1)
      (hl : Derives .sum ls l) : Opened (.compare l op :: stack) (ks ++ (ls ++ [.comparison op]))
  | group {stack ks} (h : Opened stack ks) : Opened (.group :: stack) (ks ++ [.openParen])
  | call {stack ks name f} (args : List (List TokenKind × Expr)) (h : Opened stack ks)
      (hname : f.name = name.map Char.toLower)
      (hargs : ∀ a ∈ args, Derives .expression a.1 a.2) :
      Opened (.call f (args.map Prod.snd) :: stack)
        (ks ++ .function name :: .openParen :: args.flatMap fun a => a.1 ++ [.comma])

/-- Closing frames moves tokens from the stack to the operand and keeps their order. -/
theorem Opened.settle {c d : Category} {stack : List Frame} {ks xs : List TokenKind} {e : Expr}
    (h : Opened stack ks) (hroom : room stack ≤ c.level) (he : Derives c xs e)
    (hdc : d.level ≤ c.level) (hd : d.level ≤ 3) :
    ∃ ks' xs', ks ++ xs = ks' ++ xs' ∧ Opened (settle d.level e stack).2 ks' ∧
      room (Expr.settle d.level e stack).2 ≤ d.level ∧
      Derives d xs' (Expr.settle d.level e stack).1 := by
  -- A frame that stays open has room at the level asked for; one that closes makes a looser
  -- operand for the frames below it.
  induction h generalizing c xs e with
  | start =>
    exact ⟨[], xs, rfl, .start, d.one_le_level, he.loosen hdc⟩
  | @negate stack ks h ih =>
    have he' : Derives .unary xs e := he.loosen hroom
    obtain ⟨ks', xs', heq, hrest⟩ := ih (c := .unary) (room_le_four stack) he'.negation
      (Nat.le_trans hd (by decide))
    exact ⟨ks', xs', by simpa using heq, hrest⟩
  | @binary stack ks ls l op h hfits hl ih =>
    by_cases hclose : d.level ≤ op.precedence
    · have hr : Derives op.operand xs e := he.loosen (by simpa [room] using hroom)
      obtain ⟨ks', xs', heq, hrest⟩ := ih (c := op.category) (by simpa using hfits)
        (hl.binary hr) (by simpa using hclose)
      refine ⟨ks', xs', by simpa using heq, ?_⟩
      simpa [Expr.settle, hclose] using hrest
    · refine ⟨_, xs, rfl, ?_⟩
      simp only [Expr.settle, hclose, if_false]
      exact ⟨.binary h hfits hl, by simp [room]; omega, he.loosen hdc⟩
  | @compare stack ks ls l op h hfits hl ih =>
    by_cases hclose : d.level ≤ 1
    · have hr : Derives .sum xs e := he.loosen hroom
      obtain ⟨ks', xs', heq, hrest⟩ := ih (c := .expression) hfits (.comparison op hl hr) hclose
      refine ⟨ks', xs', by simpa using heq, ?_⟩
      simpa [Expr.settle, hclose] using hrest
    · refine ⟨_, xs, rfl, ?_⟩
      simp only [Expr.settle, hclose, if_false]
      exact ⟨.compare op h hfits hl, by simp [room]; omega, he.loosen hdc⟩
  | group h ih =>
    exact ⟨_, xs, rfl, .group h, d.one_le_level, he.loosen hdc⟩
  | call args h hname hargs ih =>
    exact ⟨_, xs, rfl, .call args h hname hargs, d.one_le_level, he.loosen hdc⟩

/-- The tokens of arguments that are separated, and of one more, are those of an argument list. -/
theorem intercalate_snoc (args : List (List TokenKind × Expr)) (a : List TokenKind × Expr) :
    [TokenKind.comma].intercalate ((args ++ [a]).map Prod.fst) =
      (args.flatMap fun b => b.1 ++ [.comma]) ++ a.1 := by
  induction args with
  | nil => simp
  | cons b rest ih =>
    have hrest : (rest ++ [a]).map Prod.fst ≠ [] := by simp
    rw [List.cons_append, List.map_cons, List.intercalate_cons_of_ne_nil hrest, ih]
    simp

theorem derives_snoc {args : List (List TokenKind × Expr)} {xs : List TokenKind} {e : Expr}
    (hargs : ∀ a ∈ args, Derives .expression a.1 a.2) (he : Derives .expression xs e) :
    ∀ a ∈ args ++ [(xs, e)], Derives .expression a.1 a.2 := by
  intro a ha
  rcases List.mem_append.1 ha with ha | ha
  · exact hargs a ha
  · obtain rfl := List.mem_singleton.1 ha
    exact he

/-- What the parser's mode says about the tokens read so far. -/
def Pending (mode : Mode) (stack : List Frame) (ks : List TokenKind) : Prop :=
  match mode with
  | .operand => Opened stack ks
  | .firstArgument => Opened stack ks ∧ ∃ f rest, stack = .call f [] :: rest
  | .opening f => ∃ ks' name, ks = ks' ++ [.function name] ∧ f.name = name.map Char.toLower ∧
      Opened stack ks'
  | .after e => ∃ ks' xs, ks = ks' ++ xs ∧ Opened stack ks' ∧ Derives .primary xs e

/-- The operand and the open frames once everything that binds at a level is closed. -/
theorem Pending.settle {stack : List Frame} {ks : List TokenKind} {e : Expr} (d : Category)
    (hd : d.level ≤ 3) (h : Pending (.after e) stack ks) :
    ∃ ks' xs, ks = ks' ++ xs ∧ Opened (settle d.level e stack).2 ks' ∧
      room (Expr.settle d.level e stack).2 ≤ d.level ∧
      Derives d xs (Expr.settle d.level e stack).1 := by
  obtain ⟨ks', xs, rfl, hopen, he⟩ := h
  have hroom : room stack ≤ Category.primary.level := Nat.le_succ_of_le (room_le_four stack)
  exact hopen.settle hroom he (Nat.le_trans hd (by decide)) hd

/-- A call is a phrase once its parenthesis closes. -/
theorem Opened.closed {f : Function} {stack : List Frame} {ks : List TokenKind} {e : Expr}
    (h : Opened (.call f [] :: stack) ks) (hclose : closeCall f [] = .ok e) :
    Pending (.after e) stack (ks ++ [.closeParen]) := by
  obtain ⟨hcount, rfl⟩ := closeCall_eq_ok_iff.1 hclose
  generalize hargs : ([] : List Expr) = args at h
  cases h with
  | @call stack ks name f args h hname hds =>
    obtain rfl := List.map_eq_nil_iff.1 hargs.symm
    refine ⟨ks, _, ?_, h, .call [] hname hcount (by simp)⟩
    simp

theorem Opened.closedAfter {f : Function} {args : List Expr} {stack : List Frame}
    {ks xs : List TokenKind} {e last : Expr} (h : Opened (.call f args :: stack) ks)
    (hlast : Derives .expression xs last) (hclose : closeCall f (args ++ [last]) = .ok e) :
    Pending (.after e) stack (ks ++ xs ++ [.closeParen]) := by
  obtain ⟨hcount, rfl⟩ := closeCall_eq_ok_iff.1 hclose
  cases h with
  | @call stack ks name f args h hname hds =>
    have hcall := Derives.call (args ++ [(xs, last)]) hname (by simpa using hcount)
      (derives_snoc hds hlast)
    rw [intercalate_snoc] at hcall
    refine ⟨ks, _, ?_, h, by simpa using hcall⟩
    simp

/-- The parser takes a token and goes on from a state that accounts for it. -/
def Advances (last : Nat) (ks : List TokenKind) (t : Token) (ts : List Token) (e : Expr) : Prop :=
  t.kind.isEnd = false ∧ ∃ mode stack, Pending mode stack (ks ++ [t.kind]) ∧
    parseFrom last mode stack ts = .ok e

section
variable {last : Nat} {stack : List Frame} {ks : List TokenKind} {t : Token} {ts : List Token}
  {e : Expr}

theorem parseFrom_firstArgument (h : t.kind ≠ .closeParen) :
    parseFrom last .firstArgument stack (t :: ts) = parseFrom last .operand stack (t :: ts) := by
  obtain ⟨kind, offset⟩ := t
  cases kind with
  | closeParen => exact absurd rfl h
  | operator op => cases op <;> simp only [parseFrom]
  | _ => simp only [parseFrom]

theorem operand_advances (h : Opened stack ks)
    (hrun : parseFrom last .operand stack (t :: ts) = .ok e) : Advances last ks t ts e := by
  obtain ⟨kind, offset⟩ := t
  cases kind with
  | number x =>
    exact ⟨rfl, .after (.number x), stack, ⟨ks, _, rfl, h, .number x⟩,
      by simpa [parseFrom] using hrun⟩
  | identifier path =>
    exact ⟨rfl, .after (.var path), stack, ⟨ks, _, rfl, h, .identifier path⟩,
      by simpa [parseFrom] using hrun⟩
  | function name =>
    cases hf : Function.lookup? name with
    | none => simp [parseFrom, hf] at hrun
    | some f =>
      exact ⟨rfl, .opening f, stack, ⟨ks, name, rfl, name_of_lookup? hf, h⟩,
        by simpa [parseFrom, hf] using hrun⟩
  | operator op =>
    cases op with
    | sub => exact ⟨rfl, .operand, _, h.negate, by simpa [parseFrom] using hrun⟩
    | _ => simp [parseFrom] at hrun
  | openParen => exact ⟨rfl, .operand, _, h.group, by simpa [parseFrom] using hrun⟩
  | _ => simp [parseFrom] at hrun

theorem firstArgument_advances (h : Pending .firstArgument stack ks)
    (hrun : parseFrom last .firstArgument stack (t :: ts) = .ok e) : Advances last ks t ts e := by
  by_cases hclose : t.kind = .closeParen
  · obtain ⟨kind, offset⟩ := t
    obtain rfl : kind = .closeParen := hclose
    obtain ⟨hopen, f, rest, rfl⟩ := h
    cases hcall : closeCall f [] with
    | error err => simp [parseFrom, hcall, bind, Except.bind] at hrun
    | ok call =>
      exact ⟨rfl, .after call, rest, hopen.closed hcall,
        by simpa [parseFrom, hcall, bind, Except.bind] using hrun⟩
  · rw [parseFrom_firstArgument hclose] at hrun
    exact operand_advances h.1 hrun

theorem opening_advances {f : Function} (h : Pending (.opening f) stack ks)
    (hrun : parseFrom last (.opening f) stack (t :: ts) = .ok e) : Advances last ks t ts e := by
  obtain ⟨ks, name, rfl, hname, hopen⟩ := h
  obtain ⟨kind, offset⟩ := t
  cases kind with
  | openParen =>
    refine ⟨rfl, .firstArgument, .call f [] :: stack, ⟨?_, f, stack, rfl⟩,
      by simpa [parseFrom] using hrun⟩
    simpa using Opened.call [] hopen hname (by simp)
  | _ => simp [parseFrom] at hrun

/-- What is complete to the left of a token that does not belong to an operand. -/
theorem Pending.complete {x : Expr} (h : Pending (.after x) stack ks) :
    ∃ y rest ks' xs, Expr.settle 1 x stack = (y, rest) ∧ ks = ks' ++ xs ∧ Opened rest ks' ∧
      Derives .expression xs y := by
  obtain ⟨ks', xs, hks, hopen, -, hd⟩ := h.settle .expression (by decide)
  exact ⟨_, _, ks', xs, rfl, hks, hopen, hd⟩

theorem operator_advances {x : Expr} {op : BinaryOp} {offset : Nat}
    (h : Pending (.after x) stack ks)
    (hrun : parseFrom last (.after x) stack (⟨.operator op, offset⟩ :: ts) = .ok e) :
    Advances last ks ⟨.operator op, offset⟩ ts e := by
  obtain ⟨ks', xs, rfl, hopen, hroom, hd⟩ :=
    h.settle op.category (by simpa using op.precedence_le_three)
  simp only [BinaryOp.level_category] at hopen hroom hd
  have hnext := hopen.binary hroom hd
  exact ⟨rfl, .operand, _, by simpa [Pending] using hnext, by simpa only [parseFrom] using hrun⟩

theorem comparison_advances {x : Expr} {op : CompareOp} {offset : Nat}
    (h : Pending (.after x) stack ks)
    (hrun : parseFrom last (.after x) stack (⟨.comparison op, offset⟩ :: ts) = .ok e) :
    Advances last ks ⟨.comparison op, offset⟩ ts e := by
  obtain ⟨ks', xs, rfl, hopen, hroom, hd⟩ := h.settle .sum (by decide)
  simp only [Category.level] at hopen hroom hd
  simp only [parseFrom] at hrun
  split at hrun
  · cases hrun
  · next y rest hchain hsettled =>
    rw [hsettled] at hopen hroom hd
    -- A comparison that is still open refuses a second one, so what is open has room for one.
    have hloose : room rest ≤ 1 := by
      cases rest with
      | nil => exact Nat.le_refl 1
      | cons frame rest =>
        cases frame with
        | group => exact Nat.le_refl 1
        | call f args => exact Nat.le_refl 1
        | negate => exact absurd hroom (by simp [room])
        | binary l op => cases op <;> simp [room, BinaryOp.precedence] at hroom
        | compare l op => exact (hchain l op rest rfl).elim
    have hnext := hopen.compare op hloose hd
    exact ⟨rfl, .operand, _, by simpa [Pending] using hnext, hrun⟩

theorem after_advances {x : Expr} (h : Pending (.after x) stack ks)
    (hrun : parseFrom last (.after x) stack (t :: ts) = .ok e) :
    (t.kind.isEnd = true ∧ Derives .expression ks e) ∨ Advances last ks t ts e := by
  obtain ⟨kind, offset⟩ := t
  obtain ⟨y, rest, ks', xs, hsettled, hks, hopen, hd⟩ := h.complete
  cases kind with
  | operator op => exact .inr (operator_advances h hrun)
  | comparison op => exact .inr (comparison_advances h hrun)
  | endOfInput =>
    simp only [parseFrom, hsettled] at hrun
    cases hopen with
    | start =>
      obtain rfl : y = e := by simpa using hrun
      exact .inl ⟨rfl, by simpa [hks] using hd⟩
    | _ => simp at hrun
  | closeParen =>
    simp only [parseFrom, hsettled] at hrun
    cases hopen with
    | @group stack ks hopen =>
      refine .inr ⟨rfl, .after y, stack, ?_, by simpa using hrun⟩
      exact ⟨ks, _, by simp [hks], hopen, .group hd⟩
    | @call stack ks name f args hopen hname hargs =>
      cases hcall : closeCall f (args.map Prod.snd ++ [y]) with
      | error err => simp [hcall, bind, Except.bind] at hrun
      | ok call =>
        refine .inr ⟨rfl, .after call, stack, ?_, by simpa [hcall, bind, Except.bind] using hrun⟩
        rw [hks]
        exact (Opened.call args hopen hname hargs).closedAfter hd hcall
    | _ => simp at hrun
  | comma =>
    simp only [parseFrom, hsettled] at hrun
    cases hopen with
    | @call stack ks name f args hopen hname hargs =>
      refine .inr ⟨rfl, .operand, .call f (args.map Prod.snd ++ [y]) :: stack, ?_,
        by simpa using hrun⟩
      simpa [Pending, hks] using Opened.call _ hopen hname (derives_snoc hargs hd)
    | _ => simp at hrun
  | _ =>
    simp only [parseFrom, hsettled] at hrun
    cases hrun

/-- A run of the parser ends in a tree of all tokens up to the end of the input. -/
theorem derives_of_parseFrom {mode : Mode} (h : Pending mode stack ks)
    (hrun : parseFrom last mode stack ts = .ok e) : Derives .expression (ks ++ beforeEnd ts) e := by
  induction ts generalizing mode stack ks with
  | nil =>
    cases mode with
    | after x =>
      obtain ⟨y, rest, ks', xs, hsettled, rfl, hopen, hd⟩ := h.complete
      simp only [parseFrom, hsettled] at hrun
      cases hopen with
      | start =>
        obtain rfl : y = e := by simpa using hrun
        simpa [beforeEnd] using hd
      | _ => simp at hrun
    | _ => simp [parseFrom] at hrun
  | cons t ts ih =>
    have goesOn : Advances last ks t ts e → Derives .expression (ks ++ beforeEnd (t :: ts)) e := by
      rintro ⟨hinside, mode, stack, hpending, hrun⟩
      simpa [beforeEnd, hinside] using ih hpending hrun
    cases mode with
    | operand => exact goesOn (operand_advances h hrun)
    | firstArgument => exact goesOn (firstArgument_advances h hrun)
    | opening f => exact goesOn (opening_advances h hrun)
    | after x =>
      rcases after_advances h hrun with ⟨hend, hd⟩ | hstep
      · simpa [beforeEnd, hend] using hd
      · exact goesOn hstep

end

end TableImport.Expr
