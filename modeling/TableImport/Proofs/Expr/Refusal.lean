import TableImport.Proofs.Expr.Completeness

/-! Phrases with a call that is none of the grammar's: the parser refuses them wherever they
stand. -/
namespace TableImport.Expr

/-- Tokens that stop the parser, whatever is open before them and whatever stands after them. -/
structure Refused (c : Category) (kinds : List TokenKind) : Prop where
  head : ∃ k rest, kinds = k :: rest ∧ k ≠ .closeParen
  stops : ∀ (last : Nat) (ts : List Token), ts.map Token.kind = kinds →
    ∀ stack rest, room stack ≤ c.level →
      ∃ err, parseFrom last .operand stack (ts ++ rest) = .error err

namespace Refused
variable {c d : Category} {ks ls rs : List TokenKind} {l : Expr}

theorem loosen (h : Refused d ks) (hcd : c.level ≤ d.level) : Refused c ks where
  head := h.head
  stops last ts hts stack rest hroom := h.stops last ts hts stack rest (Nat.le_trans hroom hcd)

theorem append (h : Refused c ks) (more : List TokenKind) : Refused c (ks ++ more) where
  head := by
    obtain ⟨k, rest, rfl, hk⟩ := h.head
    exact ⟨k, rest ++ more, rfl, hk⟩
  stops last ts hts stack rest hroom := by
    obtain ⟨first, second, rfl, hfirst, -⟩ := List.map_eq_append_iff.1 hts
    rw [List.append_assoc]
    exact h.stops last first hfirst stack (second ++ rest) hroom

theorem right_operand {op : BinaryOp} (hl : Derives op.category ls l)
    (hr : Refused op.operand rs) : Refused op.category (ls ++ .operator op :: rs) where
  head := by
    obtain ⟨k, rest, rfl, hk⟩ := hl.head
    exact ⟨k, rest ++ .operator op :: rs, rfl, hk⟩
  stops last ts hts stack rest hroom := by
    obtain ⟨first, offset, second, rfl, hfirst, hsecond⟩ := split_at hts
    rw [op.level_category] at hroom
    rw [List.append_assoc, List.cons_append, (hl.parses last first hfirst).left_operand hroom]
    exact hr.stops last second hsecond (.binary l op :: stack) rest (by simp [room])

theorem right_comparand {op : CompareOp} (hl : Derives .sum ls l) (hr : Refused .sum rs) :
    Refused .expression (ls ++ .comparison op :: rs) where
  head := by
    obtain ⟨k, rest, rfl, hk⟩ := hl.head
    exact ⟨k, rest ++ .comparison op :: rs, rfl, hk⟩
  stops last ts hts stack rest hroom := by
    obtain ⟨first, offset, second, rfl, hfirst, hsecond⟩ := split_at hts
    rw [List.append_assoc, List.cons_append, (hl.parses last first hfirst).left_comparand hroom]
    exact hr.stops last second hsecond (.compare l op :: stack) rest (Nat.le_refl 2)

theorem negate (h : Refused .unary ks) : Refused .unary (.operator .sub :: ks) where
  head := ⟨_, ks, rfl, by simp⟩
  stops last ts hts stack rest _ := by
    obtain ⟨offset, operand, rfl, hoperand⟩ := split_cons hts
    rw [List.cons_append]
    simp only [parseFrom]
    exact h.stops last operand hoperand (.negate :: stack) rest (Nat.le_refl 4)

theorem group (h : Refused .expression ks) :
    Refused .primary (.openParen :: (ks ++ [.closeParen])) where
  head := ⟨_, _, rfl, by simp⟩
  stops last ts hts stack rest _ := by
    obtain ⟨offset, inner, rfl, hinner⟩ := split_cons hts
    rw [List.cons_append]
    simp only [parseFrom]
    exact (h.append [.closeParen]).stops last inner hinner (.group :: stack) rest (Nat.le_refl 1)

/-- A name of no function is refused before its arguments are looked at. -/
theorem unknown {name : String} (h : Function.lookup? name = none) (more : List TokenKind) :
    Refused .primary (.function name :: more) where
  head := ⟨_, more, rfl, by simp⟩
  stops last ts hts stack rest _ := by
    obtain ⟨offset, tail, rfl, -⟩ := split_cons hts
    rw [List.cons_append]
    simp only [parseFrom, h]
    exact ⟨_, rfl⟩

/-- A call is refused at its end if its arguments are too few or too many. -/
theorem count {name : String} {f : Function} {args : List (List TokenKind × Expr)}
    (hname : f.name = name.map Char.toLower) (hcount : ¬f.accepts args.length)
    (hargs : ∀ a ∈ args, Derives .expression a.1 a.2) :
    Refused .primary (.function name :: .openParen ::
      ([.comma].intercalate (args.map Prod.fst) ++ [.closeParen])) where
  head := ⟨_, _, rfl, by simp⟩
  stops last ts hts stack rest _ := by
    obtain ⟨offset, more, rfl, hmore⟩ := split_cons hts
    obtain ⟨opening, tail, rfl, htail⟩ := split_cons hmore
    obtain ⟨inner, close, rfl, hinner⟩ := split_last htail
    have hclose : closeCall f (args.map Prod.snd) = .error (.argumentCount f args.length) := by
      rw [closeCall, List.length_map, if_neg hcount]
    rw [List.cons_append, List.cons_append, List.append_assoc, List.singleton_append,
      Parses.opening hname,
      Parses.closing (fun a ha => (hargs a ha).parses last) (fun a ha => (hargs a ha).head) hinner,
      hclose]
    exact ⟨_, rfl⟩

end Refused

/-- How tokens of these kinds are read: as a phrase with a tree or, without one, not at all. -/
def Reads (c : Category) (kinds : List TokenKind) : Option Expr → Prop
  | some e => Derives c kinds e
  | none => Refused c kinds

/-- A call under a function's own name, if there is such a function and it takes the arguments. -/
def call? (name : String) (args? : Option (List Expr)) : Option Expr :=
  (Function.lookup? name).bind fun f => args?.bind fun args =>
    if f.accepts args.length then some (.call f.name args) else none

theorem call?_eq_some_iff {name : String} {args? : Option (List Expr)} {e : Expr} :
    call? name args? = some e ↔ ∃ f args, Function.lookup? name = some f ∧ args? = some args ∧
      f.accepts args.length ∧ e = .call f.name args := by
  constructor
  · intro h
    obtain ⟨f, hname, h⟩ := Option.bind_eq_some_iff.mp h
    obtain ⟨args, hargs, h⟩ := Option.bind_eq_some_iff.mp h
    split at h
    · next hcount => exact ⟨f, args, hname, hargs, hcount, (Option.some.inj h).symm⟩
    · cases h
  · rintro ⟨f, args, hname, rfl, hcount, rfl⟩
    rw [call?, hname, Option.bind_some, Option.bind_some, if_pos hcount]

namespace Reads
variable {c d : Category} {ks ls rs : List TokenKind} {e? l? r? : Option Expr}

theorem head (h : Reads c ks e?) : ∃ k rest, ks = k :: rest ∧ k ≠ .closeParen := by
  cases e? with
  | some e => exact Derives.head h
  | none => exact Refused.head h

theorem loosen (h : Reads d ks e?) (hcd : c.level ≤ d.level) : Reads c ks e? := by
  cases e? with
  | some e => exact Derives.loosen h hcd
  | none => exact Refused.loosen h hcd

theorem negate (h : Reads .unary ks e?) : Reads .unary (.operator .sub :: ks) (e?.map .negate) := by
  cases e? with
  | some e => exact Derives.negation h
  | none => exact Refused.negate h

theorem group (h : Reads .expression ks e?) :
    Reads .primary (.openParen :: (ks ++ [.closeParen])) e? := by
  cases e? with
  | some e => exact Derives.group h
  | none => exact Refused.group h

theorem binary (op : BinaryOp) (hl : Reads op.category ls l?) (hr : Reads op.operand rs r?) :
    Reads op.category (ls ++ .operator op :: rs)
      (l?.bind fun l => r?.map fun r => .binary op l r) := by
  cases l? with
  | none => exact Refused.append hl _
  | some l =>
    cases r? with
    | none => exact Refused.right_operand hl hr
    | some r => exact Derives.binary hl hr

theorem compare (op : CompareOp) (hl : Reads .sum ls l?) (hr : Reads .sum rs r?) :
    Reads .expression (ls ++ .comparison op :: rs)
      (l?.bind fun l => r?.map fun r => .compare op l r) := by
  cases l? with
  | none => exact (Refused.loosen hl (by decide)).append _
  | some l =>
    cases r? with
    | none => exact Refused.right_comparand hl hr
    | some r => exact Derives.comparison op hl hr

section
variable {items : List (List TokenKind × Option Expr)}

/-- Arguments with a tree each are those of a call of the grammar. -/
theorem exists_derived (hitems : ∀ a ∈ items, Reads .expression a.1 a.2) {args : List Expr}
    (h : items.mapM Prod.snd = some args) :
    ∃ derived : List (List TokenKind × Expr), derived.map Prod.fst = items.map Prod.fst ∧
      derived.map Prod.snd = args ∧ ∀ a ∈ derived, Derives .expression a.1 a.2 := by
  induction items generalizing args with
  | nil =>
    cases h
    exact ⟨[], rfl, rfl, by simp⟩
  | cons a items ih =>
    obtain ⟨ks, e?⟩ := a
    rw [List.forall_mem_cons] at hitems
    rw [List.mapM_cons] at h
    obtain ⟨e, rfl, htail⟩ := Option.bind_eq_some_iff.mp h
    obtain ⟨es, hes, hargs⟩ := Option.bind_eq_some_iff.mp htail
    obtain rfl : e :: es = args := Option.some.inj hargs
    obtain ⟨derived, hkinds, htrees, hderived⟩ := ih hitems.2 hes
    refine ⟨(ks, e) :: derived, by simp [hkinds], by simp [htrees], ?_⟩
    rw [List.forall_mem_cons]
    exact ⟨hitems.1, hderived⟩

/-- The parser stops at the first argument without a tree. -/
theorem arguments_refused (hitems : ∀ a ∈ items, Reads .expression a.1 a.2)
    (hnone : items.mapM Prod.snd = none) {f : Function} {last : Nat} {done : List Expr}
    {stack : List Frame} {ts rest : List Token}
    (hts : ts.map Token.kind = [.comma].intercalate (items.map Prod.fst)) :
    ∃ err, parseFrom last .operand (.call f done :: stack) (ts ++ rest) = .error err := by
  induction items generalizing done ts with
  | nil => cases hnone
  | cons a items ih =>
    obtain ⟨ks, e?⟩ := a
    rw [List.forall_mem_cons] at hitems
    cases e? with
    | none =>
      obtain ⟨more, hmore⟩ : ∃ more,
          [TokenKind.comma].intercalate (ks :: items.map Prod.fst) = ks ++ more := by
        cases items with
        | nil => exact ⟨[], by simp⟩
        | cons b items => exact ⟨_, rfl⟩
      have hrefused : Refused .expression (ks ++ more) := Refused.append hitems.1 more
      exact hrefused.stops last ts (hts.trans hmore) _ rest (Nat.le_refl 1)
    | some e =>
      have hlater : items.mapM Prod.snd = none :=
        Option.eq_none_iff_forall_ne_some.mpr (by simpa [List.mapM_cons] using hnone)
      have hne : items.map Prod.fst ≠ [] := by
        intro hnil
        obtain rfl := List.map_eq_nil_iff.mp hnil
        cases hlater
      obtain ⟨item, comma, more, rfl, hitem, hmore⟩ := split_arguments hne hts
      have hparses : Parses last .expression item e := Derives.parses hitems.1 last item hitem
      rw [List.append_assoc, List.cons_append, hparses.argument_comma]
      exact ih hitems.2 hlater hmore

theorem call_refused {name : String} {f : Function} (hname : f.name = name.map Char.toLower)
    (hitems : ∀ a ∈ items, Reads .expression a.1 a.2)
    (hnone : items.mapM Prod.snd = none) :
    Refused .primary (.function name :: .openParen ::
      ([.comma].intercalate (items.map Prod.fst) ++ [.closeParen])) where
  head := ⟨_, _, rfl, by simp⟩
  stops last ts hts stack rest _ := by
    obtain ⟨offset, more, rfl, hmore⟩ := split_cons hts
    obtain ⟨opening, tail, rfl, htail⟩ := split_cons hmore
    obtain ⟨inner, close, rfl, hinner⟩ := split_last htail
    obtain ⟨a, items', rfl⟩ : ∃ a items', items = a :: items' :=
      List.exists_cons_of_ne_nil (by rintro rfl; cases hnone)
    obtain ⟨t, ts', rfl, hne⟩ := Parses.arguments_head (hitems a List.mem_cons_self).head hinner
    rw [List.cons_append, List.cons_append, List.append_assoc, Parses.opening hname,
      List.cons_append, parseFrom_firstArgument hne, ← List.cons_append]
    exact arguments_refused hitems hnone hinner

theorem call (name : String) (hitems : ∀ a ∈ items, Reads .expression a.1 a.2) :
    Reads .primary (.function name :: .openParen ::
      ([.comma].intercalate (items.map Prod.fst) ++ [.closeParen]))
      (call? name (items.mapM Prod.snd)) := by
  unfold call?
  cases hf : Function.lookup? name with
  | none => exact Refused.unknown hf _
  | some f =>
    have hname := name_of_lookup? hf
    cases hall : items.mapM Prod.snd with
    | none => exact call_refused hname hitems hall
    | some args =>
      obtain ⟨derived, hkinds, rfl, hderived⟩ := exists_derived hitems hall
      rw [← hkinds, Option.bind_some, Option.bind_some, List.length_map]
      split
      · next hcount => exact Derives.call derived hname hcount hderived
      · next hcount => exact Refused.count hname hcount hderived

end

end Reads
end TableImport.Expr
