import TableImport.Proofs.Expr.Writing

/-! Well-formed expressions are parsed back from the text that is written for them. -/
namespace TableImport.Expr

/-- Numbers are finite and have no sign, values have proper names, and functions are called by
their own names with as many arguments as they take. -/
inductive WellFormed : Expr → Prop where
  | number {x : Float} (hfinite : x.isFinite = true) (hsign : Binary64.isNegative x = false) :
      WellFormed (.number x)
  | var {path : String} (hpath : IsPath path) : WellFormed (.var path)
  | negate {e : Expr} (h : WellFormed e) : WellFormed (.negate e)
  | binary {op : BinaryOp} {l r : Expr} (hl : WellFormed l) (hr : WellFormed r) :
      WellFormed (.binary op l r)
  | compare {op : CompareOp} {l r : Expr} (hl : WellFormed l) (hr : WellFormed r) :
      WellFormed (.compare op l r)
  | call {f : Function} {args : List Expr} (hcount : f.accepts args.length)
      (hargs : ∀ a ∈ args, WellFormed a) : WellFormed (.call f.name args)

/-- The name of a function is a name like any other. -/
theorem isPath_name (f : Function) : IsPath f.name := by
  have hne : f.name.toList ≠ [] := by cases f <;> decide
  have hletters : f.name.toList.all Char.isAlpha = true := by cases f <;> decide
  obtain ⟨c, cs, hchars⟩ := List.exists_cons_of_ne_nil hne
  rw [hchars, List.all_cons, Bool.and_eq_true, List.all_eq_true] at hletters
  exact ⟨c, cs, hchars, .inl hletters.1,
    fun d hd => .inl (Bool.or_eq_true_iff.mpr (.inl (hletters.2 d hd)))⟩

theorem WellFormed.legible {e : Expr} (h : WellFormed e) : Legible e := by
  induction h with
  | number hfinite _ => exact .number hfinite
  | var hpath => exact .var hpath
  | negate _ ih => exact .negate ih
  | binary _ _ ihl ihr => exact .binary ihl ihr
  | compare _ _ ihl ihr => exact .compare ihl ihr
  | @call f args _ _ ih => exact .call (isPath_name f) ih

theorem readBackAll?_eq_self {es : List Expr} (h : ∀ e ∈ es, readBack? e = some e) :
    readBackAll? es = some es := by
  induction es with
  | nil => rfl
  | cons e es ih =>
    rw [List.forall_mem_cons] at h
    rw [readBackAll?, h.1, ih h.2]
    rfl

/-- Without signs at its numbers and with calls of the grammar a tree is read back as it is. -/
theorem WellFormed.readBack?_eq {e : Expr} (h : WellFormed e) : readBack? e = some e := by
  induction h with
  | number _ hsign => simp [readBack?, hsign]
  | var _ => rfl
  | negate _ ih => simp [readBack?, ih]
  | binary _ _ ihl ihr => simp [readBack?, ihl, ihr]
  | compare _ _ ihl ihr => simp [readBack?, ihl, ihr]
  | @call f args hcount _ ih =>
    simp [readBack?, call?, lookup?_name, readBackAll?_eq_self ih, hcount]

/-- A text whose tokens are a phrase with the expression as its tree, before any text that lets
it end. -/
def Prints (c : Category) (cs : List Char) (e : Expr) : Prop :=
  ∃ kinds, Derives c kinds e ∧ ∀ rest, Closed rest → Scans cs kinds rest

theorem Prints.loosen {c d : Category} {cs : List Char} {e : Expr} (h : Prints d cs e)
    (hcd : c.level ≤ d.level) : Prints c cs e := by
  have hshows : Shows d cs (some e) := h
  exact hshows.loosen hcd

/-- What is written for a well-formed expression is a phrase as tight as the expression. -/
theorem WellFormed.prints {e : Expr} (h : WellFormed e) :
    ∃ d : Category, d.level = e.precedence ∧ Prints d e.chars e := by
  obtain ⟨d, hd, hshows⟩ := h.legible.shows
  rw [h.readBack?_eq] at hshows
  exact ⟨d, hd, hshows⟩

/-- A text whose tokens are a phrase is tokenized into that phrase. -/
theorem Prints.tokenize {c : Category} {cs : List Char} {e : Expr} (h : Prints c cs e) :
    ∃ ts, tokenize (String.ofList cs) = .ok ts ∧ Derives c (beforeEnd ts) e := by
  have hshows : Shows c cs (some e) := h
  obtain ⟨ts, next, htokens, hderives⟩ := hshows.tokenize
  refine ⟨_, htokens, ?_⟩
  rw [Derives.beforeEnd_append hderives]
  exact hderives

/-- The text of a well-formed expression is parsed to the same expression. -/
theorem parse_text {e : Expr} (h : WellFormed e) : parse e.text = .ok e := by
  obtain ⟨d, -, hprints⟩ := h.prints
  have hloose : Prints .expression e.chars e := hprints.loosen d.one_le_level
  obtain ⟨ts, htokens, hderives⟩ := hloose.tokenize
  have hparse := parseTokens_of_derives hderives
  rw [parse, text, htokens]
  exact hparse

/-- The comparison `net - (tax.rate - 1.5) > max(-net, 0)`. -/
def taxed : Expr :=
  .compare .greater (.binary .sub (.var "net") (.binary .sub (.var "tax.rate") (.number 1.5)))
    (.call Function.max.name [.negate (.var "net"), .number 0])

theorem parse_text_taxed : WellFormed taxed ∧ parse taxed.text = .ok taxed := by
  have hnet : WellFormed (.var "net") := .var ⟨'n', ['e', 't'], rfl, by decide, by simp⟩
  have htax : WellFormed (.var "tax.rate") :=
    .var ⟨'t', ['a', 'x', '.', 'r', 'a', 't', 'e'], rfl, by decide, by simp⟩
  have hhalf : WellFormed (.number 1.5) := .number (by decide) (by decide)
  have hzero : WellFormed (.number 0) := .number (by decide) (by decide)
  have hcall : WellFormed (.call Function.max.name [.negate (.var "net"), .number 0]) := by
    refine .call (by decide) ?_
    intro a ha
    rcases List.mem_cons.mp ha with rfl | ha
    · exact hnet.negate
    · obtain rfl := List.mem_singleton.mp ha
      exact hzero
  have h : WellFormed taxed := .compare (.binary hnet (.binary htax hhalf)) hcall
  exact ⟨h, parse_text h⟩

end TableImport.Expr
