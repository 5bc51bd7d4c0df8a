import TableImport.Expr.Printer
import TableImport.Proofs.Expr.Refusal
import TableImport.Proofs.Expr.Scanning
import TableImport.Proofs.Number.Order

/-! The texts of expressions and what the parser makes of them: a number with a sign is read as a
negation, and a text is refused for a call in it that is none of the grammar's. -/
namespace TableImport.Expr

/-- A letter or an underscore, then letters, digits, underscores and dots. -/
def IsPath (s : String) : Prop :=
  ∃ c cs, s.toList = c :: cs ∧ (c.isAlpha ∨ c = '_') ∧ ∀ d ∈ cs, d.isAlphanum ∨ d = '_' ∨ d = '.'

/-- Numbers are finite, and values and functions have proper names; whether there is a function
of the name, and how many arguments it takes, is left open. -/
inductive Legible : Expr → Prop where
  | number {x : Float} (hfinite : x.isFinite = true) : Legible (.number x)
  | var {path : String} (hpath : IsPath path) : Legible (.var path)
  | negate {e : Expr} (h : Legible e) : Legible (.negate e)
  | binary {op : BinaryOp} {l r : Expr} (hl : Legible l) (hr : Legible r) :
      Legible (.binary op l r)
  | compare {op : CompareOp} {l r : Expr} (hl : Legible l) (hr : Legible r) :
      Legible (.compare op l r)
  | call {name : String} {args : List Expr} (hname : IsPath name)
      (hargs : ∀ a ∈ args, Legible a) : Legible (.call name args)

mutual

/-- The tree that is read from the text of an expression, if the text is accepted. -/
def readBack? : Expr → Option Expr
  | .number x => some (if Binary64.isNegative x then .negate (.number (-x)) else .number x)
  | .var path => some (.var path)
  | .negate e => (readBack? e).map .negate
  | .binary op l r => (readBack? l).bind fun l' => (readBack? r).map fun r' => .binary op l' r'
  | .compare op l r => (readBack? l).bind fun l' => (readBack? r).map fun r' => .compare op l' r'
  | .call name args => call? name (readBackAll? args)

def readBackAll? : List Expr → Option (List Expr)
  | [] => some []
  | e :: es => do
    let e' ← readBack? e
    let es' ← readBackAll? es
    some (e' :: es')

end

theorem readBackAll?_eq (es : List Expr) : readBackAll? es = es.mapM readBack? := by
  induction es with
  | nil => rfl
  | cons e es ih =>
    rw [List.mapM_cons, ← ih]
    rfl

theorem isNameStart_of_letter {c : Char} (h : c.isAlpha ∨ c = '_') : isNameStart c = true := by
  simpa [isNameStart, Char.isAlpha, Char.isUpper, Char.isLower, Char.le_def, or_comm] using h

theorem isNameChar_of_letter {c : Char} (h : c.isAlphanum ∨ c = '_' ∨ c = '.') :
    isNameChar c = true := by
  unfold isNameChar
  rcases h with h | rfl | rfl
  · rcases Bool.or_eq_true_iff.mp h with h | h
    · simp [isNameStart_of_letter (.inl h)]
    · simp [isDigit_of_isDigit h]
  · decide
  · decide

namespace Scans
variable {name : String}

theorem path (h : IsPath name) {rest : List Char} (hrest : Closed rest) :
    Scans name.toList [.identifier name] rest := by
  obtain ⟨c, cs, hchars, hc, hcs⟩ := h
  have hscans := Scans.identifier (isNameStart_of_letter hc)
    (fun d hd => isNameChar_of_letter (hcs d hd)) hrest
  rw [← hchars, String.ofList_toList] at hscans
  exact hscans

theorem functionPath (h : IsPath name) (rest : List Char) :
    Scans name.toList [.function name] ('(' :: rest) := by
  obtain ⟨c, cs, hchars, hc, hcs⟩ := h
  have hscans := Scans.function (isNameStart_of_letter hc)
    (fun d hd => isNameChar_of_letter (hcs d hd)) rest
  rw [← hchars, String.ofList_toList] at hscans
  exact hscans

end Scans

/-- A text whose tokens are read so, before any text that lets it end. -/
def Shows (c : Category) (cs : List Char) (e? : Option Expr) : Prop :=
  ∃ kinds, Reads c kinds e? ∧ ∀ rest, Closed rest → Scans cs kinds rest

namespace Shows
variable {c d : Category} {cs ls rs : List Char} {e? l? r? : Option Expr}

theorem loosen (h : Shows d cs e?) (hcd : c.level ≤ d.level) : Shows c cs e? := by
  obtain ⟨kinds, hreads, hscans⟩ := h
  exact ⟨kinds, hreads.loosen hcd, hscans⟩

theorem group (h : Shows .expression cs e?) : Shows .primary ('(' :: cs ++ [')']) e? := by
  obtain ⟨kinds, hreads, hscans⟩ := h
  refine ⟨_, hreads.group, fun rest _ => ?_⟩
  have hinner : Scans cs kinds ([')'] ++ rest) := hscans _ (.closeParen rest)
  exact .openParen (hinner.append (.closeParen rest))

/-- Parentheses make every phrase tight enough; without them it has to be so itself. -/
theorem enclose (h : Shows d cs e?) {loose : Bool} (hcd : loose = false → c.level ≤ d.level) :
    Shows c (Expr.enclose loose cs) e? := by
  cases loose with
  | true =>
    have hinner : Shows .expression cs e? := h.loosen d.one_le_level
    exact hinner.group.loosen (by cases c <;> decide)
  | false => exact h.loosen (hcd rfl)

theorem unsigned {x : Float} (hfinite : x.isFinite = true)
    (hsign : Binary64.isNegative x = false) :
    Shows .primary (Layout.plain.chars x) (some (.number x)) := by
  obtain ⟨n, hplain, hchars, hvalue⟩ := Layout.plain_chars hfinite hsign
  refine ⟨_, Derives.number x, fun rest hrest => ?_⟩
  rw [hchars, ← hvalue]
  exact .number hplain hrest

theorem var {path : String} (h : IsPath path) :
    Shows .primary path.toList (some (.var path)) :=
  ⟨_, Derives.identifier path, fun _ hrest => .path h hrest⟩

theorem negate (h : Shows .unary cs e?) : Shows .unary ('-' :: cs) (e?.map .negate) := by
  obtain ⟨kinds, hreads, hscans⟩ := h
  refine ⟨_, hreads.negate, fun rest hrest => ?_⟩
  have hsign : Scans ['-'] [.operator .sub] (cs ++ rest) := .operator .sub _
  exact hsign.append (hscans rest hrest)

theorem binary (op : BinaryOp) (hl : Shows op.category ls l?) (hr : Shows op.operand rs r?) :
    Shows op.category (ls ++ ' ' :: op.chars ++ ' ' :: rs)
      (l?.bind fun l => r?.map fun r => .binary op l r) := by
  obtain ⟨lkinds, hlreads, hlscans⟩ := hl
  obtain ⟨rkinds, hrreads, hrscans⟩ := hr
  refine ⟨_, hlreads.binary op hrreads, fun rest hrest => ?_⟩
  exact .between hlscans (.operator op) (fun rest => .operator op _) (hrscans rest hrest)

theorem compare (op : CompareOp) (hl : Shows .sum ls l?) (hr : Shows .sum rs r?) :
    Shows .expression (ls ++ ' ' :: op.chars ++ ' ' :: rs)
      (l?.bind fun l => r?.map fun r => .compare op l r) := by
  obtain ⟨lkinds, hlreads, hlscans⟩ := hl
  obtain ⟨rkinds, hrreads, hrscans⟩ := hr
  refine ⟨_, hlreads.compare op hrreads, fun rest hrest => ?_⟩
  exact .between hlscans (.comparison op) (.comparison op) (hrscans rest hrest)

/-- Arguments with commas between them, up to the parenthesis that closes the call. -/
theorem arguments {args : List Expr} (h : ∀ a ∈ args, Shows .expression a.chars (readBack? a)) :
    ∃ items : List (List TokenKind × Option Expr), items.map Prod.snd = args.map readBack? ∧
      (∀ a ∈ items, Reads .expression a.1 a.2) ∧
      ∀ rest, Scans (argumentChars args) ([.comma].intercalate (items.map Prod.fst))
        (')' :: rest) := by
  induction args with
  | nil => exact ⟨[], rfl, by simp, fun rest => .nil _⟩
  | cons e es ih =>
    rw [List.forall_mem_cons] at h
    obtain ⟨kinds, hreads, hscans⟩ := h.1
    obtain ⟨items, hitems, hall, hrest⟩ := ih h.2
    refine ⟨(kinds, readBack? e) :: items, by simp [hitems],
      List.forall_mem_cons.mpr ⟨hreads, hall⟩, fun rest => ?_⟩
    cases es with
    | nil =>
      obtain rfl : items = [] := by simpa using hitems
      have hlast : Scans e.chars kinds (')' :: rest) := hscans _ (.closeParen rest)
      simpa [argumentChars] using hlast
    | cons e' es =>
      obtain ⟨i, is, rfl⟩ : ∃ i is, items = i :: is :=
        List.exists_cons_of_ne_nil (by rintro rfl; cases hitems)
      have htail := Scans.comma (hrest rest).space
      have hhead : Scans e.chars kinds (',' :: ' ' :: argumentChars (e' :: es) ++ ')' :: rest) :=
        hscans _ (.comma _)
      simpa [argumentChars, List.intercalate] using hhead.append htail

theorem call {name : String} {args : List Expr} (hname : IsPath name)
    (h : ∀ a ∈ args, Shows .expression a.chars (readBack? a)) :
    Shows .primary (name.toList ++ '(' :: argumentChars args ++ [')'])
      (readBack? (.call name args)) := by
  obtain ⟨items, hitems, hall, hscans⟩ := arguments h
  have htrees : items.mapM Prod.snd = readBackAll? args := by
    have hmap := congrArg (List.mapM id) hitems
    rw [List.mapM_map, List.mapM_map] at hmap
    exact hmap.trans (readBackAll?_eq args).symm
  have hreads := Reads.call name hall
  rw [htrees] at hreads
  refine ⟨_, hreads, fun rest _ => ?_⟩
  have hfunction := Scans.functionPath hname (argumentChars args ++ [')'] ++ rest)
  have hinner : Scans (argumentChars args ++ [')']) _ rest :=
    (hscans rest).append (.closeParen rest)
  simpa using hfunction.append hinner.openParen

end Shows

/-- What is written for an expression is a phrase as tight as the expression. -/
theorem Legible.shows {e : Expr} (h : Legible e) :
    ∃ d : Category, d.level = e.precedence ∧ Shows d e.chars (readBack? e) := by
  induction h with
  | @number x hfinite =>
    cases hsign : Binary64.isNegative x with
    | true =>
      have hopposite : Binary64.isNegative (-x) = false := by
        rw [Binary64.isNegative_neg hfinite, hsign]
        rfl
      have hdigits : Shows .unary (Layout.plain.chars (-x)) (some (.number (-x))) :=
        (Shows.unsigned (Binary64.isFinite_neg hfinite) hopposite).loosen (by decide)
      refine ⟨.unary, by simp [precedence, hsign, Category.level], ?_⟩
      simpa [chars, readBack?, hsign] using hdigits.negate
    | false =>
      refine ⟨.primary, by simp [precedence, hsign, Category.level], ?_⟩
      simpa [chars, readBack?, hsign] using Shows.unsigned hfinite hsign
  | var hpath => exact ⟨.primary, rfl, by simpa [chars, readBack?] using Shows.var hpath⟩
  | @negate e _ ih =>
    obtain ⟨d, hd, hshows⟩ := ih
    have hoperand : Shows .unary (enclose (decide (e.precedence < 4)) e.chars) (readBack? e) :=
      hshows.enclose fun hloose => by
        rw [hd]
        exact Nat.not_lt.mp (of_decide_eq_false hloose)
    exact ⟨.unary, rfl, by simpa [chars, readBack?] using hoperand.negate⟩
  | @binary op l r _ _ ihl ihr =>
    -- The grammar's left operand may be as loose as the operator, its right one may not.
    obtain ⟨d, hd, hl⟩ := ihl
    obtain ⟨d', hd', hr⟩ := ihr
    have hleft : Shows op.category (enclose (decide (l.precedence < op.precedence)) l.chars)
        (readBack? l) :=
      hl.enclose fun hloose => by
        rw [hd, op.level_category]
        exact Nat.not_lt.mp (of_decide_eq_false hloose)
    have hright : Shows op.operand (enclose (decide (r.precedence ≤ op.precedence)) r.chars)
        (readBack? r) :=
      hr.enclose fun hloose => by
        rw [hd', op.level_operand]
        exact Nat.not_le.mp (of_decide_eq_false hloose)
    exact ⟨op.category, op.level_category, by simpa [chars, readBack?] using hleft.binary op hright⟩
  | @compare op l r _ _ ihl ihr =>
    obtain ⟨d, hd, hl⟩ := ihl
    obtain ⟨d', hd', hr⟩ := ihr
    have hleft : Shows .sum (enclose (decide (l.precedence ≤ 1)) l.chars) (readBack? l) :=
      hl.enclose fun hloose => by
        rw [hd]
        exact Nat.not_le.mp (of_decide_eq_false hloose)
    have hright : Shows .sum (enclose (decide (r.precedence ≤ 1)) r.chars) (readBack? r) :=
      hr.enclose fun hloose => by
        rw [hd']
        exact Nat.not_le.mp (of_decide_eq_false hloose)
    exact ⟨.expression, rfl, by simpa [chars, readBack?] using hleft.compare op hright⟩
  | @call name args hname _ ih =>
    have hargs : ∀ a ∈ args, Shows .expression a.chars (readBack? a) := by
      intro a ha
      obtain ⟨d, -, hshows⟩ := ih a ha
      exact hshows.loosen d.one_le_level
    exact ⟨.primary, rfl, by simpa [chars] using Shows.call hname hargs⟩

/-- No token of a phrase ends the input. -/
theorem Derives.beforeEnd_append {c : Category} {ts : List Token} {e : Expr}
    (h : Derives c (ts.map Token.kind) e) (next : Nat) :
    beforeEnd (ts ++ [⟨.endOfInput, next⟩]) = ts.map Token.kind := by
  have hinside : ∀ k ∈ ts.map Token.kind, (!k.isEnd) = true := by
    intro k hk
    rw [h.isEnd_eq_false k hk]
    rfl
  rw [beforeEnd, List.map_append, List.takeWhile_append_of_pos hinside]
  simp [TokenKind.isEnd]

namespace Shows
variable {c : Category} {cs : List Char} {e? : Option Expr}

theorem tokenize (h : Shows c cs e?) : ∃ ts next,
    Expr.tokenize (String.ofList cs) = .ok (ts ++ [⟨.endOfInput, next⟩]) ∧
      Reads c (ts.map Token.kind) e? := by
  obtain ⟨kinds, hreads, hscans⟩ := h
  obtain ⟨ts, next, rfl, hrun⟩ := hscans [] .nil 0
  refine ⟨ts, next, ?_, hreads⟩
  rw [Expr.tokenize, String.toList_ofList, ← List.append_nil cs, hrun, tokensFrom]
  rfl

theorem parse_eq_ok {e : Expr} (h : Shows .expression cs (some e)) :
    parse (String.ofList cs) = .ok e := by
  obtain ⟨ts, next, htokens, hreads⟩ := h.tokenize
  have hderives : Derives .expression (ts.map Token.kind) e := hreads
  rw [parse, htokens]
  refine parseTokens_of_derives ?_
  rw [hderives.beforeEnd_append]
  exact hderives

/-- A text without a tree is not parsed. -/
theorem parse_eq_error (h : Shows .expression cs none) :
    ∃ err, parse (String.ofList cs) = .error err := by
  obtain ⟨ts, next, htokens, hreads⟩ := h.tokenize
  obtain ⟨err, hrun⟩ := Refused.stops hreads _ ts rfl [] [⟨.endOfInput, next⟩] (Nat.le_refl 1)
  exact ⟨err, by rw [parse, htokens]; exact hrun⟩

end Shows

namespace Legible
variable {e e' : Expr}

/-- The text of an expression is parsed to what is read back of the expression, or not at all. -/
theorem parse_eq_ok (h : Legible e) (hback : readBack? e = some e') : parse e.text = .ok e' := by
  obtain ⟨d, -, hshows⟩ := h.shows
  rw [hback] at hshows
  have hloose : Shows .expression e.chars (some e') := hshows.loosen d.one_le_level
  exact hloose.parse_eq_ok

theorem parse_eq_error (h : Legible e) (hback : readBack? e = none) :
    ∃ err, parse e.text = .error err := by
  obtain ⟨d, -, hshows⟩ := h.shows
  rw [hback] at hshows
  have hloose : Shows .expression e.chars none := hshows.loosen d.one_le_level
  exact hloose.parse_eq_error

end Legible
end TableImport.Expr
