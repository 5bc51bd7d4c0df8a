import Mathlib.Data.List.DropRight
import TableImport.Expr.Names
import TableImport.Proofs.Expr.Completeness
import TableImport.Proofs.Expr.Cutting

/-! The names that a text mentions against those in its expression. -/
namespace TableImport.Expr
variable {cs : List Char} {ks : List TokenKind} {e : Expr}

/-- The characters of a name. -/
def TokenKind.name? : TokenKind → Option (List Char)
  | identifier s | function s => some s.toList
  | _ => none

def TokenKind.path? : TokenKind → Option String
  | identifier path => some path
  | _ => none

theorem TokenKind.name?_of_isSign {k : TokenKind} (h : k.isSign = true) : k.name? = none := by
  cases k <;> first | rfl | cases h

/-! ### The scan of a text that is cut into tokens -/

theorem lexicalNames_of_not_word {c : Char} (hc : isWordChar c = false) (afterWord : Bool)
    (cs : List Char) : lexicalNames [] afterWord (c :: cs) = lexicalNames [] false cs := by
  have hname : ¬isNameStart c = true := by
    intro hname
    rw [isWordChar_of_isNameStart hname] at hc
    cases hc
  simp [lexicalNames, hname, hc]

theorem lexicalNames_sign {c : Char} {more : List Char}
    (hword : ∀ d ∈ c :: more, isWordChar d = false) (afterWord : Bool) (rest : List Char) :
    lexicalNames [] afterWord (c :: (more ++ rest)) = lexicalNames [] false rest := by
  obtain ⟨hc, hmore⟩ := List.forall_mem_cons.mp hword
  rw [lexicalNames_of_not_word hc]
  clear hword hc
  induction more with
  | nil => rfl
  | cons d more ih =>
    obtain ⟨hd, hmore⟩ := List.forall_mem_cons.mp hmore
    rw [List.cons_append, lexicalNames_of_not_word hd, ih hmore]

theorem lexicalNames_number {word : List Char} (hword : ∀ d ∈ word, isNameStart d = false)
    (afterWord : Bool) (rest : List Char) : ∃ afterNumber,
    lexicalNames [] afterWord (word ++ rest) = lexicalNames [] afterNumber rest := by
  induction word generalizing afterWord with
  | nil => exact ⟨afterWord, rfl⟩
  | cons d word ih =>
    obtain ⟨hd, hword⟩ := List.forall_mem_cons.mp hword
    obtain ⟨afterNumber, hrest⟩ := ih hword (isWordChar d)
    exact ⟨afterNumber, by simp [lexicalNames, hd, hrest]⟩

/-- What stands after a name does not go on with one, so the scan starts anew there. -/
theorem lexicalNames_more {name more rest : List Char} (hname : name ≠ [])
    (hmore : ∀ d ∈ more, isNameChar d = true) (hrest : ∀ d ∈ rest.head?, isNameChar d = false)
    (afterWord : Bool) :
    lexicalNames name afterWord (more ++ rest) =
      (name.reverse ++ more) :: lexicalNames [] true rest := by
  induction more generalizing name afterWord with
  | nil =>
    cases rest with
    | nil => simp [lexicalNames, hname]
    | cons d rest =>
      have hd : isNameChar d = false := hrest d rfl
      have hstart : isNameStart d = false := by simp_all [isNameChar]
      simp [lexicalNames, hname, hd, hstart]
  | cons d more ih =>
    obtain ⟨hd, hmore⟩ := List.forall_mem_cons.mp hmore
    rw [List.cons_append, lexicalNames, if_pos ⟨hname, hd⟩, ih (List.cons_ne_nil d name) hmore]
    simp

theorem lexicalNames_name {c : Char} {more rest : List Char} (hc : isNameStart c = true)
    (hmore : ∀ d ∈ more, isNameChar d = true) (hrest : ∀ d ∈ rest.head?, isNameChar d = false) :
    lexicalNames [] false (c :: (more ++ rest)) = (c :: more) :: lexicalNames [] true rest := by
  have hstart : lexicalNames [] false (c :: (more ++ rest)) =
      lexicalNames [c] true (more ++ rest) := by
    simp [lexicalNames, hc]
  rw [hstart, lexicalNames_more (List.cons_ne_nil c []) hmore hrest]
  rfl

/-- No name follows a number. -/
def Spaced (ks : List TokenKind) : Prop :=
  ks.IsChain fun a b => (∃ x, a = .number x) → b.name? = none

/-- Where a name can begin, one does. -/
theorem Cuts.name_of_head {c : Char} (h : Cuts (c :: cs) ks) (hc : isNameStart c = true) :
    ∃ kind more, ks = kind :: more ∧ kind.name? ≠ none := by
  cases h with
  | blank hblank =>
    rw [isBlankChar_of_isNameStart hc] at hblank
    cases hblank
  | token hword =>
    refine ⟨_, _, rfl, ?_⟩
    cases hword with
    | sign _ hword =>
      have hsign := hword c List.mem_cons_self
      rw [isWordChar_of_isNameStart hc] at hsign
      cases hsign
    | number x hword =>
      rw [hword c List.mem_cons_self] at hc
      cases hc
    | name hkind =>
      rcases hkind with rfl | rfl <;> simp [TokenKind.name?]

/-- What follows a number in a phrase does not begin with a name. -/
theorem Cuts.head_after_number (h : Cuts cs ks) {x : Float} (hks : Spaced (.number x :: ks)) :
    ∀ c ∈ cs.head?, isNameStart c = false := by
  intro c hc
  by_contra hname
  obtain ⟨more, rfl⟩ : ∃ more, cs = c :: more := List.head?_eq_some_iff.mp hc
  obtain ⟨next, later, rfl, hnext⟩ := h.name_of_head (eq_true_of_ne_false hname)
  exact hnext ((List.isChain_cons_cons.mp hks).1 ⟨x, rfl⟩)

/-- The scan of a text finds the names among its tokens. After a word character the text must not
go on with a name, which the scan would pass over. -/
theorem Cuts.lexicalNames_eq (h : Cuts cs ks) (hks : Spaced ks) {afterWord : Bool}
    (hhead : afterWord = true → ∀ c ∈ cs.head?, isNameStart c = false) :
    lexicalNames [] afterWord cs = ks.filterMap TokenKind.name? := by
  induction h generalizing afterWord with
  | nil => simp [lexicalNames]
  | blank hc _ ih =>
    rw [lexicalNames_of_not_word (isWordChar_of_isBlankChar hc)]
    exact ih hks (by simp)
  | @token c more rest kind ks hword hcuts ih =>
    have hspaced : Spaced ks := hks.tail
    cases hword with
    | sign hkind hword =>
      rw [lexicalNames_sign hword, List.filterMap_cons_none (TokenKind.name?_of_isSign hkind)]
      exact ih hspaced (by simp)
    | number x hword =>
      obtain ⟨afterNumber, hscan⟩ := lexicalNames_number hword afterWord rest
      rw [← List.cons_append, hscan, List.filterMap_cons_none rfl]
      exact ih hspaced fun _ => hcuts.head_after_number hks
    | name hkind hc hmore hrest =>
      have hstart : afterWord = false := by
        by_contra hword
        rw [hhead (eq_true_of_ne_false hword) c rfl] at hc
        cases hc
      have hsome : kind.name? = some (c :: more) := by
        rcases hkind with rfl | rfl <;> simp [TokenKind.name?]
      rw [hstart, lexicalNames_name hc hmore hrest, List.filterMap_cons_some hsome]
      refine congrArg _ (ih hspaced fun _ d hd => ?_)
      have hd := hrest d hd
      simp_all [isNameChar]

theorem Lexeme.exists_cons {word rest name : List Char} {kind : TokenKind}
    (h : Lexeme word rest kind) (hname : kind.name? = some name) :
    ∃ c more, name = c :: more ∧ isNameStart c = true := by
  cases h with
  | sign hsign =>
    rw [TokenKind.name?_of_isSign hsign] at hname
    cases hname
  | number => cases hname
  | @name c more _ _ hkind hc =>
    refine ⟨c, more, ?_, hc⟩
    rcases hkind with rfl | rfl <;> simpa [TokenKind.name?] using hname.symm

/-- The names of a text begin with a letter or an underscore. -/
theorem Cuts.exists_cons (h : Cuts cs ks) : ∀ kind ∈ ks, ∀ name, kind.name? = some name →
    ∃ c more, name = c :: more ∧ isNameStart c = true := by
  induction h with
  | nil => simp
  | blank _ _ ih => exact ih
  | token hword _ ih => exact List.forall_mem_cons.mpr ⟨fun _ hname => hword.exists_cons hname, ih⟩

/-! ### The tokens of a phrase -/

namespace Derives
variable {c : Category}

theorem spaced (h : Derives c ks e) : Spaced ks := by
  refine h.kinds_induction (P := Spaced) .nil ?_ (fun _ => .singleton _) (fun _ => .singleton _) ?_
  · intro ls k rs hk hl hr
    refine List.isChain_append.mpr ⟨hl, List.isChain_cons.mpr ⟨?_, hr⟩, ?_⟩
    · rintro - - ⟨x, rfl⟩
      cases hk
    · intro a _ b hb _
      obtain rfl := Option.some.inj hb
      exact TokenKind.name?_of_isSign hk
  · intro name f _ ks hks
    exact List.isChain_cons_cons.mpr ⟨nofun, List.isChain_cons.mpr ⟨fun _ _ => nofun, hks⟩⟩

/-- What a phrase calls are functions. -/
theorem exists_function (h : Derives c ks e) :
    ∀ name, .function name ∈ ks → ∃ f : Function, f.name = name.map Char.toLower := by
  refine h.kinds_induction
    (P := fun ks => ∀ name, .function name ∈ ks → ∃ f : Function, f.name = name.map Char.toLower)
    (by simp) ?_ (by simp) (by simp) ?_
  · intro ls k rs hk hl hr name hmem
    rcases List.mem_append.mp hmem with hmem | hmem
    · exact hl name hmem
    · rcases List.mem_cons.mp hmem with rfl | hmem
      · cases hk
      · exact hr name hmem
  · intro name f hf ks hks name' hmem
    rcases List.mem_cons.mp hmem with heq | hmem
    · obtain rfl := TokenKind.function.inj heq
      exact ⟨f, hf⟩
    · exact hks name' (by simpa using hmem)

theorem filterMap_intercalate {args : List (List TokenKind × Expr)}
    (h : ∀ a ∈ args, a.1.filterMap TokenKind.path? = a.2.paths) :
    ([TokenKind.comma].intercalate (args.map Prod.fst)).filterMap TokenKind.path? =
      pathsOfAll (args.map Prod.snd) := by
  induction args with
  | nil => rfl
  | cons a args ih =>
    obtain ⟨hhead, htail⟩ := List.forall_mem_cons.mp h
    cases args with
    | nil => simp [pathsOfAll, hhead]
    | cons b args =>
      have hsplit : [TokenKind.comma].intercalate ((a :: b :: args).map Prod.fst) =
          a.1 ++ .comma :: [TokenKind.comma].intercalate ((b :: args).map Prod.fst) := rfl
      rw [hsplit, List.filterMap_append, hhead, List.filterMap_cons_none rfl, ih htail]
      rfl

theorem filterMap_closed (ks : List TokenKind) :
    (ks ++ [TokenKind.closeParen]).filterMap TokenKind.path? = ks.filterMap TokenKind.path? := by
  rw [List.filterMap_append]
  exact List.append_nil _

/-- The names of values in a phrase are those of its tree, in the same order. -/
theorem filterMap_path? (h : Derives c ks e) : ks.filterMap TokenKind.path? = e.paths := by
  induction h with
  | sumAlone _ ih | productAlone _ ih | unaryAlone _ ih | primaryAlone _ ih => exact ih
  | comparison _ _ _ ihl ihr | addition _ _ _ ihl ihr | multiplication _ _ _ ihl ihr =>
    rw [List.filterMap_append, List.filterMap_cons_none rfl, ihl, ihr]
    rfl
  | negation _ ih => exact ih
  | group _ ih => rw [List.filterMap_cons_none rfl, filterMap_closed, ih]
  | number => rfl
  | identifier => rfl
  | call args _ _ _ ih =>
    rw [List.filterMap_cons_none rfl, List.filterMap_cons_none rfl, filterMap_closed,
      filterMap_intercalate ih]
    rfl

end Derives

/-! ### Mentioned names -/

/-- A name without dots at its end. -/
def trimmed (name : String) : String := String.ofList (trimDots name.toList)

theorem trimDots_eq (cs : List Char) : trimDots cs = cs.rdropWhile (· == '.') := rfl

theorem trimDots_eq_self_iff : trimDots cs = cs ↔ cs.getLast? ≠ some '.' := by
  rw [trimDots_eq, List.rdropWhile_eq_self_iff]
  cases hlast : cs.getLast? with
  | none => simp [List.getLast?_eq_none_iff.mp hlast]
  | some d =>
    obtain ⟨init, rfl⟩ := List.getLast?_eq_some_iff.mp hlast
    simp

theorem trimDots_trimDots (cs : List Char) : trimDots (trimDots cs) = trimDots cs :=
  List.rdropWhile_idempotent _ _

theorem trimDots_ne_nil {c : Char} {more : List Char} (hc : isNameStart c = true) :
    trimDots (c :: more) ≠ [] := by
  rw [trimDots_eq, ne_eq, List.rdropWhile_eq_nil_iff]
  intro hdots
  have hdot : c = '.' := by simpa using hdots c List.mem_cons_self
  rw [hdot] at hc
  revert hc
  decide

theorem trimDots_name (f : Function) : trimDots f.name.toList = f.name.toList := by
  cases f <;> decide

/-- A function's name has no dots at its end, in any letter case. -/
theorem trimDots_of_function {f : Function} {name : String} (h : f.name = name.map Char.toLower) :
    trimDots name.toList = name.toList := by
  rw [trimDots_eq_self_iff]
  intro hlast
  have hlower : f.name.toList.getLast? = some '.' := by
    rw [h, String.toList_map, List.getLast?_map, hlast]
    rfl
  exact trimDots_eq_self_iff.mp (trimDots_name f) hlower

/-- Of the names among the tokens of a phrase those that are kept are the names of values. -/
theorem filter_names (hnames : ∀ k ∈ ks, ∀ name, k.name? = some name → trimDots name ≠ [])
    (hfunctions : ∀ name, .function name ∈ ks → ∃ f : Function, f.name = name.map Char.toLower) :
    ((ks.filterMap TokenKind.name?).map (String.ofList ∘ trimDots)).filter
        (fun s => !s.isEmpty && !Function.isName s) =
      ((ks.filterMap TokenKind.path?).map trimmed).filter fun s => !Function.isName s := by
  induction ks with
  | nil => rfl
  | cons k ks ih =>
    obtain ⟨hk, hnames⟩ := List.forall_mem_cons.mp hnames
    have hrest := ih hnames fun name hmem => hfunctions name (List.mem_cons_of_mem _ hmem)
    cases k with
    | identifier path =>
      have hne : (trimmed path).isEmpty = false := by simpa [trimmed] using hk _ rfl
      have hscanned : (TokenKind.identifier path).name? = some path.toList := rfl
      have hread : (TokenKind.identifier path).path? = some path := rfl
      rw [List.filterMap_cons_some hscanned, List.filterMap_cons_some hread, List.map_cons,
        List.map_cons, List.filter_cons, List.filter_cons, hrest, Function.comp_apply, ← trimmed,
        hne]
      rfl
    | function name =>
      obtain ⟨f, hf⟩ := hfunctions name List.mem_cons_self
      have hname : Function.isName name = true :=
        Option.isSome_iff_exists.mpr ⟨f, lookup?_eq_some_iff.mpr hf⟩
      have hscanned : (TokenKind.function name).name? = some name.toList := rfl
      rw [List.filterMap_cons_some hscanned, List.filterMap_cons_none rfl, List.map_cons,
        Function.comp_apply, trimDots_of_function hf, String.ofList_toList, List.filter_cons, hrest]
      simp [hname]
    | _ => exact hrest

/-- What the scan of a text keeps are the names of values in its expression, in the same order and
without dots at their ends, but for those that are functions' names then. -/
theorem filter_lexicalNames {text : String} (h : parse text = .ok e) :
    ((lexicalNames [] false text.toList).map (String.ofList ∘ trimDots)).filter
        (fun s => !s.isEmpty && !Function.isName s) =
      (e.paths.map trimmed).filter fun s => !Function.isName s := by
  obtain ⟨ts, htokens, hparse⟩ := Fallible.bind_eq_ok_iff.mp h
  have hcuts := cuts_of_tokenize htokens
  have hderives := derives_of_parseTokens hparse
  rw [hcuts.lexicalNames_eq hderives.spaced (by simp), ← hderives.filterMap_path?]
  refine filter_names ?_ hderives.exists_function
  intro k hk name hname
  obtain ⟨c, more, rfl, hc⟩ := hcuts.exists_cons k hk name hname
  exact trimDots_ne_nil hc

/-- A name of a value that the scan of a text leaves out or changes: one that is a function's, in
any letter case, or that has a dot at its end. -/
def Overlooked (path : String) : Prop :=
  Function.isName path = true ∨ path.toList.getLast? = some '.'

instance : DecidablePred Overlooked := fun _ => inferInstanceAs (Decidable (_ ∨ _))

theorem trimmed_eq_self_iff {path : String} :
    trimmed path = path ↔ path.toList.getLast? ≠ some '.' := by
  rw [← trimDots_eq_self_iff, ← String.toList_inj, trimmed, String.toList_ofList]

/-- Of the values in an expression its text mentions all but the overlooked ones. -/
theorem mem_mentioned_iff {text path : String} (h : parse text = .ok e) (hpath : path ∈ e.paths) :
    path ∈ mentioned text ↔ ¬Overlooked path := by
  rw [mentioned, filter_lexicalNames h, List.mem_eraseDups, List.mem_filter, List.mem_map]
  unfold Overlooked
  rw [not_or, ← ne_eq (path.toList.getLast?), ← trimmed_eq_self_iff]
  constructor
  · rintro ⟨⟨other, -, rfl⟩, hname⟩
    refine ⟨by simpa using hname, ?_⟩
    rw [trimmed, trimmed, String.toList_ofList, trimDots_trimDots]
  · rintro ⟨hname, htrimmed⟩
    exact ⟨⟨path, hpath, htrimmed⟩, by simpa using hname⟩

/-! ### Repetitions -/

section
variable {α β : Type} [BEq α] [LawfulBEq α]

theorem filterMap_filter_ne {f : α → Option β} {a : α} (h : f a = none) (l : List α) :
    (l.filter fun b => !b == a).filterMap f = l.filterMap f := by
  rw [List.filterMap_filter]
  apply List.filterMap_congr
  intro b _
  by_cases hb : b = a
  · simp [hb, h]
  · simp [hb]

/-- Repetitions before a list is mapped make no difference once they are removed after it. -/
theorem eraseDups_filterMap_eraseDups [BEq β] [LawfulBEq β] (f : α → Option β) (l : List α) :
    (l.eraseDups.filterMap f).eraseDups = (l.filterMap f).eraseDups := by
  induction hlength : l.length using Nat.strong_induction_on generalizing l f with
  | _ n ih =>
    subst hlength
    cases l with
    | nil => rfl
    | cons a l =>
      have hshorter : (l.filter fun b => !b == a).length < (a :: l).length :=
        Nat.lt_succ_of_le (List.length_filter_le _ l)
      rw [List.eraseDups_cons]
      cases ha : f a with
      | none =>
        rw [List.filterMap_cons_none ha, List.filterMap_cons_none ha, ih _ hshorter f _ rfl,
          filterMap_filter_ne ha]
      | some b =>
        -- Later images equal to `b` go as well, so the induction is for the function without them.
        have hothers := filterMap_filter_ne (f := fun c => (f c).filter fun d => !d == b)
          (a := a) (by simp [ha]) l
        rw [List.filterMap_cons_some ha, List.filterMap_cons_some ha, List.eraseDups_cons,
          List.eraseDups_cons, List.filter_filterMap, List.filter_filterMap,
          ih _ hshorter _ _ rfl, hothers]

end

/-- The names that a text mentions are those of the values in its expression, in the order of their
first occurrence: without dots at their ends, functions' names and repetitions. -/
theorem mentioned_eq {text : String} (h : parse text = .ok e) :
    mentioned text =
      ((e.variableNames.map trimmed).filter fun s => !Function.isName s).eraseDups := by
  have hkept : ∀ names : List String,
      (names.map trimmed).filter (fun s => !Function.isName s) =
        names.filterMap (Option.guard (fun s => !Function.isName s) ∘ trimmed) := by
    intro names
    rw [← List.filterMap_eq_filter, List.filterMap_map]
  rw [mentioned, filter_lexicalNames h, variableNames, hkept, hkept, eraseDups_filterMap_eraseDups]

theorem mentioned_eq_trimmed :
    parse "max(fans., Rate.) - round + fans" = .ok (.binary .add (.binary .sub
      (.call "max" [.var "fans.", .var "Rate."]) (.var "round")) (.var "fans")) ∧
    mentioned "max(fans., Rate.) - round + fans" = ["fans", "Rate"] := by
  have hparse : parse "max(fans., Rate.) - round + fans" = .ok (.binary .add (.binary .sub
      (.call "max" [.var "fans.", .var "Rate."]) (.var "round")) (.var "fans")) := by cbv
  refine ⟨hparse, ?_⟩
  rw [mentioned_eq hparse]
  decide +kernel

end TableImport.Expr
