import TableImport.Proofs.Config.Rules
import TableImport.Proofs.Document.Keys
import TableImport.Proofs.Row.Accounting
import TableImport.Row.Summary

/-! The rejections of a summary as a histogram of the rejected rows. -/
namespace TableImport

/-- The reason is this one and the header to blame that one, the empty text standing for none. -/
def Rejection.IsFor (reason header : String) (why : Rejection) : Prop :=
  why.reason = reason ∧ why.header?.getD "" = header

instance (reason header : String) : DecidablePred (Rejection.IsFor reason header) := fun why =>
  inferInstanceAs (Decidable (why.reason = reason ∧ why.header?.getD "" = header))

namespace Summary
variable {counts : Assoc (Assoc Nat)} {m : Assoc Nat} {rows : List RejectedRow}
  {reason header : String}

/-- The count of a reason under a header, if there is one. -/
def countAt? (counts : Assoc (Assoc Nat)) (reason header : String) : Option Nat :=
  (Assoc.get? reason counts).bind (Assoc.get? header)

def sumOfHeaders (m : Assoc Nat) : Nat := (m.map fun p => p.2).sum

/-- All counts together. -/
def total (counts : Assoc (Assoc Nat)) : Nat := (counts.map fun p => sumOfHeaders p.2).sum

/-- Each reason stands once, in ascending order, and under it each of its headers once, in ascending
order; there is no reason without a header. -/
structure Tabulated (counts : Assoc (Assoc Nat)) : Prop where
  reasons : Assoc.Ordered counts
  headers : ∀ p ∈ counts, Assoc.Ordered p.2
  nonempty : ∀ p ∈ counts, p.2 ≠ []

/-! ### One more row -/

/-- One more under a header. -/
def bump (header : String) (m : Assoc Nat) : Assoc Nat :=
  Assoc.insert header ((Assoc.get? header m).getD 0 + 1) m

theorem count_eq (counts : Assoc (Assoc Nat)) (why : Rejection) :
    count counts why = Assoc.insert why.reason
      (bump (why.header?.getD "") ((Assoc.get? why.reason counts).getD [])) counts := rfl

theorem sumOfHeaders_bump (h : Assoc.Ordered m) (header : String) :
    sumOfHeaders (bump header m) = sumOfHeaders m + 1 := by
  have hsum := h.sum_insert (fun n => n) header ((Assoc.get? header m).getD 0 + 1)
  rw [Option.map_id'] at hsum
  unfold sumOfHeaders bump
  omega

theorem countAt?_count (counts : Assoc (Assoc Nat)) (why : Rejection) (reason header : String) :
    countAt? (count counts why) reason header =
      if why.IsFor reason header then some ((countAt? counts reason header).getD 0 + 1)
      else countAt? counts reason header := by
  rw [count_eq, countAt?, bump]
  unfold Rejection.IsFor
  by_cases hreason : why.reason = reason
  · subst hreason
    rw [Assoc.get?_insert_self, countAt?]
    by_cases hheader : why.header?.getD "" = header
    · subst hheader
      cases Assoc.get? why.reason counts <;> simp
    · -- Another header of the same reason keeps its count.
      cases Assoc.get? why.reason counts <;>
        simp [hheader, Assoc.get?_insert_of_ne (Ne.symm hheader)]
  · simp [hreason, countAt?, Assoc.get?_insert_of_ne (Ne.symm hreason)]

namespace Tabulated

theorem byHeader (h : Tabulated counts) (reason : String) :
    Assoc.Ordered ((Assoc.get? reason counts).getD []) := by
  cases hget : Assoc.get? reason counts with
  | none => exact List.Pairwise.nil
  | some m => exact h.headers (reason, m) (Assoc.mem_of_get? hget)

theorem count (h : Tabulated counts) (why : Rejection) : Tabulated (count counts why) := by
  rw [count_eq]
  refine ⟨h.reasons.insert .., ?_, ?_⟩
  · intro p hp
    rcases Assoc.mem_insert hp with rfl | hp
    · exact (h.byHeader why.reason).insert ..
    · exact h.headers p hp
  · intro p hp
    rcases Assoc.mem_insert hp with rfl | hp
    · exact Assoc.insert_ne_nil _ _ _
    · exact h.nonempty p hp

theorem total_count (h : Tabulated counts) (why : Rejection) :
    total (Summary.count counts why) = total counts + 1 := by
  have hbump := sumOfHeaders_bump (h.byHeader why.reason) (why.header?.getD "")
  have hsum := h.reasons.sum_insert sumOfHeaders why.reason
    (bump (why.header?.getD "") ((Assoc.get? why.reason counts).getD []))
  have hbefore : ((Assoc.get? why.reason counts).map sumOfHeaders).getD 0 =
      sumOfHeaders ((Assoc.get? why.reason counts).getD []) := by
    cases Assoc.get? why.reason counts <;> rfl
  rw [count_eq, total, total]
  omega

end Tabulated

/-! ### All rows -/

/-- How many rows are rejected for a reason under a header. -/
def rowsFor (reason header : String) (rows : List RejectedRow) : Nat :=
  rows.countP fun r => r.why.IsFor reason header

theorem rowsFor_append (reason header : String) (a b : List RejectedRow) :
    rowsFor reason header (a ++ b) = rowsFor reason header a + rowsFor reason header b :=
  List.countP_append ..

/-- The counts are those of the rows: under each reason and header that some row has, the number of
the rows that have them, and nothing else. -/
structure IsHistogram (counts : Assoc (Assoc Nat)) (rows : List RejectedRow) : Prop where
  tabulated : Tabulated counts
  countAt : ∀ reason header, countAt? counts reason header =
    if rowsFor reason header rows = 0 then none else some (rowsFor reason header rows)
  total : total counts = rows.length

namespace IsHistogram

theorem nil : IsHistogram [] [] where
  tabulated := ⟨List.Pairwise.nil, nofun, nofun⟩
  countAt _ _ := rfl
  total := rfl

theorem concat (h : IsHistogram counts rows) (r : RejectedRow) :
    IsHistogram (count counts r.why) (rows ++ [r]) where
  tabulated := h.tabulated.count r.why
  countAt reason header := by
    rw [countAt?_count, h.countAt, rowsFor_append]
    by_cases hr : r.why.IsFor reason header
    · have hone : rowsFor reason header [r] = 1 := by simp [rowsFor, hr]
      rw [if_pos hr, hone, if_neg (Nat.succ_ne_zero _)]
      split
      · next hnone => rw [hnone, Option.getD_none]
      · rfl
    · have hnone : rowsFor reason header [r] = 0 := by simp [rowsFor, hr]
      rw [if_neg hr, hnone, Nat.add_zero]
  total := by rw [h.tabulated.total_count, h.total, List.length_append, List.length_singleton]

theorem exists_row (h : IsHistogram counts rows) {n : Nat}
    (hn : countAt? counts reason header = some n) : ∃ r ∈ rows, r.why.IsFor reason header := by
  rw [h.countAt] at hn
  split at hn
  · cases hn
  · next hcount => simpa [rowsFor, List.countP_eq_zero] using hcount

end IsHistogram

theorem isHistogram_rejections (o : Output) : IsHistogram o.summary.rejections o.rejected := by
  show IsHistogram (o.rejected.foldl (fun counts r => count counts r.why) []) o.rejected
  -- The last row comes last in the fold, so the induction takes rows from the end.
  induction o.rejected using List.reverseRecOn with
  | nil => exact .nil
  | append_singleton rows r ih =>
    rw [List.foldl_concat]
    exact ih.concat r

theorem countAt?_append (a b : Output) (reason header : String) :
    countAt? (a ++ b).summary.rejections reason header =
      Option.merge (· + ·) (countAt? a.summary.rejections reason header)
        (countAt? b.summary.rejections reason header) := by
  rw [(isHistogram_rejections _).countAt, (isHistogram_rejections a).countAt,
    (isHistogram_rejections b).countAt, Output.rejected_append, rowsFor_append]
  split <;> split <;> split <;> simp_all [Option.merge]

/-- Under a valid mapping rows are rejected for a missing field, which has a name, or for want of
data, which is under no name. -/
theorem reasons_of_counted {m : Mapping} (hvalid : m.validate = .ok ()) (context : Context)
    (period : PricePeriod) (table : Table) (ids : IdSource) {n : Nat}
    (hn : countAt? ((Engine.ofMapping m context period).mapTable table ids).1.summary.rejections
      reason header = some n) :
    reason = "missing required field" ∧ header ≠ "" ∨
      reason = "empty row or no valid data" ∧ header = "" := by
  obtain ⟨r, hr, hreason, hheader⟩ := (isHistogram_rejections _).exists_row hn
  rcases Engine.why_of_mem_rejected hr with ⟨s, hs, hwhy⟩ | hwhy
  · rw [hwhy] at hreason hheader
    obtain ⟨hname, -⟩ := Rule.fault?_eq_none_iff.mp ((Mapping.rules_of_validate hvalid).1 s hs)
    refine .inl ⟨hreason.symm, ?_⟩
    rintro rfl
    have hempty : s.header = "" := hheader
    rw [hempty] at hname
    cases hname
  · rw [hwhy] at hreason hheader
    exact .inr ⟨hreason.symm, hheader.symm⟩

/-- The rejections of a summary are the histogram of the rejected rows, that of two outputs together
is the sum of theirs, and under a valid mapping only the two reasons of the engine are counted, the
first under names and the second under none. -/
theorem rejections_histogram :
    (∀ o : Output, IsHistogram o.summary.rejections o.rejected) ∧
    (∀ a b : Output, (a ++ b).summary.valid = a.summary.valid + b.summary.valid ∧
      (a ++ b).summary.invalid = a.summary.invalid + b.summary.invalid ∧
      (a ++ b).summary.snapshots = a.summary.snapshots + b.summary.snapshots ∧
      ∀ reason header, countAt? (a ++ b).summary.rejections reason header =
        Option.merge (· + ·) (countAt? a.summary.rejections reason header)
          (countAt? b.summary.rejections reason header)) ∧
    ∀ (m : Mapping) (context : Context) (period : PricePeriod) (table : Table) (ids : IdSource),
      m.validate = .ok () → ∀ reason header n,
        countAt? ((Engine.ofMapping m context period).mapTable table ids).1.summary.rejections
            reason header = some n →
          reason = "missing required field" ∧ header ≠ "" ∨
            reason = "empty row or no valid data" ∧ header = "" := by
  refine ⟨isHistogram_rejections, fun a b => ?_, ?_⟩
  · exact ⟨List.length_append, List.length_append, List.length_append, countAt?_append a b⟩
  · intro m context period table ids hvalid reason header n hn
    exact reasons_of_counted hvalid context period table ids hn

end Summary

/-- Members, who must have a name. -/
def Mapping.members : Mapping :=
  ⟨"sheet", "members",
    [{ header := "Name", path := "name", required := true },
      { header := "Town", path := "town" }], []⟩

namespace Summary

theorem rejections_histogram_members : Mapping.members.validate = .ok () ∧
    let context : Context := { snapshotDate := ⟨2024, 1, 31, by decide⟩ }
    let out := ((Engine.ofMapping .members context ⟨2024, 1⟩).mapTable
      [[.text "Name", .text "Town"], [.text " ", .text "B"], [.text "Alpha"], [],
        [.empty, .bool true]] (.sequential "id" 0)).1
    countAt? out.summary.rejections "missing required field" "Name" = some 2 ∧
      rowsFor "missing required field" "Name" out.rejected = 2 ∧
      ("missing required field" = "missing required field" ∧ "Name" ≠ "" ∨
        "missing required field" = "empty row or no valid data" ∧ "Name" = "") := by
  have hvalid : Mapping.members.validate = .ok () := by rfl
  refine ⟨hvalid, ?_⟩
  intro context out
  have hcount : countAt? out.summary.rejections "missing required field" "Name" = some 2 := by
    rfl
  obtain ⟨hhistogram, -, hreasons⟩ := rejections_histogram
  refine ⟨hcount, ?_, hreasons _ _ _ _ _ hvalid _ _ _ hcount⟩
  have hentry := (hhistogram out).countAt "missing required field" "Name"
  rw [hcount] at hentry
  split at hentry
  · cases hentry
  · exact (Option.some.inj hentry).symm

end Summary
end TableImport
