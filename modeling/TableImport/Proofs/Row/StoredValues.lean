import TableImport.Proofs.Row.Obtained
import TableImport.Row.Engine

/-! What is read at the paths of a row's documents after the rules have been applied to it. -/
namespace TableImport

/-- The rule stores a value in the document of a collection. -/
def Rule.Populates (r : Rule) (header row : Row) (c : Collection) : Prop :=
  r.collection = c ∧ ∃ v, r.Stores header row v

theorem Rule.stores_unique {r : Rule} {header row : Row} {v w : Json}
    (hv : r.Stores header row v) (hw : r.Stores header row w) : v = w := by
  obtain ⟨-, c, hc, hcv⟩ := hv
  obtain ⟨-, d, hd, hdw⟩ := hw
  rw [hc.unique hd, hdw] at hcv
  exact (Coerced.value.inj hcv).symm

namespace Obtained
variable {period : PricePeriod} {header row : Row} {rules : List Rule} {o o' : Obtained}
  {r : Rule} {c : Collection}

theorem getPath?_of_adds (h : Adds period header row o r (.ok o')) {path : String}
    (hpath : r.Populates header row c → ¬Path.Overlaps r.path path) :
    (o'.documents.ofCollection c).getPath? path = (o.documents.ofCollection c).getPath? path := by
  cases h with
  | books => rfl
  | nothing => rfl
  | stores hfails hstores =>
    by_cases hc : c = r.collection
    · subst hc
      rw [Documents.ofCollection_store_self]
      exact Document.getPath?_setPath_of_apart (hpath ⟨rfl, _, hstores⟩) _ _
    · rw [Documents.ofCollection_store_of_ne hc]

/-- A run changes nothing at a path that overlaps none of those at which its rules store values. -/
theorem getPath?_of_runs (h : Runs period header row o rules o') {path : String}
    (hpath : ∀ r ∈ rules, r.Populates header row c → ¬Path.Overlaps r.path path) :
    (o'.documents.ofCollection c).getPath? path = (o.documents.ofCollection c).getPath? path := by
  induction h with
  | nil => rfl
  | @cons o o₁ o₂ r rest hadds _ ih =>
    have htail := ih fun s hs => hpath s (List.mem_cons_of_mem r hs)
    have hhead := getPath?_of_adds hadds (hpath r (List.mem_cons_self ..))
    exact htail.trans hhead

theorem Runs.exists_of_append {before after : List Rule}
    (h : Runs period header row o (before ++ after) o') :
    ∃ o₁, Runs period header row o before o₁ ∧ Runs period header row o₁ after o' := by
  induction before generalizing o with
  | nil => exact ⟨o, .nil o, h⟩
  | cons s before ih =>
    cases h with
    | cons hadds hrest =>
      obtain ⟨o₁, hbefore, hafter⟩ := ih hrest
      exact ⟨o₁, .cons hadds hbefore, hafter⟩

/-- What a rule stores is there after the run if the rules after it store elsewhere. -/
theorem getPath?_of_later_apart {before after : List Rule}
    (h : Runs period header row o (before ++ r :: after) o') {v : Json}
    (hv : r.Stores header row v)
    (hafter : ∀ s ∈ after, s.Populates header row r.collection → ¬Path.Overlaps s.path r.path) :
    (o'.documents.ofCollection r.collection).getPath? r.path = some v := by
  obtain ⟨o₁, -, hrest⟩ := h.exists_of_append
  cases hrest with
  | cons hadds hrest =>
    rw [getPath?_of_runs hrest hafter]
    cases hadds with
    | books hfails hkind hbooks => exact absurd hbooks.1 hv.1
    | nothing hfails hobtains => exact absurd (.inr ⟨v, hv⟩) hobtains
    | stores hfails hw =>
      rw [Documents.ofCollection_store_self, Document.getPath?_setPath_self,
        Rule.stores_unique hw hv]

/-- The value that a rule stores is still there after a run of rules whose paths are apart. -/
theorem getPath?_of_stores (h : Runs period header row o rules o')
    (hapart : rules.Pairwise fun a b => ¬a.IsPrice → ¬b.IsPrice → a.collection = b.collection →
      ¬Path.Overlaps a.path b.path) (hr : r ∈ rules) {v : Json} (hv : r.Stores header row v) :
    (o'.documents.ofCollection r.collection).getPath? r.path = some v := by
  obtain ⟨before, after, rfl⟩ := List.append_of_mem hr
  obtain ⟨-, hlater, -⟩ := List.pairwise_append.mp hapart
  apply getPath?_of_later_apart h hv
  rintro s hs ⟨hc, w, hw⟩ hoverlap
  exact (List.pairwise_cons.mp hlater).1 s hs hv.1 hw.1 hc.symm hoverlap.symm

theorem isEmpty_ofCollection_of_runs (h : Runs period header row o rules o') :
    (o'.documents.ofCollection c).isEmpty = true ↔
      (o.documents.ofCollection c).isEmpty = true ∧ ∀ r ∈ rules, ¬r.Populates header row c := by
  induction h with
  | nil => simp
  | @cons o o₁ o₂ r rest hadds _ ih =>
    have hhead : (o₁.documents.ofCollection c).isEmpty = true ↔
        (o.documents.ofCollection c).isEmpty = true ∧ ¬r.Populates header row c := by
      cases hadds with
      | books hfails hkind hbooks =>
        refine (and_iff_left ?_).symm
        rintro ⟨-, v, hother, -⟩
        exact hother hbooks.1
      | nothing hfails hobtains =>
        refine (and_iff_left ?_).symm
        rintro ⟨-, v, hv⟩
        exact hobtains (.inr ⟨v, hv⟩)
      | stores hfails hstores =>
        by_cases hc : c = r.collection
        · subst hc
          have hpopulates : r.Populates header row r.collection := ⟨rfl, _, hstores⟩
          simp [Document.isEmpty_setPath, hpopulates]
        · rw [Documents.ofCollection_store_of_ne hc]
          exact (and_iff_left fun hpopulates => hc hpopulates.1.symm).symm
    rw [ih, hhead, and_assoc, List.forall_mem_cons]

theorem getPath?_booked (o : Obtained) {path : String}
    (hpath : c = .primary → Path.first path ≠ pricesKey) :
    (o.booked.ofCollection c).getPath? path = (o.documents.ofCollection c).getPath? path := by
  unfold booked
  split
  · rfl
  · cases c with
    | primary => exact Document.getPath?_mergePrices (hpath rfl) _ _
    | secondary => rfl

end Obtained

/-- The fields that the snapshot of a row is given. -/
def snapshotFields : List String :=
  ["entity_id", "snapshot_id", "snapshot_date", "snapshot_type", "data_source"]

theorem segments_of_mem_snapshotFields {name : String} (h : name ∈ snapshotFields) :
    Path.segments name = [name] := by
  simp only [snapshotFields, List.mem_cons, List.not_mem_nil, or_false] at h
  rcases h with rfl | rfl | rfl | rfl | rfl <;> rfl

namespace Engine

/-- Linking a snapshot only puts texts under the snapshot's own fields. -/
theorem link_induction (e : Engine) (id : String) (d : Documents) {P : Document → Prop}
    (hstart : P d.secondary) (hinsert : ∀ doc, P doc → ∀ name ∈ snapshotFields, ∀ s,
      P (doc.insert name (.string s))) : P (e.link id d) := by
  have hput : ∀ owned, P owned → P (owned.insert "snapshot_id"
      (.string (e.context.snapshotDate.compact ++ "-" ++ id))
      |>.insert "snapshot_date" (.string e.context.snapshotDate.text)
      |>.insert "snapshot_type" (.string e.context.snapshotType)
      |>.insert "data_source" (.string e.context.dataSource)) := by
    intro owned howned
    have hid := hinsert _ howned "snapshot_id" (by simp [snapshotFields])
      (e.context.snapshotDate.compact ++ "-" ++ id)
    have hdate := hinsert _ hid "snapshot_date" (by simp [snapshotFields])
      e.context.snapshotDate.text
    have htype := hinsert _ hdate "snapshot_type" (by simp [snapshotFields])
      e.context.snapshotType
    exact hinsert _ htype "data_source" (by simp [snapshotFields]) e.context.dataSource
  cases howner : e.context.entityId? d.primary with
  | none =>
    simp only [link, howner]
    exact hput _ hstart
  | some entity =>
    simp only [link, howner]
    exact hput _ (hinsert _ hstart "entity_id" (by simp [snapshotFields]) entity)

theorem getPath?_link (e : Engine) (id : String) (d : Documents) {path : String}
    (h : Path.first path ∉ snapshotFields) :
    (e.link id d).getPath? path = d.secondary.getPath? path := by
  apply link_induction (P := fun doc => doc.getPath? path = d.secondary.getPath? path)
  · rfl
  · intro doc hdoc name hname s
    have hne : Path.first path ≠ name := by
      rintro rfl
      exact h hname
    rw [Document.getPath?_insert_of_ne hne, hdoc]

theorem getPath?_link_eq_none (e : Engine) (id : String) {d : Documents} {path : String}
    (h : path ∉ snapshotFields) (hnone : d.secondary.getPath? path = none) :
    (e.link id d).getPath? path = none := by
  apply link_induction (P := fun doc => doc.getPath? path = none)
  · exact hnone
  · intro doc hdoc name hname s
    have hne : path ≠ name := by
      rintro rfl
      exact h hname
    exact Document.getPath?_insert_string hne s hdoc

end Engine
end TableImport
