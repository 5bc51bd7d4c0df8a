import TableImport.Proofs.Row.Stages
import TableImport.Proofs.Row.StoredValues
import TableImport.Proofs.Row.Tables

/-! The documents of an accepted row hold what the rules say and nothing else. -/
namespace TableImport

/-- The document of a collection among those of one row, which need not have a snapshot. -/
def rowDocument? (primary : Document) (snapshot? : Option Document) : Collection → Option Document
  | .primary => some primary
  | .secondary => snapshot?

/-- What the documents of a row hold. -/
structure RowContents (rules : List Rule) (header row : Row) (primary : Document)
    (snapshot? : Option Document) : Prop where
  /-- A value that a rule reads from its cell is at the rule's path. -/
  stored : ∀ r ∈ rules, ∀ v, r.Stores header row v →
    (rowDocument? primary snapshot? r.collection).bind (·.getPath? r.path) = some v
  /-- Nothing is at the path of a rule whose cell gives no value. -/
  unstored : ∀ r ∈ rules, ¬r.IsPrice → (¬∃ v, r.Stores header row v) →
    (rowDocument? primary snapshot? r.collection).bind (·.getPath? r.path) = none
  /-- Nothing is at other paths than those of stored values, prices and the snapshot's fields. -/
  absent : ∀ c path, (∀ r ∈ rules, r.Populates header row c → ¬Path.Overlaps r.path path) →
    (c = .primary → Path.first path ≠ pricesKey) →
    (c = .secondary → path ∉ snapshotFields) →
    (rowDocument? primary snapshot? c).bind (·.getPath? path) = none
  /-- There is a snapshot if a rule has obtained a value for it. -/
  hasSnapshot : snapshot?.isSome = true ↔
    ∃ r ∈ rules, r.collection = .secondary ∧ r.Obtains header row

/-- No rule stores at, above or below a field that snapshots are given. -/
def Mapping.SparesSnapshotFields (m : Mapping) : Prop :=
  ∀ r ∈ m.rules, ¬r.IsPrice → r.collection = .secondary →
    ∀ name ∈ snapshotFields, ¬Path.Overlaps r.path name

namespace Engine
variable {c : Collection}

theorem isSome_snapshot? (e : Engine) (ids : IdSource) (d : Documents) :
    (e.snapshot? ids d).isSome = true ↔ ¬d.secondary.isEmpty = true := by
  unfold snapshot?
  split
  · next hempty => simp [hempty]
  · next hempty => simp [hempty]

theorem secondary_booked (o : Obtained) : o.booked.secondary = o.documents.secondary := by
  unfold Obtained.booked
  split <;> rfl

/-- Prices and the fields of snapshots aside, the documents show what the rules have stored. -/
theorem getPath?_rowDocument (e : Engine) (o : Obtained) (ids : IdSource) {path : String}
    (hprimary : c = .primary → Path.first path ≠ pricesKey)
    (hsecondary : c = .secondary → Path.first path ∉ snapshotFields) :
    (rowDocument? o.booked.primary (e.snapshot? ids o.booked) c).bind (·.getPath? path) =
      (o.documents.ofCollection c).getPath? path := by
  have hbooked := Obtained.getPath?_booked o hprimary
  cases c with
  | primary => exact hbooked
  | secondary =>
    rw [← hbooked]
    unfold rowDocument? snapshot?
    by_cases hempty : o.booked.secondary.isEmpty = true
    · rw [if_pos hempty]
      exact (Document.getPath?_of_isEmpty hempty path).symm
    · rw [if_neg hempty]
      exact getPath?_link e ids.next.1 o.booked (hsecondary rfl)

theorem getPath?_rowDocument_eq_none (e : Engine) {o : Obtained} (ids : IdSource) {path : String}
    (hnone : (o.documents.ofCollection c).getPath? path = none)
    (hprimary : c = .primary → Path.first path ≠ pricesKey)
    (hsecondary : c = .secondary → path ∉ snapshotFields) :
    (rowDocument? o.booked.primary (e.snapshot? ids o.booked) c).bind (·.getPath? path) = none := by
  rw [← Obtained.getPath?_booked o hprimary] at hnone
  cases c with
  | primary => exact hnone
  | secondary =>
    unfold rowDocument? snapshot?
    by_cases hempty : o.booked.secondary.isEmpty = true
    · rw [if_pos hempty]
      rfl
    · rw [if_neg hempty]
      exact getPath?_link_eq_none e ids.next.1 (hsecondary rfl) hnone

end Engine

namespace Mapping
variable {m : Mapping} {header row : Row}

theorem first_not_mem_snapshotFields (h : m.SparesSnapshotFields) {r : Rule} (hr : r ∈ m.rules)
    (hother : ¬r.IsPrice) (hc : r.collection = .secondary) :
    Path.first r.path ∉ snapshotFields := by
  intro hmem
  exact h r hr hother hc _ hmem
    (Path.overlaps_of_first_eq (segments_of_mem_snapshotFields hmem) rfl)

theorem rowContents (hvalid : m.validate = .ok ()) (hfree : m.PrefixFree)
    (hspare : m.SparesSnapshotFields) {e : Engine} (hrules : e.rules = m.rules)
    {o : Obtained} (hruns : Obtained.Runs e.period header row .none e.rules o) (ids : IdSource) :
    RowContents m.rules header row o.booked.primary (e.snapshot? ids o.booked) := by
  have hfaults := (rules_of_validate hvalid).1
  have hapart := hfree.pairwise_apart hvalid
  rw [hrules] at hruns
  have hprimary : ∀ r ∈ m.rules, ¬r.IsPrice → r.collection = .primary →
      Path.first r.path ≠ pricesKey :=
    fun r hr hother hc => Rule.first_ne_pricesKey (hfaults r hr) hother hc
  have hsecondary : ∀ r ∈ m.rules, ¬r.IsPrice → r.collection = .secondary →
      Path.first r.path ∉ snapshotFields :=
    fun r hr hother hc => first_not_mem_snapshotFields hspare hr hother hc
  have hstart : ∀ c path, (Obtained.none.documents.ofCollection c).getPath? path = none := by
    intro c path
    cases c <;> rfl
  refine ⟨?_, ?_, ?_, ?_⟩
  · intro r hr v hv
    rw [Engine.getPath?_rowDocument e o ids (hprimary r hr hv.1) (hsecondary r hr hv.1)]
    exact Obtained.getPath?_of_stores hruns hapart hr hv
  · intro r hr hother hnone
    rw [Engine.getPath?_rowDocument e o ids (hprimary r hr hother) (hsecondary r hr hother),
      Obtained.getPath?_of_runs hruns, hstart]
    rintro s hs ⟨hc, v, hv⟩
    apply hfree.apart hs hr hv.1 hother hc
    rintro rfl
    exact hnone ⟨v, hv⟩
  · intro c path hpath hprices hfields
    refine Engine.getPath?_rowDocument_eq_none e ids ?_ hprices hfields
    rw [Obtained.getPath?_of_runs hruns hpath, hstart]
  · have hempty := Obtained.isEmpty_ofCollection_of_runs (c := .secondary) hruns
    rw [Engine.isSome_snapshot?, Engine.secondary_booked]
    constructor
    · intro hsome
      by_contra hnone
      apply hsome
      refine hempty.mpr ⟨rfl, ?_⟩
      rintro r hr ⟨hc, v, hv⟩
      exact hnone ⟨r, hr, hc, .inr ⟨v, hv⟩⟩
    · rintro ⟨r, hr, hc, hobtains⟩ hnone
      rcases hobtains with ⟨x, hprice, -⟩ | ⟨v, hv⟩
      · rw [Rule.primary_of_isPrice (hfaults r hr) hprice] at hc
        cases hc
      · exact (hempty.mp hnone).2 r hr ⟨hc, v, hv⟩

/-- In the output of a table, the documents of each accepted row stand between those of the rows
before and after it, and hold exactly what the rules store from the row. -/
theorem mapTable_contents (m : Mapping) (context : Context) (period : PricePeriod)
    (hvalid : m.validate = .ok ()) (hcomputed : m.computedFields = []) (hfree : m.PrefixFree)
    (hspare : m.SparesSnapshotFields) (header row : Row) (before after : List Row) (ids : IdSource)
    (hrow : ∃ d, (Engine.ofMapping m context period).mapRow (Header.ofRow header) row =
      .accepted d) :
    ∃ primary snapshot?,
      let e := Engine.ofMapping m context period
      let all := (e.mapTable (header :: (before ++ row :: after)) ids).1
      let first := (e.mapTable (header :: before) ids).1
      let last := (e.mapRows (Header.ofRow header) (before.length + 2) after
        (e.mapTable (header :: (before ++ [row])) ids).2).1
      all.accepted = first.accepted ++ primary :: last.accepted ∧
        all.snapshots = first.snapshots ++ (snapshot?.toList ++ last.snapshots) ∧
        RowContents m.rules header row primary snapshot? := by
  obtain ⟨d, hd⟩ := hrow
  obtain ⟨o, hruns, rfl⟩ := Engine.runs_of_accepted hd
  obtain ⟨ids₁, haccepted, hsnapshots⟩ := Engine.mapTable_of_accepted hd before after ids
  have hplain : (Engine.ofMapping m context period).computed.foldl Documents.addComputed o.booked =
      o.booked := by
    simp [Engine.ofMapping, Engine.ofParts, hcomputed]
  rw [hplain] at haccepted hsnapshots
  exact ⟨_, _, haccepted, hsnapshots, rowContents hvalid hfree hspare rfl hruns ids₁⟩

/-- A name in the record of a fund and a rating in its snapshot. -/
def rated : Mapping :=
  ⟨"sheet", "rated", [{ header := "Name", path := "fund.name", required := true },
    { header := "Rating", path := "metrics.rating", collection? := some .secondary }], []⟩

theorem mapTable_contents_rated :
    rated.validate = .ok () ∧ rated.computedFields = [] ∧ rated.PrefixFree ∧
      rated.SparesSnapshotFields ∧
      ∃ primary snapshot?, RowContents rated.rules [.text "Name", .text "Rating"]
        [.text "Alpha", .text "AA"] primary snapshot? := by
  have hvalid : rated.validate = .ok () := by rfl
  have hfree : rated.PrefixFree := by
    intro a ha b hb _ _ hc hne hprefix
    simp only [rated, List.mem_cons, List.not_mem_nil, or_false] at ha hb
    rcases ha with rfl | rfl <;> rcases hb with rfl | rfl
    · exact hne rfl
    · cases hc
    · cases hc
    · exact hne rfl
  have hspare : rated.SparesSnapshotFields := by
    intro r hr _ hc name hname hoverlap
    simp only [rated, List.mem_cons, List.not_mem_nil, or_false] at hr
    rcases hr with rfl | rfl
    · cases hc
    · have hsegments := segments_of_mem_snapshotFields hname
      have hsingle : Path.first name = name :=
        Path.first_eq_of_tail_eq_nil (by rw [hsegments, List.tail_cons])
      have hfirst : Path.first "metrics.rating" = name := hoverlap.first_eq.trans hsingle
      rw [← hfirst] at hname
      exact absurd hname (by decide)
  obtain ⟨primary, snapshot?, -, -, hcontents⟩ :=
    mapTable_contents rated { snapshotDate := ⟨2024, 1, 31, by decide⟩ } ⟨2024, 1⟩ hvalid rfl hfree
      hspare [.text "Name", .text "Rating"] [.text "Alpha", .text "AA"] [] []
      (.sequential "s" 0) ⟨_, rfl⟩
  exact ⟨hvalid, rfl, hfree, hspare, primary, snapshot?, hcontents⟩

end Mapping
end TableImport
