import TableImport.Proofs.Row.Classification
import TableImport.Proofs.Row.Confinement
import TableImport.Proofs.Row.Prices
import TableImport.Proofs.Row.Snapshots
import TableImport.Proofs.Table.WholeCells

/-! Entities with whole numbers as their keys: the snapshot of a row is linked to the same entity
however the key is typed and read. -/
namespace TableImport
open Binary64 (ofInt)

namespace Obtained
variable {period : PricePeriod} {header row : Row} {rules : List Rule} {o o' : Obtained}

/-- Without rules for prices there are none. -/
theorem prices_of_no_price (h : Runs period header row o rules o')
    (hnone : ∀ s ∈ rules, ¬s.IsPrice) : o'.prices = o.prices := by
  induction h with
  | nil => rfl
  | cons hadds _ ih =>
    rw [List.forall_mem_cons] at hnone
    rw [ih hnone.2]
    cases hadds with
    | books hfails hkind hbooks => exact absurd hbooks.1 hnone.1
    | nothing => rfl
    | stores => rfl

end Obtained

namespace Mapping
variable {m : Mapping} {r : Rule}

/-- A rule for the primary document, with a path that no other rule and no computed field stores
at, above or below. -/
structure StoresAlone (m : Mapping) (r : Rule) : Prop where
  primary : r.collection = .primary
  rules : ∃ before after, m.rules = before ++ r :: after ∧
    ∀ s ∈ before ++ after, s.collection = .primary ∨ s.IsPrice → ¬Path.Overlaps s.path r.path
  fields : ∀ f ∈ m.computedFields, ¬f.Touches .primary r.path

/-- Rules for prices would store above a path among the prices. -/
theorem StoresAlone.no_price (halone : m.StoresAlone r) (hother : ¬r.IsPrice)
    (hfirst : Path.first r.path = pricesKey) : ∀ s ∈ m.rules, ¬s.IsPrice := by
  obtain ⟨before, after, hrules, hapart⟩ := halone.rules
  intro s hs hprice
  have hover : Path.Overlaps s.path r.path := by
    rw [hprice.1]
    exact (Path.overlaps_of_first_eq rfl hfirst).symm
  rw [hrules, List.mem_append, List.mem_cons, or_left_comm, ← List.mem_append] at hs
  rcases hs with rfl | hs
  · exact hother hprice
  · exact hapart s hs (.inr hprice) hover

/-- What such a rule reads is in the primary document of an accepted row. -/
theorem StoresAlone.getPath? (halone : m.StoresAlone r) {context : Context} {period : PricePeriod}
    {header row : Row} {d : Documents}
    (haccepted : (Engine.ofMapping m context period).mapRow (Header.ofRow header) row =
      .accepted d) {v : Json} (hv : r.Stores header row v) :
    d.primary.getPath? r.path = some v := by
  obtain ⟨o, hruns, rfl⟩ := Engine.runs_of_accepted haccepted
  obtain ⟨before, after, hrules, hapart⟩ := halone.rules
  have hruns' : Obtained.Runs period header row .none (before ++ r :: after) o := hrules ▸ hruns
  rw [List.forall_mem_append] at hapart
  have hstored : (o.documents.ofCollection .primary).getPath? r.path = some v := by
    rw [← halone.primary]
    apply Obtained.getPath?_of_later_apart hruns' hv
    rintro s hs ⟨hc, -⟩
    exact hapart.2 s hs (.inl (hc.trans halone.primary))
  have hbooked : (o.booked.ofCollection .primary).getPath? r.path = some v := by
    by_cases hfirst : Path.first r.path = pricesKey
    · have hprices : o.prices = [] :=
        Obtained.prices_of_no_price hruns (halone.no_price hv.1 hfirst)
      rw [Obtained.booked, hprices]
      exact hstored
    · rw [Obtained.getPath?_booked o fun _ => hfirst, hstored]
  exact (Documents.getPath?_foldl_addComputed halone.fields o.booked).trans hbooked

/-- The snapshot of an accepted row belongs to the same entity whether the whole number that is its
key is typed as a number or as a text, and whether the key's rule reads numbers or texts: the one
stored for the digits of the number, or these digits themselves. -/
theorem snapshot_entity_of_whole_key (m : Mapping) (context : Context) (period : PricePeriod)
    {r : Rule} (halone : m.StoresAlone r) (hother : ¬r.IsPrice)
    (hformat : r.format = .text ∨ r.format = .number) (hkey : context.keyPath? = some r.path)
    {i : Int} (hi : i.natAbs < 2 ^ 53) {c : Cell}
    (hc : c = .number (ofInt i) ∨ c = .text (toString i)) {header row : Row}
    (hunder : CellUnder header row r.header c) {d : Documents}
    (haccepted : (Engine.ofMapping m context period).mapRow (Header.ofRow header) row =
      .accepted d) (before after : List Row) (ids : IdSource) :
    let e := Engine.ofMapping m context period
    let entity := (Assoc.get? (toString i) context.entityIds).getD (toString i)
    context.entityId? d.primary = some entity ∧
      ∃ snapshot? : Option Document,
        (e.mapTable (header :: (before ++ row :: after)) ids).1.snapshots =
            (e.mapTable (header :: before) ids).1.snapshots ++
              (snapshot?.toList ++ (e.mapRows (Header.ofRow header) (before.length + 2) after
                (e.mapTable (header :: (before ++ [row])) ids).2).1.snapshots) ∧
          (snapshot?.isSome = true ↔ ¬d.secondary.isEmpty = true) ∧
          ∀ s ∈ snapshot?, s.get? "entity_id" = some (.string entity) := by
  intro e entity
  obtain ⟨v, hvalue, hnatural⟩ := Cell.coerce_whole hi hc hformat
  have hstored := halone.getPath? haccepted ⟨hother, c, hunder, hvalue⟩
  have hentity : context.entityId? d.primary = some entity := by
    rw [Context.entityId?, hkey, Option.bind_some, hstored, Option.bind_some, hnatural]
    rfl
  obtain ⟨ids₁, -, hsnapshots⟩ := Engine.mapTable_of_accepted haccepted before after ids
  refine ⟨hentity, e.snapshot? ids₁ d, hsnapshots, e.isSome_snapshot? ids₁ d, ?_⟩
  intro s hs
  rw [Engine.snapshot?, Option.mem_def, Option.ite_none_left_eq_some] at hs
  obtain ⟨-, hlink⟩ := hs
  obtain rfl := Option.some.inj hlink
  exact (e.isSnapshotOf_link ids₁.next.1 d).entity entity hentity

theorem StoresAlone.of_pair {s : Rule} (hrules : m.rules = [r, s])
    (hfields : m.computedFields = []) (hr : r.collection = .primary)
    (hs : s.collection = .secondary) (hprice : ¬s.IsPrice) : m.StoresAlone r where
  primary := hr
  rules := by
    refine ⟨[], [s], hrules, ?_⟩
    rintro t ht (hc | htprice)
    · obtain rfl := List.mem_singleton.mp ht
      rw [hs] at hc
      cases hc
    · obtain rfl := List.mem_singleton.mp ht
      exact absurd htprice hprice
  fields := by simp [hfields]

/-- The numbers of users, and how often they have played. -/
def uidRule : Rule := { header := "Uid", path := "ids.uid", format := .number }

def playsRule : Rule :=
  { header := "Plays", path := "plays", format := .number, collection? := some .secondary }

def users : Mapping := ⟨"sheet", "users", [uidRule, playsRule], []⟩

/-- User -42 is stored as an entity. -/
def userContext : Context where
  snapshotDate := default
  keyPath? := some "ids.uid"
  entityIds := [("-42", "e7")]

theorem snapshot_entity_of_whole_key_user :
    users.StoresAlone uidRule ∧ ¬uidRule.IsPrice ∧ userContext.keyPath? = some uidRule.path ∧
      CellUnder [.text "Uid", .text "Plays"] [.text "-42", .number 100] "Uid" (.text "-42") ∧
      ∃ d, (Engine.ofMapping users userContext ⟨2024, 1⟩).mapRow
          (Header.ofRow [.text "Uid", .text "Plays"]) [.text "-42", .number 100] = .accepted d ∧
        userContext.entityId? d.primary = some "e7" := by
  have halone : users.StoresAlone uidRule :=
    .of_pair rfl rfl rfl rfl fun h => absurd h.2 (by decide)
  have hother : ¬uidRule.IsPrice := fun h => absurd h.2 (by decide)
  have hunder : CellUnder [.text "Uid", .text "Plays"] [.text "-42", .number 100] "Uid"
      (.text "-42") := ⟨0, ⟨_, rfl, rfl⟩, fun j hj => absurd hj (Nat.not_lt_zero j), rfl⟩
  have hsmall : (-42 : Int).natAbs < 2 ^ 53 := by decide
  have hcell : Cell.text "-42" = .number (ofInt (-42)) ∨
      Cell.text "-42" = .text (toString (-42 : Int)) := .inr rfl
  obtain ⟨v, hvalue, -⟩ : ∃ v, (Cell.text "-42").coerce .number = .value v ∧ _ :=
    Cell.coerce_whole hsmall hcell (.inr rfl)
  obtain ⟨d, hd⟩ : ∃ d, (Engine.ofMapping users userContext ⟨2024, 1⟩).mapRow
      (Header.ofRow [.text "Uid", .text "Plays"]) [.text "-42", .number 100] = .accepted d := by
    refine (Engine.accepts_iff rfl).mpr ⟨?_, uidRule, List.mem_cons_self,
      .inr ⟨v, hother, _, hunder, hvalue⟩⟩
    rintro s hs ⟨hrequired, -⟩
    rcases List.mem_pair.mp hs with rfl | rfl <;> cases hrequired
  refine ⟨halone, hother, rfl, hunder, d, hd, ?_⟩
  exact (snapshot_entity_of_whole_key users userContext ⟨2024, 1⟩ halone hother (.inr rfl) rfl
    hsmall hcell hunder hd [] [] (.sequential "s" 0)).1

/-- Prices in the place of the numbers of users. -/
def pricedUsers : Mapping :=
  ⟨"sheet", "users", [Rule.ofPrice "Uid" "video", playsRule], []⟩

def priceContext : Context := { userContext with keyPath? := some pricesKey }

/-- The prices of a document are no key: where the rule of the key's path is for prices, the
snapshot belongs to no entity. -/
theorem no_entity_of_price_key :
    let r := Rule.ofPrice "Uid" "video"
    pricedUsers.validate = .ok () ∧ pricedUsers.StoresAlone r ∧ r.format = .number ∧
      priceContext.keyPath? = some r.path ∧
      CellUnder [.text "Uid", .text "Plays"] [.number (ofInt 7), .number 100] r.header
        (.number (ofInt 7)) ∧
      ∃ d, (Engine.ofMapping pricedUsers priceContext ⟨2024, 1⟩).mapRow
          (Header.ofRow [.text "Uid", .text "Plays"]) [.number (ofInt 7), .number 100] =
            .accepted d ∧
        ¬d.secondary.isEmpty = true ∧
        ∀ id, ((Engine.ofMapping pricedUsers priceContext ⟨2024, 1⟩).link id d).get? "entity_id" =
          none := by
  intro r
  have halone : pricedUsers.StoresAlone r :=
    .of_pair rfl rfl rfl rfl fun h => absurd h.2 (by decide)
  have hunder : CellUnder [.text "Uid", .text "Plays"] [.number (ofInt 7), .number 100] r.header
      (.number (ofInt 7)) := ⟨0, ⟨_, rfl, rfl⟩, fun j hj => absurd hj (Nat.not_lt_zero j), rfl⟩
  refine ⟨rfl, halone, rfl, rfl, hunder, ?_⟩
  have hrun : (match (Engine.ofMapping pricedUsers priceContext ⟨2024, 1⟩).mapRow
      (Header.ofRow [.text "Uid", .text "Plays"]) [.number (ofInt 7), .number 100] with
    | .accepted d => !d.secondary.isEmpty && (priceContext.entityId? d.primary).isNone &&
        (d.secondary.get? "entity_id").isNone
    | _ => false) = true := by decide +kernel
  cases hrow : (Engine.ofMapping pricedUsers priceContext ⟨2024, 1⟩).mapRow
      (Header.ofRow [.text "Uid", .text "Plays"]) [.number (ofInt 7), .number 100] with
  | skipped => simp [hrow] at hrun
  | rejected why => simp [hrow] at hrun
  | accepted d =>
    simp only [hrow, Bool.and_eq_true, Bool.not_eq_true', Option.isNone_iff_eq_none] at hrun
    obtain ⟨⟨hdata, hentity⟩, hfield⟩ := hrun
    refine ⟨d, rfl, by simp [hdata], fun id => ?_⟩
    have hcontext : (Engine.ofMapping pricedUsers priceContext ⟨2024, 1⟩).context =
        priceContext := rfl
    simp [Engine.link, hcontext, hentity, Document.get?_insert_of_ne, hfield]

end Mapping
end TableImport
