import Mathlib.Algebra.Order.Ring.Int
import SparkDev.Sql.Qualify

/-!
# The earliest customer of each tier

`agg_customers`, `agg_customers_iceberg` and `poc_dialect_demo` keep the row with
`row_number() over (partition by membership_tier order by joined_at) = 1`. Which row that
is when several joined on the first day of a tier is up to the sort.

* `qualify_first`: every build picks one row for each tier, and an earliest one.
* `agree_iff`: the picked rows depend on the data alone exactly when no tier has two
  different rows that share its first `joined_at`.
-/

namespace SparkDev.Dbt

open Sql

/-- A row of `stg_customers` with its `joined_at`, in days. -/
structure StgCustomer where
  customerId : Option String
  fullName : Option String
  email : Option String
  phone : Option String
  city : Option String
  state : Option String
  membershipTier : Option String
  joinedAt : ℤ
  tenureDays : ℤ
  deriving DecidableEq, Repr

/-- A row of `poc_dialect_demo`. -/
structure DemoCustomer where
  customerId : Option String
  fullName : Option String
  membershipTier : Option String
  cohort : String
  city : String
  deriving DecidableEq, Repr

/-- `agg_customers`: `out` is a possible build of it from the rows in this order. -/
def AggCustomers (customers out : List StgCustomer) : Prop :=
  Qualify StgCustomer.membershipTier (RowOrder.asc StgCustomer.joinedAt) customers out

/-- `agg_customers_iceberg`. -/
def AggCustomersIceberg (customers out : List StgCustomer) : Prop :=
  Qualify StgCustomer.membershipTier (RowOrder.asc StgCustomer.joinedAt) customers out

/-- The columns of `poc_dialect_demo`. -/
def demoRow (c : StgCustomer) : DemoCustomer where
  customerId := c.customerId
  fullName := c.fullName
  membershipTier := c.membershipTier
  cohort := if 365 < c.tenureDays then "veteran" else "newcomer"
  city := c.city.getD "unknown"

/-- `poc_dialect_demo`. -/
def PocDialectDemo (customers : List StgCustomer) (out : List DemoCustomer) : Prop :=
  ∃ picked, Qualify StgCustomer.membershipTier (RowOrder.asc StgCustomer.joinedAt) customers picked ∧
    out = picked.map demoRow

/-- No row of its tier joined before `c`. -/
def Earliest (customers : List StgCustomer) (c : StgCustomer) : Prop :=
  c ∈ customers ∧ ∀ x ∈ customers, x.membershipTier = c.membershipTier → c.joinedAt ≤ x.joinedAt

/-- One row of each tier, an earliest one. -/
structure PicksEarliest (customers picked : List StgCustomer) : Prop where
  one : (picked.map StgCustomer.membershipTier).Nodup
  cover : ∀ t, t ∈ picked.map StgCustomer.membershipTier ↔ t ∈ customers.map StgCustomer.membershipTier
  earliest : ∀ s ∈ picked, Earliest customers s

/-- No tier has two different earliest rows. -/
def Untied (customers : List StgCustomer) : Prop :=
  ∀ r s, Earliest customers r → Earliest customers s → r.membershipTier = s.membershipTier → r = s

/-- Builds from any two orders of the rows hold the same rows, and so do the two copies. -/
structure Agree (customers : List StgCustomer) : Prop where
  agg : ∀ order order', order.Perm customers → order'.Perm customers →
    ∀ out out', AggCustomers order out → AggCustomers order' out' → out.Perm out'
  iceberg : ∀ order order', order.Perm customers → order'.Perm customers →
    ∀ out out', AggCustomersIceberg order out → AggCustomersIceberg order' out' → out.Perm out'
  demo : ∀ order order', order.Perm customers → order'.Perm customers →
    ∀ out out', PocDialectDemo order out → PocDialectDemo order' out' → out.Perm out'
  copies : ∀ order order', order.Perm customers → order'.Perm customers →
    ∀ out out', AggCustomers order out → AggCustomersIceberg order' out' → out.Perm out'

variable {customers order order' out out' : List StgCustomer} {r s : StgCustomer}

/-- **Every build picks an earliest row of each tier.** -/
theorem qualify_first (hperm : order.Perm customers)
    (h : Qualify StgCustomer.membershipTier (RowOrder.asc StgCustomer.joinedAt) order out) :
    PicksEarliest customers out := by
  have hrow := qualify_iff.1 h
  refine ⟨hrow.nodup, ?_, ?_⟩
  · intro t
    rw [List.mem_map, List.mem_map]
    constructor
    · rintro ⟨s, hs, ht⟩
      exact ⟨s, hperm.mem_iff.1 (hrow.mem s hs), ht⟩
    · rintro ⟨r, hr, ht⟩
      obtain ⟨s, hs, hst⟩ := hrow.cover r (hperm.mem_iff.2 hr)
      exact ⟨s, hs, hst.trans ht⟩
  · intro s hs
    refine ⟨hperm.mem_iff.1 (hrow.mem s hs), fun x hx ht => ?_⟩
    have hbefore := hrow.top s hs x (hperm.mem_iff.2 hx) ht
    exact not_lt.1 (of_decide_eq_false hbefore)

/-- Any earliest row can be the one that is picked. -/
theorem exists_pick (hs : Earliest customers s) :
    ∃ out, Qualify StgCustomer.membershipTier (RowOrder.asc StgCustomer.joinedAt) customers out ∧ s ∈ out := by
  have hrow := (rowNumberOne_spec StgCustomer.membershipTier (RowOrder.asc StgCustomer.joinedAt)
    customers).cons_top fun x hx ht => decide_eq_false (not_lt.2 (hs.2 x hx ht))
  refine ⟨_, qualify_iff.2 ⟨fun r hr => ?_, hrow.nodup, fun r hr => ?_, fun r hr x hx => ?_⟩,
    List.mem_cons_self⟩
  -- the row in front is one of the rows already
  · rcases List.mem_cons.1 (hrow.mem r hr) with rfl | hr
    · exact hs.1
    · exact hr
  · exact hrow.cover r (List.mem_cons_of_mem _ hr)
  · exact hrow.top r hr x (List.mem_cons_of_mem _ hx)

/-- Without ties what is picked is determined. -/
theorem picks_perm (hu : Untied customers) (h : PicksEarliest customers out)
    (h' : PicksEarliest customers out') : out.Perm out' := by
  have hsub : ∀ {o o' : List StgCustomer}, PicksEarliest customers o → PicksEarliest customers o' →
      ∀ r ∈ o, r ∈ o' := by
    intro o o' ho ho' r hr
    obtain ⟨s, hs, ht⟩ := List.mem_map.1 ((ho'.cover _).2 ((ho.cover _).1 (List.mem_map_of_mem hr)))
    rw [hu r s (ho.earliest r hr) (ho'.earliest s hs) ht.symm]
    exact hs
  rw [List.perm_ext_iff_of_nodup h.one.of_map h'.one.of_map]
  exact fun r => ⟨hsub h h' r, hsub h' h r⟩

/-- Two builds that agree have picked the same row of a tier. -/
theorem eq_of_picks_perm (h : PicksEarliest customers out) (h' : out.Perm out') (hr : r ∈ out)
    (hs : s ∈ out') (ht : r.membershipTier = s.membershipTier) : r = s :=
  List.inj_on_of_nodup_map h.one hr (h'.mem_iff.2 hs) ht

/-- **When the picked rows depend on the data alone.** -/
theorem agree_iff (customers : List StgCustomer) : Agree customers ↔ Untied customers := by
  constructor
  · intro h r s hr hs ht
    obtain ⟨out, hout, hro⟩ := exists_pick hr
    obtain ⟨out', hout', hso⟩ := exists_pick hs
    have hsame := h.agg customers customers (List.Perm.refl _) (List.Perm.refl _) out out' hout hout'
    exact eq_of_picks_perm (qualify_first (List.Perm.refl _) hout) hsame hro hso ht
  · intro hu
    have hpicked : ∀ order order', order.Perm customers → order'.Perm customers → ∀ out out',
        Qualify StgCustomer.membershipTier (RowOrder.asc StgCustomer.joinedAt) order out →
        Qualify StgCustomer.membershipTier (RowOrder.asc StgCustomer.joinedAt) order' out' →
        out.Perm out' :=
      fun _ _ ho ho' _ _ hout hout' => picks_perm hu (qualify_first ho hout) (qualify_first ho' hout')
    refine ⟨hpicked, hpicked, ?_, hpicked⟩
    rintro order order' ho ho' _ _ ⟨picked, hp, rfl⟩ ⟨picked', hp', rfl⟩
    exact (hpicked order order' ho ho' picked picked' hp hp').map demoRow

/-- **The top row of each tier.** Every build of the three models from the rows in any order
has one row for each tier, an earliest one; and the builds agree exactly when no tier has
two different earliest rows. -/
theorem top_one_per_tier (customers : List StgCustomer) :
    (∀ order, order.Perm customers →
      ((∃ out, AggCustomers order out) ∧ ∀ out, AggCustomers order out → PicksEarliest customers out) ∧
      ((∃ out, AggCustomersIceberg order out) ∧
        ∀ out, AggCustomersIceberg order out → PicksEarliest customers out) ∧
      ((∃ out, PocDialectDemo order out) ∧
        ∀ out, PocDialectDemo order out → ∃ picked, PicksEarliest customers picked ∧ out = picked.map demoRow)) ∧
      (Agree customers ↔ Untied customers) := by
  refine ⟨fun order hperm => ?_, agree_iff customers⟩
  obtain ⟨picked, hpicked⟩ :=
    exists_qualify StgCustomer.membershipTier (RowOrder.asc StgCustomer.joinedAt) order
  refine ⟨⟨⟨picked, hpicked⟩, fun _ => qualify_first hperm⟩, ⟨⟨picked, hpicked⟩, fun _ => qualify_first hperm⟩,
    ⟨⟨_, picked, hpicked, rfl⟩, ?_⟩⟩
  rintro _ ⟨picked', hpicked', rfl⟩
  exact ⟨picked', qualify_first hperm hpicked', rfl⟩

/-- Two gold members who joined on one day. -/
def firstAlice : StgCustomer := ⟨some "C001", some "Alice", none, none, none, none, some "gold", 19000, 100⟩

/-- The other one. -/
def firstBob : StgCustomer := ⟨some "C002", some "Bob", none, none, none, none, some "gold", 19000, 100⟩

/-- **Two orders, two results**: the Delta build picks one, the Iceberg build the other. -/
theorem tied_builds_differ :
    AggCustomers [firstAlice, firstBob] [firstAlice] ∧
      AggCustomersIceberg [firstBob, firstAlice] [firstBob] ∧
      [firstBob, firstAlice].Perm [firstAlice, firstBob] ∧ ¬[firstAlice].Perm [firstBob] ∧
      ¬Agree [firstAlice, firstBob] := by
  have ha : AggCustomers [firstAlice, firstBob] [firstAlice] :=
    qualify_iff.2 (rowNumberOne_spec StgCustomer.membershipTier (RowOrder.asc StgCustomer.joinedAt)
      [firstAlice, firstBob])
  have hb : AggCustomersIceberg [firstBob, firstAlice] [firstBob] :=
    qualify_iff.2 (rowNumberOne_spec StgCustomer.membershipTier (RowOrder.asc StgCustomer.joinedAt)
      [firstBob, firstAlice])
  have hswap : [firstBob, firstAlice].Perm [firstAlice, firstBob] := List.Perm.swap _ _ _
  have hne : ¬[firstAlice].Perm [firstBob] := by decide
  exact ⟨ha, hb, hswap, hne, fun h => hne (h.copies _ _ (List.Perm.refl _) hswap _ _ ha hb)⟩

end SparkDev.Dbt
