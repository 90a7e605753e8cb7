import SparkDev.Sql.Join
import Mathlib.Algebra.Order.Floor.Ring
import Mathlib.Algebra.Order.Ring.Rat
import Mathlib.Data.Rat.Floor
import Mathlib.Tactic.Linarith
import Mathlib.Tactic.Positivity

/-!
# The salted join of the skew lab

Every fact row gets a salt, the dimension is exploded over all salts, and the join is on
the salt as well, so that the hot key is spread over as many partitions as there are
salts.

* `salt_mem`: the salt drawn for a row is one the dimension is exploded over.
* `salted_join_eq`: the salted join returns the rows of the plain join, whatever salt each
  row was given.
* `salted_sum_differs`: `sum(amount)`, a sum of doubles, still depends on which rows share a partition.
-/

namespace SparkDev.Spark

open Sql

/-- A row of `fact`. -/
structure Fact (α : Type) where
  customerId : Option ℤ
  rowId : Option ℤ
  amount : Option α
  deriving DecidableEq

/-- A row of `dim`. -/
structure Dim where
  customerId : Option ℤ
  keyLabel : Option String
  tier : Option String
  deriving DecidableEq, Repr

/-- A row of `broken_join`: `customer_id` once, then the other columns. -/
structure Joined (α : Type) where
  customerId : Option ℤ
  rowId : Option ℤ
  amount : Option α
  keyLabel : Option String
  tier : Option String
  deriving DecidableEq

/-- A row of `salted_join`. -/
structure SaltedJoined (α : Type) extends Joined α where
  salt : ℤ
  deriving DecidableEq

variable {α : Type}

/-- `on="customer_id"`. -/
def onCustomer (f : Fact α) (d : Dim) : Bool := keyEq f.customerId d.customerId

/-- The columns of a matching pair. -/
def joined (f : Fact α) (d : Dim) : Joined α := ⟨f.customerId, f.rowId, f.amount, d.keyLabel, d.tier⟩

/-- `fact.join(dim, on="customer_id", how="inner")`. -/
def BrokenJoin (fact : List (Fact α)) (dim : List Dim) (out : List (Joined α)) : Prop :=
  InnerJoin onCustomer joined fact dim out

/-- `F.floor(F.rand() * S).cast("int")`, for one draw `u`. -/
def drawnSalt (S : ℕ) (u : ℚ) : ℤ := ⌊u * S⌋

/-- `fact.withColumn("salt", …)`; `salt i` is the salt of the `i`-th row. -/
def saltedFact (salt : ℕ → ℤ) (fact : List (Fact α)) : List (Fact α × ℤ) :=
  fact.mapIdx fun i f => (f, salt i)

/-- `[F.lit(i) for i in range(S)]`. -/
def salts (S : ℕ) : List ℤ := (List.range S).map fun i : ℕ => (i : ℤ)

/-- `dim.withColumn("salt", F.explode(F.array(…)))`. -/
def saltedDim (S : ℕ) (dim : List Dim) : List (Dim × ℤ) := spread (salts S) dim

/-- `salted_fact.join(salted_dim, on=["customer_id", "salt"], how="inner")`. -/
def SaltedJoin (S : ℕ) (salt : ℕ → ℤ) (fact : List (Fact α)) (dim : List Dim)
    (out : List (SaltedJoined α)) : Prop :=
  InnerJoin (onMarked onCustomer) (fun f d => ⟨joined f.1 d.1, f.2⟩) (saltedFact salt fact)
    (saltedDim S dim) out

/-- The rows without their salt. -/
def withoutSalt (parts : List (List (SaltedJoined α))) : List (List (Joined α)) :=
  parts.map fun rows => rows.map SaltedJoined.toJoined

/-- One more value of a sum. Nulls are skipped. -/
def addTo (sum value : Option Float) : Option Float :=
  match value with
  | none => sum
  | some x => some (sum.getD 0 + x)

/-- `agg(F.sum("amount"))` over the partitions of a join: each is summed in its order, then the sums of
the partitions in theirs. -/
def sumAmount (parts : List (List (Joined Float))) : Option Float :=
  (parts.map fun rows => (rows.map Joined.amount).foldl addTo none).foldl addTo none

/-- Rows with the same key are in the same partition. -/
def KeyedBy {ρ κ : Type} (key : ρ → κ) (parts : List (List ρ)) : Prop :=
  parts.Pairwise fun rows rows' => ∀ x ∈ rows, ∀ y ∈ rows', key x ≠ key y

instance {ρ κ : Type} [DecidableEq κ] (key : ρ → κ) (parts : List (List ρ)) : Decidable (KeyedBy key parts) :=
  inferInstanceAs (Decidable (parts.Pairwise fun rows rows' => ∀ x ∈ rows, ∀ y ∈ rows', key x ≠ key y))

variable {S : ℕ} {salt : ℕ → ℤ} {fact : List (Fact α)} {dim : List Dim}

theorem mem_salts {x : ℤ} : x ∈ salts S ↔ 0 ≤ x ∧ x < S := by
  unfold salts
  rw [List.mem_map]
  constructor
  · rintro ⟨i, hi, rfl⟩
    have hlt := List.mem_range.1 hi
    omega
  · rintro ⟨h0, hS⟩
    exact ⟨x.toNat, List.mem_range.2 (by omega), by omega⟩

theorem salts_nodup (S : ℕ) : (salts S).Nodup :=
  List.nodup_range.map fun _ _ h => Int.ofNat.inj h

/-- **The salt of a draw from [0, 1) is one of the exploded ones.** -/
theorem salt_mem {u : ℚ} (h0 : 0 ≤ u) (h1 : u < 1) (hS : 1 ≤ S) : drawnSalt S u ∈ salts S := by
  have hpos : (0 : ℚ) < S := by exact_mod_cast hS
  rw [mem_salts]
  unfold drawnSalt
  constructor
  · exact Int.floor_nonneg.2 (by positivity)
  · have hlt : u * S < S := by nlinarith
    rw [Int.floor_lt]
    exact_mod_cast hlt

theorem saltedFact_fst (salt : ℕ → ℤ) (fact : List (Fact α)) :
    (saltedFact salt fact).map Prod.fst = fact := by
  unfold saltedFact
  refine List.ext_getElem? fun i => ?_
  rw [List.getElem?_map, List.getElem?_mapIdx, Option.map_map]
  exact Option.map_id_fun ▸ rfl

theorem saltedFact_snd (hsalt : ∀ i < fact.length, 0 ≤ salt i ∧ salt i < S) :
    ∀ f ∈ saltedFact salt fact, f.2 ∈ salts S := by
  intro f hf
  obtain ⟨i, hi, rfl⟩ := List.mem_mapIdx.1 hf
  exact mem_salts.2 (hsalt i hi)

/-- The rows of the two joins are the same, each as often. -/
theorem joins_perm {plain : List (Joined α)} {salted : List (SaltedJoined α)}
    (hsalt : ∀ i < fact.length, 0 ≤ salt i ∧ salt i < S) (hp : BrokenJoin fact dim plain)
    (hs : SaltedJoin S salt fact dim salted) : (salted.map SaltedJoined.toJoined).Perm plain := by
  have hspread : (nestedLoop (onMarked onCustomer) (saltedFact salt fact) (saltedDim S dim)).map
      (fun p => (p.1.1, p.2.1)) = nestedLoop onCustomer fact dim := by
    refine (nestedLoop_spread (salts_nodup S) (saltedFact_snd hsalt)).trans ?_
    rw [saltedFact_fst]
  refine (hs.map SaltedJoined.toJoined).trans (List.Perm.trans ?_ hp.symm)
  rw [← hspread, List.map_map, List.map_map]
  exact List.Perm.refl _

/-- **Salting preserves the join.** For every fact, every dimension, every number of salts
and every salt of each fact row, the rows of the salted join without the salt are those of the
plain join, each as often, in whatever partitions the two come out. So every aggregate agrees that
sees neither the order of the rows nor their partitions. -/
theorem salted_join_eq (fact : List (Fact α)) (dim : List Dim) (S : ℕ) (salt : ℕ → ℤ)
    (hsalt : ∀ i < fact.length, 0 ≤ salt i ∧ salt i < S) (plain : List (List (Joined α)))
    (salted : List (List (SaltedJoined α))) (hp : BrokenJoin fact dim plain.flatten)
    (hs : SaltedJoin S salt fact dim salted.flatten) :
    (withoutSalt salted).flatten.Perm plain.flatten ∧
      ∀ (γ : Type) (agg : List (List (Joined α)) → γ),
        (∀ parts parts', parts.flatten.Perm parts'.flatten → agg parts = agg parts') →
          agg (withoutSalt salted) = agg plain := by
  have hperm : (withoutSalt salted).flatten.Perm plain.flatten := by
    unfold withoutSalt
    rw [← List.map_flatten]
    exact joins_perm hsalt hp hs
  exact ⟨hperm, fun γ agg hagg => hagg _ _ hperm⟩

/-- Three orders, two of them of the hot key and one of no customer. -/
def hotOrders : List (Fact ℚ) := [⟨some 0, some 1, some 10⟩, ⟨some 0, some 2, some 5⟩, ⟨none, some 3, some 7⟩]

/-- The dimension has the hot key twice. -/
def twoTiers : List Dim := [⟨some 0, some "key_0", some "bronze"⟩, ⟨some 0, some "key_0", some "gold"⟩]

/-- The two orders of the hot key are joined twice each: 30 in all. -/
theorem salted_join_eq_hot :
    ∃ salted : List (List (SaltedJoined ℚ)), SaltedJoin 2 (fun i => i % 2) hotOrders twoTiers salted.flatten ∧
      (withoutSalt salted).flatten.length = 4 ∧
      ((withoutSalt salted).flatten.filterMap Joined.amount).sum = 30 := by
  obtain ⟨plain, hp⟩ : ∃ plain, BrokenJoin hotOrders twoTiers plain := ⟨_, List.Perm.refl _⟩
  obtain ⟨salted, hs⟩ : ∃ salted, SaltedJoin 2 (fun i => i % 2) hotOrders twoTiers salted := by
    unfold SaltedJoin InnerJoin
    exact ⟨_, List.Perm.refl _⟩
  have hone : ∀ {ρ : Type} (rows : List ρ), [rows].flatten = rows := fun rows => List.append_nil rows
  obtain ⟨hperm, hagg⟩ := salted_join_eq hotOrders twoTiers 2 (fun i => i % 2) (by decide) [plain] [salted]
    (by rwa [hone]) (by rwa [hone])
  refine ⟨[salted], by rwa [hone], ?_, ?_⟩
  · rw [hperm.length_eq, hone, hp.length_eq]
    decide
  · rw [hagg ℚ (fun parts => (parts.flatten.filterMap Joined.amount).sum)
      fun parts parts' h => (h.filterMap Joined.amount).sum_eq, hone, (hp.filterMap Joined.amount).sum_eq]
    decide +kernel

/-- Three orders of one customer. -/
def tenths : List (Fact Float) := [⟨some 0, some 1, some 0.1⟩, ⟨some 0, some 2, some 0.2⟩, ⟨some 0, some 3, some 0.3⟩]

/-- **The sum of doubles may differ.** With salts 0, 1, 1 the plain join has the three orders in one
partition and the salted join in two: 0.1 + 0.2 + 0.3 is not 0.1 + (0.2 + 0.3). -/
theorem salted_sum_differs :
    ∃ (plain : List (List (Joined Float))) (salted : List (List (SaltedJoined Float))),
      BrokenJoin tenths [⟨some 0, some "key_0", some "bronze"⟩] plain.flatten ∧
      SaltedJoin 2 (fun i => if i = 0 then 0 else 1) tenths [⟨some 0, some "key_0", some "bronze"⟩] salted.flatten ∧
      KeyedBy Joined.customerId plain ∧ KeyedBy (fun r => (r.customerId, r.salt)) salted ∧
      sumAmount plain = some 0.6000000000000001 ∧ sumAmount (withoutSalt salted) = some 0.6 ∧
      sumAmount (withoutSalt salted) ≠ sumAmount plain := by
  let row (i : ℤ) (x : Float) : Joined Float := ⟨some 0, some i, some x, some "key_0", some "bronze"⟩
  refine ⟨[[row 1 0.1, row 2 0.2, row 3 0.3]], [[⟨row 1 0.1, 0⟩], [⟨row 2 0.2, 1⟩, ⟨row 3 0.3, 1⟩]], ?_, ?_, ?_, ?_, ?_,
    ?_, ?_⟩
  · exact List.Perm.refl _
  · exact List.Perm.refl _
  · decide +kernel
  · decide +kernel
  · decide +kernel
  · decide +kernel
  · decide +kernel

end SparkDev.Spark
