import SparkDev.Spark.Salting

/-!
# The generated facts and their dimension

`uniform_keys` and `skewed_keys` compute the key of a row from its id, the second one also from
a hash of it, and `key_dimension` lists a range of keys. An inner join of a fact with its
dimension should lose nothing: a key beyond the range would drop rows without an error.

Spark's `hash` and `rand` and the rounding of a floating-point product are parameters.

* `pmod_eq_emod`: Spark's `pmod` by a positive number is the remainder from 0 on, of negative
  hashes too.
* `joinsTotally_of_keys`: a fact whose keys are in the range joins totally.
* `facts_join_totally`: so do the facts of both generators.
-/

namespace SparkDev.Spark

open Sql

/-- `spark.range(start, end)`. -/
def sparkRange (start stop : ℤ) : List ℤ := (List.range (stop - start).toNat).map fun i : ℕ => start + i

/-- `F.pmod(a, n)`; `%` takes the sign of `a`. -/
def pmod (a n : ℤ) : ℤ :=
  let r := a.tmod n
  if r < 0 then (r + n).tmod n else r

/-- Python's `round`: a half goes to the even neighbour. -/
def roundHalfEven (q : ℚ) : ℤ :=
  let k := ⌊q⌋
  if q - k < 1 / 2 then k
  else if 1 / 2 < q - k then k + 1
  else if k % 2 = 0 then k else k + 1

/-- `F.element_at(xs, i)`: counted from 1, from the end for negative `i`, and null outside. -/
def elementAt (xs : List String) (i : ℤ) : Option String :=
  if 0 < i then xs[(i - 1).toNat]?
  else if i < 0 then xs.reverse[(-i - 1).toNat]?
  else none

/-- `F.array(F.lit("bronze"), F.lit("silver"), F.lit("gold"))`. -/
def tiers : List String := ["bronze", "silver", "gold"]

variable (hash : ℤ → ℤ) (rand : ℕ → ℤ → ℚ) (fl : ℚ → ℚ)

/-- `F.rand(seed=seed) * 100.0`, as drawn for the row. -/
def amount (seed : ℕ) (rowId : ℤ) : ℚ := fl (rand seed rowId * 100)

/-- `uniform_keys`. -/
def uniformKeys (nRows : ℤ) (nKeys : ℤ := 1000) : List (Fact ℚ) :=
  (sparkRange 0 nRows).map fun rowId => ⟨some (pmod rowId nKeys), some rowId, some (amount rand fl 17 rowId)⟩

/-- The key of a row of `skewed_keys`. -/
def skewedKey (hotPct nColdKeys hotKey rowId : ℤ) : ℤ :=
  let bucket := pmod (hash rowId) 100
  let coldKey := pmod rowId nColdKeys + 1
  if bucket < hotPct then hotKey else coldKey

/-- `skewed_keys`. The default fraction is the double nearest to 0.9. -/
def skewedKeys (nRows : ℤ) (hotKeyFraction : ℚ := 8106479329266893 / 2 ^ 53) (nColdKeys : ℤ := 1000)
    (hotKey : ℤ := 0) : Except String (List (Fact ℚ)) :=
  if ¬(0 < hotKeyFraction ∧ hotKeyFraction < 1) then
    .error "hot_key_fraction must be strictly between 0 and 1 (e.g. 0.9)."
  else
    let hotPct := roundHalfEven (fl (hotKeyFraction * 100))
    .ok <| (sparkRange 0 nRows).map fun rowId =>
      ⟨some (skewedKey hash hotPct nColdKeys hotKey rowId), some rowId, some (amount rand fl 23 rowId)⟩

/-- `key_dimension`. -/
def keyDimension (nKeys : ℤ) : List Dim :=
  (sparkRange 0 nKeys).map fun key => ⟨some key, some ("key_" ++ toString key), elementAt tiers (pmod key 3 + 1)⟩

/-- The columns of the fact in a row of the join. -/
def Joined.fact (j : Joined ℚ) : Fact ℚ := ⟨j.customerId, j.rowId, j.amount⟩

/-- Each row of the fact has a key from 0 to `last`. -/
def KeysUpTo (last : ℤ) (fact : List (Fact ℚ)) : Prop :=
  ∀ f ∈ fact, ∃ key, f.customerId = some key ∧ 0 ≤ key ∧ key ≤ last

/-- The rows of the fact are distinct, and an inner join with the dimension has each of them
once, with its amount, and no other. -/
structure JoinsTotally (fact : List (Fact ℚ)) (dim : List Dim) : Prop where
  distinct : (fact.map Fact.rowId).Nodup
  once : ∀ out, BrokenJoin fact dim out → (out.map Joined.fact).Perm fact

variable {hash rand fl} {fact : List (Fact ℚ)} {nRows nKeys nColdKeys hotKey hotPct a n k : ℤ} {f : ℚ}

/-! ## Ranges and remainders -/

theorem mem_sparkRange {start stop : ℤ} : k ∈ sparkRange start stop ↔ start ≤ k ∧ k < stop := by
  unfold sparkRange
  rw [List.mem_map]
  constructor
  · rintro ⟨i, hi, rfl⟩
    have hlt := List.mem_range.1 hi
    omega
  · rintro ⟨hstart, hstop⟩
    exact ⟨(k - start).toNat, List.mem_range.2 (by omega), by omega⟩

theorem sparkRange_nodup (start stop : ℤ) : (sparkRange start stop).Nodup := by
  refine List.nodup_range.map fun i j h => ?_
  have hij : (i : ℤ) = j := Int.add_left_cancel h
  exact Int.ofNat.inj hij

/-- **`pmod` is the remainder from 0 on**, also for a negative `a`. -/
theorem pmod_eq_emod (hn : 0 < n) : pmod a n = a % n := by
  unfold pmod
  have hlow := Int.lt_tmod_of_pos a hn
  have hhigh := Int.tmod_lt_of_pos a hn
  have hmod : a.tmod n % n = a % n := by
    rw [Int.tmod_def, Int.sub_mul_emod_self_left]
  dsimp only
  split
  · have hnonneg : 0 ≤ a.tmod n + n := by omega
    rw [Int.tmod_eq_emod_of_nonneg hnonneg, Int.add_emod_right, hmod]
  · rw [← hmod, Int.emod_eq_of_lt (by omega) hhigh]

example : pmod (-7) 100 = 93 := by decide

theorem pmod_bounds (a : ℤ) (hn : 0 < n) : 0 ≤ pmod a n ∧ pmod a n < n := by
  rw [pmod_eq_emod hn]
  exact ⟨Int.emod_nonneg a hn.ne', Int.emod_lt_of_pos a hn⟩

/-! ## The dimension -/

theorem keyDimension_keys (nKeys : ℤ) :
    (keyDimension nKeys).map Dim.customerId = (sparkRange 0 nKeys).map some := by
  unfold keyDimension
  rw [List.map_map]
  rfl

theorem keyDimension_unique (nKeys : ℤ) : UniqueKey Dim.customerId (keyDimension nKeys) := by
  refine unique_of_nodup_map ?_
  rw [keyDimension_keys]
  exact (sparkRange_nodup 0 nKeys).map (Option.some_injective ℤ)

theorem mem_keyDimension_keys : some k ∈ (keyDimension nKeys).map Dim.customerId ↔ 0 ≤ k ∧ k < nKeys := by
  rw [keyDimension_keys, List.mem_map_of_injective (Option.some_injective ℤ), mem_sparkRange]

/-- **No row of the dimension lacks its label or its tier.** -/
theorem keyDimension_complete : ∀ d ∈ keyDimension nKeys, d.keyLabel ≠ none ∧ ∃ tier ∈ tiers, d.tier = some tier := by
  intro d hd
  obtain ⟨key, -, rfl⟩ := List.mem_map.1 hd
  refine ⟨Option.some_ne_none _, ?_⟩
  obtain ⟨hlow, hhigh⟩ := pmod_bounds key (by decide : (0 : ℤ) < 3)
  have hindex : (pmod key 3 + 1 - 1).toNat < tiers.length := by
    have hlength : tiers.length = 3 := rfl
    omega
  refine ⟨tiers[(pmod key 3 + 1 - 1).toNat], List.getElem_mem hindex, ?_⟩
  unfold elementAt
  rw [if_pos (by omega), List.getElem?_eq_getElem hindex]

/-! ## The facts -/

/-- **A fact with its keys in the range joins totally.** -/
theorem joinsTotally_of_keys (hrows : (fact.map Fact.rowId).Nodup) (hkeys : KeysUpTo (nKeys - 1) fact) :
    JoinsTotally fact (keyDimension nKeys) := by
  refine ⟨hrows, fun out hout => hout.left_perm (fun _ _ => rfl) fun f hf => ?_⟩
  obtain ⟨key, hkey, hlow, hhigh⟩ := hkeys f hf
  have hmem : some key ∈ (keyDimension nKeys).map Dim.customerId := mem_keyDimension_keys.2 ⟨hlow, by omega⟩
  have hone := (keyDimension_unique nKeys).countP_eq_one hmem
  unfold onCustomer
  rw [hkey]
  exact hone

/-- Rows made from a range of ids are distinct. -/
theorem rowIds_nodup {row : ℤ → Fact ℚ} (hrow : ∀ rowId, (row rowId).rowId = some rowId) :
    (((sparkRange 0 nRows).map row).map Fact.rowId).Nodup := by
  have hcomp : Fact.rowId ∘ row = some := funext hrow
  rw [List.map_map, hcomp]
  exact (sparkRange_nodup 0 nRows).map (Option.some_injective ℤ)

theorem uniformKeys_keys (hn : 1 ≤ nKeys) : KeysUpTo (nKeys - 1) (uniformKeys rand fl nRows nKeys) := by
  intro f hf
  obtain ⟨rowId, -, rfl⟩ := List.mem_map.1 hf
  obtain ⟨hlow, hhigh⟩ := pmod_bounds rowId (by omega : 0 < nKeys)
  exact ⟨pmod rowId nKeys, rfl, hlow, by omega⟩

/-- The key of a row is the hot one, or one of the cold ones. -/
theorem skewedKey_bounds (hcold : 1 ≤ nColdKeys) (hhot : 0 ≤ hotKey ∧ hotKey ≤ nColdKeys) (rowId : ℤ) :
    0 ≤ skewedKey hash hotPct nColdKeys hotKey rowId ∧
      skewedKey hash hotPct nColdKeys hotKey rowId ≤ nColdKeys := by
  obtain ⟨hlow, hhigh⟩ := pmod_bounds rowId (by omega : 0 < nColdKeys)
  unfold skewedKey
  dsimp only
  split
  · exact hhot
  · constructor <;> omega

/-- **The generated facts join totally.** For every hash, every draw and every admitted
fraction, the keys of `skewed_keys` are from 0 to `n_cold_keys`, and a join with
`key_dimension(n_cold_keys + 1)` keeps each row once; likewise the keys of `uniform_keys` with
`key_dimension(n_keys)`. -/
theorem facts_join_totally (hash : ℤ → ℤ) (rand : ℕ → ℤ → ℚ) (fl : ℚ → ℚ) :
    (∀ nRows nColdKeys hotKey f, 1 ≤ nColdKeys → 0 ≤ hotKey → hotKey ≤ nColdKeys → 0 < f → f < 1 →
      ∃ fact, skewedKeys hash rand fl nRows f nColdKeys hotKey = .ok fact ∧ KeysUpTo nColdKeys fact ∧
        JoinsTotally fact (keyDimension (nColdKeys + 1))) ∧
      ∀ nRows nKeys, 1 ≤ nKeys →
        KeysUpTo (nKeys - 1) (uniformKeys rand fl nRows nKeys) ∧
          JoinsTotally (uniformKeys rand fl nRows nKeys) (keyDimension nKeys) := by
  constructor
  · intro nRows nColdKeys hotKey f hcold hlow hhigh hf0 hf1
    have hadmitted : ¬¬(0 < f ∧ f < 1) := not_not.2 ⟨hf0, hf1⟩
    refine ⟨_, if_neg hadmitted, ?_⟩
    have hkeys : KeysUpTo nColdKeys ((sparkRange 0 nRows).map fun rowId =>
        ⟨some (skewedKey hash (roundHalfEven (fl (f * 100))) nColdKeys hotKey rowId), some rowId,
          some (amount rand fl 23 rowId)⟩) := by
      intro r hr
      obtain ⟨rowId, -, rfl⟩ := List.mem_map.1 hr
      exact ⟨_, rfl, skewedKey_bounds hcold ⟨hlow, hhigh⟩ rowId⟩
    refine ⟨hkeys, joinsTotally_of_keys (rowIds_nodup fun _ => rfl) ?_⟩
    rwa [Int.add_sub_cancel]
  · intro nRows nKeys hn
    have hkeys : KeysUpTo (nKeys - 1) (uniformKeys rand fl nRows nKeys) := uniformKeys_keys hn
    exact ⟨hkeys, joinsTotally_of_keys (rowIds_nodup fun _ => rfl) hkeys⟩

/-- Five rows over two cold keys, with negative hashes, and five over three keys: five rows each, and
five rows of each join. -/
theorem facts_join_totally_five :
    (∃ fact, skewedKeys (fun rowId => -40 * rowId) (fun _ _ => 1 / 2) id 5 (1 / 2) 2 0 = .ok fact ∧
        fact.length = 5 ∧ KeysUpTo 2 fact ∧ JoinsTotally fact (keyDimension (2 + 1)) ∧
        ∀ out, BrokenJoin fact (keyDimension (2 + 1)) out → out.length = 5) ∧
      (uniformKeys (fun _ _ => 1 / 2) id 5 3).length = 5 ∧
      JoinsTotally (uniformKeys (fun _ _ => 1 / 2) id 5 3) (keyDimension 3) := by
  have hboth := facts_join_totally (fun rowId => -40 * rowId) (fun _ _ => 1 / 2) id
  obtain ⟨fact, hok, hkeys, hjoins⟩ := hboth.1 5 2 0 (1 / 2) (by decide) (by decide) (by decide) (by norm_num)
    (by norm_num)
  have hlength : fact.length = 5 := by
    rw [skewedKeys, if_neg (by norm_num)] at hok
    cases hok
    rfl
  have huniform := hboth.2 5 3 (by decide)
  refine ⟨⟨fact, hok, hlength, hkeys, hjoins, fun out hout => ?_⟩, rfl, huniform.2⟩
  have hrows := (hjoins.once out hout).length_eq
  rw [List.length_map] at hrows
  exact hrows.trans hlength

end SparkDev.Spark
