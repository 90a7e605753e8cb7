import Mathlib.Algebra.GroupWithZero.Nat
import Mathlib.Algebra.Order.Ring.Rat
import SparkDev.Runs.Chain

/-!
# Partitions and keys

`produce_events` sends a record to the partition that the hash of its key picks; a record
without a key goes to any. The hash is a parameter. The lab sends nine of ten records
under one key, reads `topic_end_offsets`, and then sends them again under many keys.

* `keys_in_order`: each key has one partition, with its records in the order they were sent.
* `offsets_sum`: the end offsets add up to the records.
* `hot_partition`: what the dominant key does to the spread, for every number of partitions.
* `rekeyed_offsets`: with the keys dealt out in turn, the offsets count the keys.
-/

namespace SparkDev.Kafka.Kaf1

open Runs

/-- A record as `producer.send` gets it. -/
structure Sent (μ : Type*) where
  key : Option String
  value : μ
  deriving DecidableEq, Repr

/-- A topic with the log of each partition. -/
structure Partitioned (μ : Type*) where
  partitions : ℕ
  logs : ℕ → List (Sent μ)

/-- A topic that `ensure_topic` has just made. -/
def Partitioned.fresh (μ : Type*) (partitions : ℕ) : Partitioned μ := ⟨partitions, fun _ => []⟩

variable {μ : Type*} (hash : String → ℕ)

/-- The partition of a record; `any` is the choice for one without a key. -/
def partitionOf (partitions any : ℕ) : Option String → ℕ
  | some k => hash k % partitions
  | none => any % partitions

/-- `producer.send(topic, key=key, value=value)`. -/
def Partitioned.send (t : Partitioned μ) (any : ℕ) (r : Sent μ) : Partitioned μ :=
  let p := partitionOf hash t.partitions any r.key
  { t with logs := fun q => if q = p then t.logs q ++ [r] else t.logs q }

/-- The records of `produce_events(topic, n, value_fn, key_fn)`. -/
def events (n : ℕ) (value : ℕ → μ) (key : ℕ → Option String) : List (Sent μ) :=
  (List.range n).map fun i => ⟨key i, value i⟩

/-- Producers send, one record at a time. -/
inductive Produce : Partitioned μ → Sent μ → Partitioned μ → Prop
  | send {t : Partitioned μ} {r : Sent μ} (any : ℕ) : Produce t r (t.send hash any r)

/-- `topic_end_offsets`. -/
def topicEndOffsets (t : Partitioned μ) : List (ℕ × ℕ) :=
  (List.range t.partitions).map fun p => (p, (t.logs p).length)

/-- The records sent in a run. -/
def sent (tr : List (Sent μ × Partitioned μ)) : List (Sent μ) := tr.map Prod.fst

/-- The numbers that `spread` prints of the offsets. -/
structure Spread where
  min : ℕ
  max : ℕ
  skew : ℚ
  deriving DecidableEq, Repr

/-- `spread`, of at least one partition. -/
def spread (offsets : List (ℕ × ℕ)) : Spread :=
  let lo := (offsets.map Prod.snd).min?.getD 0
  let hi := (offsets.map Prod.snd).max?.getD 0
  ⟨lo, hi, (hi : ℚ) / (Nat.max lo 1 : ℕ)⟩

/-- The keys of the first run: nine of ten are `HOT`, the others a customer each. -/
def dominantKey (i : ℕ) : Option String := if i % 10 ≠ 0 then some "HOT" else some ("cust-" ++ toString i)

/-- The keys of the second run: `d` customers in turn. -/
def customerKey (d i : ℕ) : Option String := some ("cust-" ++ toString (i % d))

variable {hash} {t t' : Partitioned μ} {r : Sent μ} {tr : List (Sent μ × Partitioned μ)}

/-! ## Runs -/

theorem Produce.partitions (h : Produce hash t r t') : t'.partitions = t.partitions := by
  obtain ⟨any⟩ := h
  rfl

theorem run_partitions : ∀ (tr : List (Sent μ × Partitioned μ)) (t : Partitioned μ),
    Chain (Produce hash) t tr → (final t tr).partitions = t.partitions := by
  intro tr
  induction tr with
  | nil => exact fun _ _ => rfl
  | cons x tr ih =>
    intro t h
    rw [final_cons, ih x.2 h.2, h.1.partitions]

/-- What one record adds to the records of a key in a partition. -/
theorem Produce.log (h : Produce hash t r t') (k : String) (p : ℕ) :
    (t'.logs p).filter (fun r => decide (r.key = some k)) =
      (t.logs p).filter (fun r => decide (r.key = some k)) ++
        if r.key = some k ∧ p = hash k % t.partitions then [r] else [] := by
  obtain ⟨any⟩ := h
  unfold Partitioned.send
  dsimp only
  by_cases hk : r.key = some k
  · have hp : partitionOf hash t.partitions any r.key = hash k % t.partitions := by rw [hk]; rfl
    rw [hp]
    by_cases heq : p = hash k % t.partitions
    · rw [if_pos heq, if_pos ⟨hk, heq⟩, List.filter_append, List.filter_cons_of_pos (by simp [hk])]
      rfl
    · have hnot : ¬(r.key = some k ∧ p = hash k % t.partitions) := fun hand => heq hand.2
      rw [if_neg heq, if_neg hnot, List.append_nil]
  · have hnot : ¬(r.key = some k ∧ p = hash k % t.partitions) := fun hand => hk hand.1
    rw [if_neg hnot, List.append_nil]
    split
    · rw [List.filter_append, List.filter_cons_of_neg (by simp [hk]), List.filter_nil, List.append_nil]
    · rfl

/-- **Each key has one partition, and its records are there in the order they were sent**, whoever
sends what in between. -/
theorem keys_in_order (k : String) (p : ℕ) : ∀ (tr : List (Sent μ × Partitioned μ)) (t : Partitioned μ),
    Chain (Produce hash) t tr →
    ((final t tr).logs p).filter (fun r => decide (r.key = some k)) =
      (t.logs p).filter (fun r => decide (r.key = some k)) ++
        if p = hash k % t.partitions then (sent tr).filter (fun r => decide (r.key = some k)) else [] := by
  intro tr
  induction tr with
  | nil =>
    intro t _
    simp [sent]
  | cons x tr ih =>
    intro t h
    obtain ⟨r, u⟩ := x
    rw [final_cons, ih u h.2, h.1.log k p, h.1.partitions, List.append_assoc]
    congr 1
    by_cases hp : p = hash k % t.partitions <;> by_cases hk : r.key = some k <;> simp [sent, hp, hk]

/-- One partition gets a record more. -/
theorem sum_range_succ_at (f : ℕ → ℕ) {q P : ℕ} (hq : q < P) :
    ((List.range P).map fun p => f p + if p = q then 1 else 0).sum = ((List.range P).map f).sum + 1 := by
  have hbelow : ∀ P, P ≤ q →
      ((List.range P).map fun p => f p + if p = q then 1 else 0).sum = ((List.range P).map f).sum := by
    intro P hP
    refine congrArg List.sum (List.map_congr_left fun p hp => ?_)
    have hlt : p < q := Nat.lt_of_lt_of_le (List.mem_range.1 hp) hP
    rw [if_neg (by omega), Nat.add_zero]
  induction P with
  | zero => omega
  | succ P ih =>
    rw [List.range_succ, List.map_append, List.map_append, List.sum_append, List.sum_append]
    simp only [List.map_cons, List.map_nil, List.sum_cons, List.sum_nil]
    by_cases heq : q = P
    · rw [hbelow P (by omega), if_pos heq.symm]
      omega
    · rw [ih (by omega), if_neg fun h => heq h.symm]
      omega

theorem endOffsets (t : Partitioned μ) :
    (topicEndOffsets t).map Prod.snd = (List.range t.partitions).map fun p => (t.logs p).length := by
  unfold topicEndOffsets
  rw [List.map_map]
  rfl

theorem partitionOf_lt (hpos : 0 < t.partitions) (any : ℕ) (key : Option String) :
    partitionOf hash t.partitions any key < t.partitions := by
  cases key <;> exact Nat.mod_lt _ hpos

/-- **The end offsets add up** to the records that were sent. -/
theorem offsets_sum : ∀ (tr : List (Sent μ × Partitioned μ)) (t : Partitioned μ), 0 < t.partitions →
    Chain (Produce hash) t tr →
    ((topicEndOffsets (final t tr)).map Prod.snd).sum =
      ((topicEndOffsets t).map Prod.snd).sum + (sent tr).length := by
  intro tr
  -- on the records: each lengthens one log by one
  induction tr with
  | nil => exact fun _ _ _ => rfl
  | cons x tr ih =>
    intro t hpos h
    obtain ⟨r, u⟩ := x
    obtain ⟨hstep, hrest⟩ := h
    have hupos : 0 < u.partitions := by rw [hstep.partitions]; exact hpos
    rw [final_cons, ih u hupos hrest]
    obtain ⟨any⟩ := hstep
    have hlen : ∀ p, ((t.send hash any r).logs p).length =
        (t.logs p).length + if p = partitionOf hash t.partitions any r.key then 1 else 0 := fun p => by
      unfold Partitioned.send
      dsimp only
      split
      · exact List.length_append
      · rfl
    rw [endOffsets, endOffsets]
    simp only [hlen]
    have hroute : partitionOf hash t.partitions any r.key < t.partitions := partitionOf_lt hpos any r.key
    have hone := sum_range_succ_at (fun p => (t.logs p).length) hroute
    have hsent : (sent ((r, t.send hash any r) :: tr)).length = (sent tr).length + 1 := rfl
    rw [show (t.send hash any r).partitions = t.partitions from rfl, hone, hsent]
    omega

/-- Whatever is to be sent can be. -/
theorem exists_run (hash : String → ℕ) (records : List (Sent μ)) : ∀ t : Partitioned μ,
    ∃ tr, Chain (Produce hash) t tr ∧ sent tr = records := by
  induction records with
  | nil => exact fun _ => ⟨[], trivial, rfl⟩
  | cons r records ih =>
    intro t
    obtain ⟨tr, h, hsent⟩ := ih (t.send hash 0 r)
    exact ⟨(r, t.send hash 0 r) :: tr, ⟨.send 0, h⟩, congrArg (r :: ·) hsent⟩

/-! ## The dominant key -/

theorem dominantKey_hot (i : ℕ) : dominantKey i = some "HOT" ↔ i % 10 ≠ 0 := by
  unfold dominantKey
  split
  · rename_i h
    exact ⟨fun _ => h, fun _ => rfl⟩
  · rename_i h
    refine ⟨fun heq => ?_, fun hne => absurd hne h⟩
    have hkey : "cust-" ++ toString i = "HOT" := Option.some.inj heq
    -- the two names differ in their first letter
    have hfirst := congrArg (fun k : String => k.toList.head?) hkey
    have hletter : ("cust-".toList ++ (toString i).toList).head? = some 'c' := rfl
    rw [String.toList_append, hletter] at hfirst
    exact absurd hfirst (by decide)

/-- All but a tenth of the records have the dominant key. -/
theorem hot_events (n : ℕ) (value : ℕ → μ) :
    ((events n value dominantKey).filter fun r => decide (r.key = some "HOT")).length + (n + 9) / 10 = n := by
  unfold events
  induction n with
  | zero => rfl
  | succ n ih =>
    rw [List.range_succ, List.map_append, List.filter_append, List.length_append]
    simp only [List.map_cons, List.map_nil, List.filter_cons, List.filter_nil, dominantKey_hot, decide_eq_true_eq]
    split <;> simp only [List.length_cons, List.length_nil] <;> omega

/-- The other partitions share what one leaves. -/
theorem rest_le {f : ℕ → ℕ} {lo q : ℕ} (P : ℕ) (hq : q < P + 1) (h : ∀ p < P + 1, lo ≤ f p) :
    f q + P * lo ≤ ((List.range (P + 1)).map f).sum := by
  have hall : ∀ P, (∀ p < P, lo ≤ f p) → P * lo ≤ ((List.range P).map f).sum := by
    intro P
    induction P with
    | zero => exact fun _ => Nat.le_of_eq (Nat.zero_mul lo)
    | succ P ih =>
      intro h
      have hrest := ih fun p hp => h p (Nat.lt_succ_of_lt hp)
      have hlast := h P (Nat.lt_succ_self P)
      rw [List.range_succ, List.map_append, List.sum_append, List.map_singleton, List.sum_singleton, Nat.succ_mul]
      omega
  induction P with
  | zero =>
    obtain rfl : q = 0 := by omega
    simp
  | succ P ih =>
    have hlast := h (P + 1) (Nat.lt_succ_self _)
    rw [List.range_succ, List.map_append, List.sum_append, List.map_singleton, List.sum_singleton]
    by_cases heq : q = P + 1
    · have hrest := hall (P + 1) fun p hp => h p (Nat.lt_succ_of_lt hp)
      rw [heq]
      omega
    · have hrest := ih (by omega) fun p hp => h p (Nat.lt_succ_of_lt hp)
      rw [Nat.succ_mul]
      omega

/-- The partition of the dominant key has all but a tenth of the records. -/
theorem hot_log {P n : ℕ} {value : ℕ → μ} (h : Chain (Produce hash) (Partitioned.fresh μ P) tr)
    (hsent : sent tr = events n value dominantKey) :
    n ≤ ((final (Partitioned.fresh μ P) tr).logs (hash "HOT" % P)).length + (n + 9) / 10 := by
  have hkey := keys_in_order "HOT" (hash "HOT" % P) tr (Partitioned.fresh μ P) h
  have hbefore : ((Partitioned.fresh μ P).logs (hash "HOT" % P)).filter
    (fun r => decide (r.key = some "HOT")) = [] := rfl
  rw [hsent, show (Partitioned.fresh μ P).partitions = P from rfl, if_pos rfl, hbefore, List.nil_append] at hkey
  have hlen := congrArg List.length hkey
  have hle := List.length_filter_le (fun r : Sent μ => decide (r.key = some "HOT"))
    ((final (Partitioned.fresh μ P) tr).logs (hash "HOT" % P))
  have hevents := hot_events n value
  omega

/-- The partitions of a new topic have the records that were sent. -/
theorem total_of_fresh {P : ℕ} (hP : 0 < P) (h : Chain (Produce hash) (Partitioned.fresh μ P) tr) :
    ((topicEndOffsets (final (Partitioned.fresh μ P) tr)).map Prod.snd).sum = (sent tr).length := by
  have hnone : ((topicEndOffsets (Partitioned.fresh μ P)).map Prod.snd).sum = 0 := by
    rw [endOffsets]
    simp [Partitioned.fresh]
  rw [offsets_sum tr (Partitioned.fresh μ P) hP h, hnone, Nat.zero_add]

/-- A bound of the skew, without the quotient. -/
theorem le_skew {offsets : List (ℕ × ℕ)} {k : ℕ} (h : k * Nat.max (spread offsets).min 1 ≤ (spread offsets).max) :
    (k : ℚ) ≤ (spread offsets).skew := by
  have hpos : (0 : ℚ) < (Nat.max (spread offsets).min 1 : ℕ) := by
    exact_mod_cast Nat.lt_of_lt_of_le Nat.zero_lt_one (Nat.le_max_right _ _)
  show _ ≤ ((spread offsets).max : ℚ) / (Nat.max (spread offsets).min 1 : ℕ)
  rw [le_div_iff₀ hpos]
  exact_mod_cast h

/-- **The dominant key makes one partition hot, and more partitions do not help.** For any hash and any
number of partitions, the fullest partition has all but a tenth of the `n` records; the emptiest has at
most its share of the tenth among the others. So the skew grows with the partitions: it is 9 times
their number less one, until the emptiest is empty. -/
theorem hot_partition (hash : String → ℕ) (P n : ℕ) (hP : 0 < P) (value : ℕ → μ)
    (tr : List (Sent μ × Partitioned μ)) (h : Chain (Produce hash) (Partitioned.fresh μ P) tr)
    (hsent : sent tr = events n value dominantKey) :
    let s := spread (topicEndOffsets (final (Partitioned.fresh μ P) tr))
    n ≤ s.max + (n + 9) / 10 ∧ (P - 1) * s.min ≤ (n + 9) / 10 ∧
      (n % 10 = 0 → ((9 * min (n / 10) (P - 1) : ℕ) : ℚ) ≤ s.skew) := by
  intro s
  set t := final (Partitioned.fresh μ P) tr with ht
  have hoffsets : (topicEndOffsets t).map Prod.snd = (List.range P).map fun p => (t.logs p).length := by
    rw [endOffsets, ht, run_partitions tr _ h]
    rfl
  have hmem : ∀ p < P, (t.logs p).length ∈ (topicEndOffsets t).map Prod.snd := fun p hp => by
    rw [hoffsets]
    exact List.mem_map.2 ⟨p, List.mem_range.2 hp, rfl⟩
  have hmin : ∀ p < P, s.min ≤ (t.logs p).length := fun p hp => List.min?_getD_le_of_mem (hmem p hp)
  have hq : hash "HOT" % P < P := Nat.mod_lt _ hP
  have hmax : (t.logs (hash "HOT" % P)).length ≤ s.max := List.le_max?_getD_of_mem (hmem _ hq)
  have hhot : n ≤ (t.logs (hash "HOT" % P)).length + (n + 9) / 10 := hot_log h hsent
  have hmaxn : n ≤ s.max + (n + 9) / 10 := by omega
  -- the other partitions share the records that the hot one does not have
  have hshare : (P - 1) * s.min ≤ (n + 9) / 10 := by
    obtain ⟨m, rfl⟩ : ∃ m, P = m + 1 := ⟨P - 1, by omega⟩
    have hrest := rest_le m hq hmin
    have htotal := total_of_fresh hP h
    have hn : (events n value dominantKey).length = n := by
      unfold events
      rw [List.length_map, List.length_range]
    rw [← ht, hoffsets, hsent, hn] at htotal
    rw [htotal] at hrest
    show m * s.min ≤ _
    omega
  refine ⟨hmaxn, hshare, fun hten => le_skew ?_⟩
  show 9 * min (n / 10) (P - 1) * Nat.max s.min 1 ≤ s.max
  rcases Nat.le_total s.min 1 with hle | hle
  · have hone : Nat.max s.min 1 = 1 := Nat.max_eq_right hle
    have htenth : min (n / 10) (P - 1) ≤ n / 10 := Nat.min_le_left _ _
    rw [hone]
    omega
  · have hlo : Nat.max s.min 1 = s.min := Nat.max_eq_left hle
    have htimes : min (n / 10) (P - 1) * s.min ≤ (P - 1) * s.min := Nat.mul_le_mul_right _ (Nat.min_le_right _ _)
    rw [hlo, Nat.mul_assoc]
    omega

theorem hot_partition_three : ∃ tr : List (Sent ℕ × Partitioned ℕ),
    let s := spread (topicEndOffsets (final (Partitioned.fresh ℕ 3) tr))
    sent tr = events 20 id dominantKey ∧ 18 ≤ s.max ∧ 2 * s.min ≤ 2 ∧ 18 ≤ s.skew := by
  obtain ⟨tr, h, hsent⟩ := exists_run String.length (events 20 id dominantKey) (Partitioned.fresh ℕ 3)
  obtain ⟨hmax, hmin, hskew⟩ := hot_partition String.length 3 20 (by decide) id tr h hsent
  refine ⟨tr, hsent, by omega, hmin, ?_⟩
  have hnine : ((9 * min (20 / 10) (3 - 1) : ℕ) : ℚ) = 18 := rfl
  rw [← hnine]
  exact hskew rfl

/-! ## Many keys -/

/-- With a key on every record, a partition has the records whose keys hash to it. -/
theorem log_eq (p : ℕ) : ∀ (tr : List (Sent μ × Partitioned μ)) (t : Partitioned μ), Chain (Produce hash) t tr →
    (∀ r ∈ sent tr, r.key ≠ none) → (final t tr).logs p =
      t.logs p ++ (sent tr).filter fun r => decide (partitionOf hash t.partitions 0 r.key = p) := by
  intro tr
  induction tr with
  | nil =>
    intro t _ _
    simp [sent]
  | cons x tr ih =>
    intro t h hkeys
    obtain ⟨r, u⟩ := x
    obtain ⟨⟨any⟩, hrest⟩ := h
    obtain ⟨k, hk⟩ := Option.ne_none_iff_exists'.1 (hkeys r List.mem_cons_self)
    have htail := ih _ hrest fun y hy => hkeys y (List.mem_cons_of_mem _ hy)
    -- a record with a key goes where its key goes
    have hroute : partitionOf hash t.partitions any r.key = partitionOf hash t.partitions 0 r.key := by
      rw [hk]
      rfl
    have hsent : sent ((r, t.send hash any r) :: tr) = r :: sent tr := rfl
    have hlog : (t.send hash any r).logs p =
        if p = partitionOf hash t.partitions any r.key then t.logs p ++ [r] else t.logs p := rfl
    rw [final_cons, htail, show (t.send hash any r).partitions = t.partitions from rfl, hlog, hsent, hroute]
    by_cases hp : p = partitionOf hash t.partitions 0 r.key
    · rw [if_pos hp, List.filter_cons_of_pos (by simpa using hp.symm), List.append_assoc]
      rfl
    · rw [if_neg hp, List.filter_cons_of_neg (by simpa using fun heq => hp heq.symm)]

/-- What is counted of `i % d` is counted once for each round. -/
theorem countP_mod {d : ℕ} (p : ℕ → Bool) (c : ℕ) :
    (List.range (d * c)).countP (fun i => p (i % d)) = c * (List.range d).countP p := by
  induction c with
  | zero => simp
  | succ c ih =>
    rw [Nat.mul_succ, List.range_add, List.countP_append, ih, List.countP_map, Nat.succ_mul]
    congr 1
    refine List.countP_congr fun i hi => ?_
    have hlt := List.mem_range.1 hi
    simp only [Function.comp_apply]
    rw [Nat.mul_add_mod, Nat.mod_eq_of_lt hlt]

/-- **With the keys dealt out in turn** each partition has a round's records for each key that hashes to
it: the spread of the records is that of the keys. -/
theorem rekeyed_offsets (hash : String → ℕ) (P d c p : ℕ) (value : ℕ → μ) (tr : List (Sent μ × Partitioned μ))
    (h : Chain (Produce hash) (Partitioned.fresh μ P) tr) (hsent : sent tr = events (d * c) value (customerKey d)) :
    ((final (Partitioned.fresh μ P) tr).logs p).length =
      c * (List.range d).countP fun k => decide (hash ("cust-" ++ toString k) % P = p) := by
  have hkeys : ∀ r ∈ sent tr, r.key ≠ none := fun r hr => by
    rw [hsent] at hr
    obtain ⟨i, -, rfl⟩ := List.mem_map.1 hr
    exact Option.some_ne_none _
  have hlog := log_eq p tr _ h hkeys
  have hbefore : (Partitioned.fresh μ P).logs p = [] := rfl
  rw [hbefore, List.nil_append, hsent] at hlog
  rw [hlog, ← List.countP_eq_length_filter]
  unfold events
  rw [List.countP_map, ← countP_mod]
  rfl

end SparkDev.Kafka.Kaf1
