import Mathlib.Data.List.Range
import SparkDev.Runs.Chain

/-!
# Consumer groups and their offsets

A topic of one partition keeps what was produced from its log start on; retention moves
the log start. A consumer of a group starts where the group committed last, or where
`auto_offset_reset` says when there is no such offset any more, reads some messages and
may commit (`consume_n`). A consumer that stops without a commit leaves no trace.

* `Cluster.OK`: the invariant of every run of producers, retention and consumers of any groups.
* `lag_sound`: what `consumer_group_lag` reports, and how often a consumer has to run to bring it
  to zero.
* `committed_once`: a group whose consumers all commit sees no offset twice.
-/

namespace SparkDev.Kafka

open Runs

/-- `auto_offset_reset`. -/
inductive OffsetReset where
  | earliest
  | latest
  deriving DecidableEq, Repr

/-- A topic of one partition: all that was produced to it, by offset, and the first offset that
is still there. -/
structure Partition (μ : Type*) where
  produced : List μ
  logStart : ℕ

variable {μ γ : Type*}

/-- `consumer.end_offsets`. -/
def Partition.endOffset (p : Partition μ) : ℕ := p.produced.length

/-- `first_available_offset`. -/
def firstAvailableOffset (p : Partition μ) : OffsetReset → ℕ
  | .earliest => p.logStart
  | .latest => p.endOffset

/-- Where a consumer of a group starts: at the committed offset if it is in range. -/
def startOffset (p : Partition μ) (reset : OffsetReset) : Option ℕ → ℕ
  | none => firstAvailableOffset p reset
  | some c => if p.logStart ≤ c ∧ c ≤ p.endOffset then c else firstAvailableOffset p reset

/-- `for msg in c`: the offset is appended before the length is compared with `n`. -/
def readLoop (n : ℕ) : (offsets seen : List ℕ) → List ℕ
  | [], seen => seen
  | o :: offsets, seen =>
    if n ≤ (seen ++ [o]).length then seen ++ [o] else readLoop n offsets (seen ++ [o])

/-- `consume_n`: the offsets it returns, and what the group has committed then. Closing a consumer
with auto-commit commits its position too. -/
def consumeN (p : Partition μ) (committed : Option ℕ) (n : ℕ) (enableAutoCommit commitAtEnd : Bool) :
    List ℕ × Option ℕ :=
  let start := startOffset p .earliest committed
  let seen := readLoop n (List.range' start (p.endOffset - start)) []
  (seen, if enableAutoCommit || commitAtEnd then some (start + seen.length) else committed)

/-- A row of `consumer_group_lag`. -/
structure LagRow where
  committed : ℕ
  endOffset : ℕ
  lag : ℤ
  deriving DecidableEq, Repr

/-- `consumer_group_lag`, for one partition. -/
def consumerGroupLag (p : Partition μ) (committed : Option ℕ) : LagRow where
  committed := committed.getD 0
  endOffset := p.endOffset
  lag := max 0 ((p.endOffset : ℤ) - committed.getD 0)

/-- The topic, and what each group has committed and seen. -/
structure Cluster (μ γ : Type*) where
  partition : Partition μ
  committed : γ → Option ℕ
  /-- The offsets that the consumers of the group returned so far. -/
  seen : γ → List ℕ

/-- A step of a producer, of retention or of a consumer. -/
inductive ClusterAct (μ γ : Type*) where
  | produce (es : List μ)
  | retain (n : ℕ)
  | consume (g : γ) (n : ℕ) (enableAutoCommit commitAtEnd : Bool)

/-- A new topic, and groups that committed nothing. -/
def Cluster.start (μ γ : Type*) : Cluster μ γ := ⟨⟨[], 0⟩, fun _ => none, fun _ => []⟩

/-- A consumer of group `g` runs. -/
def Cluster.consume [DecidableEq γ] (s : Cluster μ γ) (g : γ) (n : ℕ)
    (enableAutoCommit commitAtEnd : Bool) : Cluster μ γ :=
  let r := consumeN s.partition (s.committed g) n enableAutoCommit commitAtEnd
  { s with committed := Function.update s.committed g r.2
           seen := Function.update s.seen g (s.seen g ++ r.1) }

/-- The steps. Retention moves the log start ahead, at most to the end. -/
inductive ClusterStep [DecidableEq γ] : Cluster μ γ → ClusterAct μ γ → Cluster μ γ → Prop where
  | produce {s : Cluster μ γ} {es : List μ} :
      ClusterStep s (.produce es) { s with partition := ⟨s.partition.produced ++ es, s.partition.logStart⟩ }
  | retain {s : Cluster μ γ} {n : ℕ} (hlo : s.partition.logStart ≤ n) (hhi : n ≤ s.partition.endOffset) :
      ClusterStep s (.retain n) { s with partition := ⟨s.partition.produced, n⟩ }
  | consume {s : Cluster μ γ} {g : γ} {n : ℕ} {enableAutoCommit commitAtEnd : Bool} :
      ClusterStep s (.consume g n enableAutoCommit commitAtEnd)
        (s.consume g n enableAutoCommit commitAtEnd)

/-- The invariant. What is below a committed offset was seen, or is gone. -/
structure Cluster.OK (s : Cluster μ γ) : Prop where
  logStart_le : s.partition.logStart ≤ s.partition.endOffset
  committed_le : ∀ g c, s.committed g = some c → c ≤ s.partition.endOffset
  seen_lt : ∀ g, ∀ o ∈ s.seen g, o < s.partition.endOffset
  covered : ∀ g c, s.committed g = some c → ∀ o, s.partition.logStart ≤ o → o < c → o ∈ s.seen g

variable {p : Partition μ} {s t : Cluster μ γ} {g : γ} {n k : ℕ} {committed : Option ℕ}

/-! ## One consumer -/

/-- The loop returns at least one message, when there is one. -/
theorem readLoop_eq (n : ℕ) : ∀ (offsets seen : List ℕ), seen.length < max n 1 →
    readLoop n offsets seen = seen ++ offsets.take (max n 1 - seen.length) := by
  intro offsets
  induction offsets with
  | nil =>
    intro seen _
    rw [List.take_nil, List.append_nil]
    rfl
  | cons o offsets ih =>
    intro seen hlt
    have hlen : (seen ++ [o]).length = seen.length + 1 := by
      rw [List.length_append, List.length_singleton]
    obtain ⟨m, hm⟩ : ∃ m, max n 1 - seen.length = m + 1 := ⟨max n 1 - seen.length - 1, by omega⟩
    rw [readLoop, hm, List.take_succ_cons]
    split
    · rename_i hge
      have hzero : m = 0 := by omega
      rw [hzero, List.take_zero]
    · rename_i hlt'
      rw [ih (seen ++ [o]) (by omega), hlen, List.append_assoc]
      have hsub : max n 1 - (seen.length + 1) = m := by omega
      rw [hsub]
      rfl

/-- How many messages a consumer reads. -/
def readCount (p : Partition μ) (committed : Option ℕ) (n : ℕ) : ℕ :=
  min (max n 1) (p.endOffset - startOffset p .earliest committed)

theorem take_offsets (start m k : ℕ) : (List.range' start m).take k = List.range' start (min k m) := by
  rcases Nat.le_total k m with h | h
  · obtain ⟨d, rfl⟩ := Nat.exists_eq_add_of_le h
    rw [← List.range'_append_1, List.take_left' (List.length_range' ..), Nat.min_eq_left (Nat.le_add_right k d)]
  · rw [List.take_of_length_le (by rwa [List.length_range']), Nat.min_eq_right h]

/-- The offsets a consumer returns. -/
theorem consumeN_seen (p : Partition μ) (committed : Option ℕ) (n : ℕ) (auto atEnd : Bool) :
    (consumeN p committed n auto atEnd).1 =
      List.range' (startOffset p .earliest committed) (readCount p committed n) := by
  have hlt : ([] : List ℕ).length < max n 1 := by
    show 0 < max n 1
    omega
  show readLoop n _ [] = _
  rw [readLoop_eq n _ [] hlt, List.nil_append, List.length_nil, Nat.sub_zero, take_offsets]
  rfl

/-- What it commits, if it does. -/
theorem consumeN_committed (p : Partition μ) (committed : Option ℕ) (n : ℕ) {auto atEnd : Bool}
    (h : (auto || atEnd) = true) :
    (consumeN p committed n auto atEnd).2 =
      some (startOffset p .earliest committed + readCount p committed n) := by
  have hlen := congrArg List.length (consumeN_seen p committed n auto atEnd)
  rw [List.length_range'] at hlen
  have hdef : (consumeN p committed n auto atEnd).2 = if auto || atEnd then
      some (startOffset p .earliest committed + (consumeN p committed n auto atEnd).1.length)
      else committed := rfl
  rw [hdef, if_pos h, hlen]

/-- A consumer that does not commit leaves the group where it was. -/
theorem consumeN_uncommitted (p : Partition μ) (committed : Option ℕ) (n : ℕ) {auto atEnd : Bool}
    (h : (auto || atEnd) = false) : (consumeN p committed n auto atEnd).2 = committed := by
  have hdef : (consumeN p committed n auto atEnd).2 = if auto || atEnd then
      some (startOffset p .earliest committed + (consumeN p committed n auto atEnd).1.length)
      else committed := rfl
  rw [hdef, h]
  rfl

/-- A consumer starts at the group's offset, or at the log start past it. -/
theorem startOffset_spec {c : ℕ} (hstart : p.logStart ≤ p.endOffset) (hc : c ≤ p.endOffset) :
    c ≤ startOffset p .earliest (some c) ∧ p.logStart ≤ startOffset p .earliest (some c) ∧
      startOffset p .earliest (some c) ≤ p.endOffset ∧
      (startOffset p .earliest (some c) = c ∨ startOffset p .earliest (some c) = p.logStart) := by
  by_cases h : p.logStart ≤ c ∧ c ≤ p.endOffset
  · have heq : startOffset p .earliest (some c) = c := if_pos h
    rw [heq]
    exact ⟨Nat.le_refl _, h.1, h.2, Or.inl rfl⟩
  · have heq : startOffset p .earliest (some c) = p.logStart := if_neg h
    rw [heq]
    exact ⟨by omega, Nat.le_refl _, hstart, Or.inr rfl⟩

/-- It ends in range. -/
theorem readCount_le (hstart : startOffset p .earliest committed ≤ p.endOffset) (n : ℕ) :
    startOffset p .earliest committed + readCount p committed n ≤ p.endOffset := by
  unfold readCount
  omega

theorem Cluster.OK.start_le (h : s.OK) (g : γ) :
    s.partition.logStart ≤ startOffset s.partition .earliest (s.committed g) ∧
      startOffset s.partition .earliest (s.committed g) ≤ s.partition.endOffset := by
  rcases hc : s.committed g with _ | c
  · exact ⟨Nat.le_refl _, h.logStart_le⟩
  · obtain ⟨-, hlo, hhi, -⟩ := startOffset_spec h.logStart_le (h.committed_le g c hc)
    exact ⟨hlo, hhi⟩

/-! ## The invariant -/

theorem cluster_start_ok : (Cluster.start μ γ).OK where
  logStart_le := Nat.le_refl _
  committed_le := by rintro g c ⟨⟩
  seen_lt := by
    intro g o ho
    exact absurd ho List.not_mem_nil
  covered := by rintro g c ⟨⟩

variable [DecidableEq γ] {a : ClusterAct μ γ}

/-- The other groups are as they were. -/
theorem Cluster.consume_of_ne (s : Cluster μ γ) {g g' : γ} (hg : g' ≠ g) (n : ℕ) (auto atEnd : Bool) :
    (s.consume g n auto atEnd).committed g' = s.committed g' ∧ (s.consume g n auto atEnd).seen g' = s.seen g' :=
  ⟨Function.update_of_ne hg .., Function.update_of_ne hg ..⟩

/-- The group has seen what the consumer returned. -/
theorem Cluster.consume_seen (s : Cluster μ γ) (g : γ) (n : ℕ) (auto atEnd : Bool) :
    (s.consume g n auto atEnd).seen g = s.seen g ++
      List.range' (startOffset s.partition .earliest (s.committed g)) (readCount s.partition (s.committed g) n) := by
  rw [← consumeN_seen s.partition (s.committed g) n auto atEnd]
  exact Function.update_self ..

/-- It has committed the end of that, or nothing new. -/
theorem Cluster.consume_committed (s : Cluster μ γ) (g : γ) (n : ℕ) (auto atEnd : Bool) :
    (s.consume g n auto atEnd).committed g = if auto || atEnd then
      some (startOffset s.partition .earliest (s.committed g) + readCount s.partition (s.committed g) n)
      else s.committed g := by
  have hself : (s.consume g n auto atEnd).committed g =
      (consumeN s.partition (s.committed g) n auto atEnd).2 := Function.update_self ..
  rw [hself]
  split
  · rename_i hb
    exact consumeN_committed _ _ _ hb
  · rename_i hb
    exact consumeN_uncommitted _ _ _ (Bool.eq_false_iff.2 hb)

omit [DecidableEq γ] in
/-- What is still on the topic below the start was seen: the start is the group's offset. -/
theorem Cluster.OK.seen_of_lt_start (h : s.OK) {o : ℕ} (hol : s.partition.logStart ≤ o)
    (hlt : o < startOffset s.partition .earliest (s.committed g)) : o ∈ s.seen g := by
  rcases hc : s.committed g with _ | c
  · rw [hc] at hlt
    exact absurd hol (Nat.not_le.2 hlt)
  · obtain ⟨-, -, -, heq | heq⟩ := startOffset_spec h.logStart_le (h.committed_le g c hc)
    · rw [hc, heq] at hlt
      exact h.covered g c hc o hol hlt
    · rw [hc, heq] at hlt
      exact absurd hol (Nat.not_le.2 hlt)

/-- **One consumer** keeps the invariant, whether it commits or not. -/
theorem Cluster.OK.consume (h : s.OK) (g : γ) (n : ℕ) (auto atEnd : Bool) :
    (s.consume g n auto atEnd).OK := by
  have hend := readCount_le (h.start_le g).2 n
  -- the other groups keep their offsets and what they have seen
  refine ⟨h.logStart_le, fun g' c hc => ?_, fun g' o ho => ?_, fun g' c hc o hol hoc => ?_⟩
  · by_cases hg : g' = g
    · subst hg
      rw [s.consume_committed] at hc
      split at hc
      · rw [← Option.some.inj hc]
        exact hend
      · exact h.committed_le g' c hc
    · rw [(s.consume_of_ne hg n auto atEnd).1] at hc
      exact h.committed_le g' c hc
  · by_cases hg : g' = g
    · subst hg
      rw [s.consume_seen, List.mem_append, List.mem_range'_1] at ho
      rcases ho with ho | ⟨-, ho⟩
      · exact h.seen_lt g' o ho
      · exact lt_of_lt_of_le ho hend
    · rw [(s.consume_of_ne hg n auto atEnd).2] at ho
      exact h.seen_lt g' o ho
  · by_cases hg : g' = g
    · subst hg
      rw [s.consume_committed] at hc
      rw [s.consume_seen, List.mem_append, List.mem_range'_1]
      split at hc
      · -- below the start it was seen before, from there on now
        rcases Nat.lt_or_ge o (startOffset s.partition .earliest (s.committed g')) with hlt | hge
        · exact Or.inl (h.seen_of_lt_start hol hlt)
        · have heq := Option.some.inj hc
          exact Or.inr ⟨hge, by omega⟩
      · exact Or.inl (h.covered g' c hc o hol hoc)
    · rw [(s.consume_of_ne hg n auto atEnd).1] at hc
      rw [(s.consume_of_ne hg n auto atEnd).2]
      exact h.covered g' c hc o hol hoc

/-- **One step.** -/
theorem Cluster.OK.step (h : s.OK) (hs : ClusterStep s a t) : t.OK := by
  rcases hs with _ | ⟨hlo, hhi⟩ | _
  · rename_i es
    have hgrow : s.partition.endOffset ≤ (s.partition.produced ++ es).length := by
      rw [List.length_append]
      exact Nat.le_add_right _ _
    exact ⟨h.logStart_le.trans hgrow, fun g c hc => (h.committed_le g c hc).trans hgrow,
      fun g o ho => lt_of_lt_of_le (h.seen_lt g o ho) hgrow, h.covered⟩
  · exact ⟨hhi, h.committed_le, h.seen_lt, fun g c hc o hol hoc => h.covered g c hc o (hlo.trans hol) hoc⟩
  · exact h.consume _ _ _ _

theorem reach_cluster (hr : Reach ClusterStep (Cluster.start μ γ) s) : s.OK :=
  reach_invariant (fun _ _ _ hs hst => hs.step hst) cluster_start_ok hr

/-! ## Lag -/

/-- The group's offset after `k` consumers that read `n` messages each and commit. -/
def drained (p : Partition μ) (n : ℕ) : (k : ℕ) → Option ℕ → Option ℕ
  | 0, committed => committed
  | k + 1, committed => drained p n k (consumeN p committed n false true).2

/-- Consumer by consumer the group moves on by `n`, to the end. -/
theorem drained_eq (hn : 1 ≤ n) :
    ∀ (k : ℕ) (committed : Option ℕ), startOffset p .earliest committed ≤ p.endOffset →
      drained p n (k + 1) committed =
        some (min p.endOffset (startOffset p .earliest committed + (k + 1) * n)) := by
  intro k
  induction k with
  | zero =>
    intro committed hle
    rw [drained, drained, consumeN_committed p committed n rfl]
    unfold readCount
    congr 1
    omega
  | succ k ih =>
    intro committed hle
    have hend := readCount_le hle n
    -- the next consumer starts where this one ended
    have hin : startOffset p .earliest
        (some (startOffset p .earliest committed + readCount p committed n)) =
          startOffset p .earliest committed + readCount p committed n := by
      have hlog : p.logStart ≤ startOffset p .earliest committed := by
        unfold startOffset firstAvailableOffset
        split
        · exact Nat.le_refl _
        · split
          · rename_i h
            exact h.1
          · exact Nat.le_refl _
      exact if_pos ⟨by omega, hend⟩
    rw [drained, consumeN_committed p committed n rfl, ih _ (by rw [hin]; exact hend), hin]
    have hmul : (k + 1 + 1) * n = (k + 1) * n + n := Nat.succ_mul (k + 1) n
    unfold readCount
    congr 1
    omega

/-- **What the lag says.** In every run of producers, retention and consumers of any number of
groups: the lag of a group is the end offset less the committed one, never cut off at zero; every
message below the committed offset that is still on the topic was seen by a consumer of the group;
and as many consumers as the lag needs, reading `n` messages each, bring it to zero. -/
theorem lag_sound (s : Cluster μ γ) (hr : Reach ClusterStep (Cluster.start μ γ) s) (g : γ) :
    let row := consumerGroupLag s.partition (s.committed g)
    row.lag = (row.endOffset : ℤ) - row.committed ∧
      (∀ o, s.partition.logStart ≤ o → o < row.committed → o ∈ s.seen g) ∧
      ∀ n k : ℕ, 1 ≤ n → 1 ≤ k → row.lag ≤ k * n →
        (consumerGroupLag s.partition (drained s.partition n k (s.committed g))).lag = 0 := by
  have h := reach_cluster hr
  obtain ⟨hlo, hhi⟩ := h.start_le g
  have hcom : (s.committed g).getD 0 ≤ s.partition.endOffset := by
    rcases hc : s.committed g with _ | c
    · exact Nat.zero_le _
    · exact h.committed_le g c hc
  have hlag : (consumerGroupLag s.partition (s.committed g)).lag =
      (s.partition.endOffset : ℤ) - ((s.committed g).getD 0 : ℕ) := by
    show max 0 _ = _
    omega
  refine ⟨hlag, fun o hol hoc => ?_, fun n k hn hk hle => ?_⟩
  · rcases hc : s.committed g with _ | c
    · rw [hc] at hoc
      exact absurd hoc (Nat.not_lt_zero o)
    · rw [hc] at hoc
      exact h.covered g c hc o hol hoc
  · obtain ⟨k, rfl⟩ : ∃ k', k = k' + 1 := ⟨k - 1, by omega⟩
    rw [drained_eq hn k _ hhi]
    -- the group starts at its offset or past it
    have hge : (s.committed g).getD 0 ≤ startOffset s.partition .earliest (s.committed g) := by
      rcases hc : s.committed g with _ | c
      · exact Nat.zero_le _
      · exact (startOffset_spec h.logStart_le (h.committed_le g c hc)).1
    rw [hlag] at hle
    have hreach : s.partition.endOffset ≤
        startOffset s.partition .earliest (s.committed g) + (k + 1) * n := by
      have hle' : (s.partition.endOffset : ℤ) ≤ ((s.committed g).getD 0 : ℕ) + ((k + 1) * n : ℕ) := by
        push_cast at hle ⊢
        omega
      have hnat : s.partition.endOffset ≤ (s.committed g).getD 0 + (k + 1) * n := by exact_mod_cast hle'
      omega
    rw [Nat.min_eq_left hreach]
    show max 0 ((s.partition.endOffset : ℤ) - s.partition.endOffset) = 0
    omega

/-- Five messages, of which a consumer reads two and commits, and retention takes the first. -/
def partialRun : List (ClusterAct ℕ Unit × Cluster ℕ Unit) :=
  let full : Cluster ℕ Unit := ⟨⟨[7, 8, 9, 10, 11], 0⟩, fun _ => none, fun _ => []⟩
  [(.produce [7, 8, 9, 10, 11], full), (.consume () 2 false true, full.consume () 2 false true),
   (.retain 1, { full.consume () 2 false true with partition := ⟨[7, 8, 9, 10, 11], 1⟩ })]

theorem partialRun_isRun : Chain ClusterStep (Cluster.start ℕ Unit) partialRun :=
  ⟨.produce, .consume, .retain (by decide) (by decide), trivial⟩

/-- The lag then is three, and two more consumers bring it to zero. -/
theorem lag_sound_partial :
    let s := final (Cluster.start ℕ Unit) partialRun
    (consumerGroupLag s.partition (s.committed ())).lag = 3 ∧
      (consumerGroupLag s.partition (drained s.partition 2 2 (s.committed ()))).lag = 0 := by
  obtain ⟨hlag, -, hdrain⟩ := lag_sound (final (Cluster.start ℕ Unit) partialRun)
    ⟨partialRun, partialRun_isRun, rfl⟩ ()
  exact ⟨hlag, hdrain 2 2 (by decide) (by decide) (by decide)⟩

/-! ## Groups that commit -/

/-- A consumer of the group commits. -/
def ClusterAct.CommitsFor (g : γ) : ClusterAct μ γ → Prop
  | .consume g' _ auto atEnd => g' = g → (auto || atEnd) = true
  | _ => True

/-- What such a group has seen: offsets in order, all below the committed one. -/
structure Cluster.InOrder (g : γ) (s : Cluster μ γ) : Prop where
  ok : s.OK
  below : ∀ o ∈ s.seen g, ∃ c, s.committed g = some c ∧ o < c
  increasing : (s.seen g).Pairwise (· < ·)

theorem Cluster.InOrder.step (h : s.InOrder g) (hs : ClusterStep s a t) (ha : a.CommitsFor g) :
    t.InOrder g := by
  have hok := h.ok.step hs
  rcases hs with _ | _ | _
  · exact ⟨hok, h.below, h.increasing⟩
  · exact ⟨hok, h.below, h.increasing⟩
  · rename_i g' n auto atEnd
    by_cases hg : g' = g
    · subst hg
      have hb : (auto || atEnd) = true := ha rfl
      have hself : (s.consume g' n auto atEnd).committed g' =
          some (startOffset s.partition .earliest (s.committed g') +
            readCount s.partition (s.committed g') n) := by
        rw [s.consume_committed, if_pos hb]
      -- what was seen before is below the start
      have hbefore : ∀ o ∈ s.seen g', o < startOffset s.partition .earliest (s.committed g') := by
        intro o ho
        obtain ⟨c, hc, hlt⟩ := h.below o ho
        have hge := (startOffset_spec h.ok.logStart_le (h.ok.committed_le g' c hc)).1
        rw [hc]
        omega
      refine ⟨hok, fun o ho => ⟨_, hself, ?_⟩, ?_⟩
      · rw [s.consume_seen, List.mem_append, List.mem_range'_1] at ho
        rcases ho with ho | ho
        · have hlt := hbefore o ho
          omega
        · exact ho.2
      · rw [s.consume_seen, List.pairwise_append]
        refine ⟨h.increasing, List.pairwise_lt_range' .., fun o ho o' ho' => ?_⟩
        rw [List.mem_range'_1] at ho'
        exact lt_of_lt_of_le (hbefore o ho) ho'.1
    · obtain ⟨hcom, hseen⟩ := s.consume_of_ne (Ne.symm hg) n auto atEnd
      refine ⟨hok, ?_, ?_⟩
      · rw [hcom, hseen]
        exact h.below
      · rw [hseen]
        exact h.increasing

/-- **Commits make the difference.** In every run in which all consumers of a group commit, whatever
other groups do, the group sees the offsets in order and none of them twice. -/
theorem committed_once (g : γ) (tr : List (ClusterAct μ γ × Cluster μ γ))
    (hc : Chain ClusterStep (Cluster.start μ γ) tr) (hcommit : ∀ x ∈ tr, x.1.CommitsFor g) :
    ((final (Cluster.start μ γ) tr).seen g).Pairwise (· < ·) := by
  have hboth : Chain (fun s a t => ClusterStep s a t ∧ a.CommitsFor g) (Cluster.start μ γ) tr :=
    (chain_and tr _).2 ⟨hc, chain_labels tr _ hcommit⟩
  have h0 : (Cluster.start μ γ).InOrder g :=
    ⟨cluster_start_ok, fun o ho => absurd ho List.not_mem_nil, List.Pairwise.nil⟩
  exact (chain_invariant (I := Cluster.InOrder g) (fun _ _ _ hs h => hs.step h.1 h.2) tr _ h0 hboth).increasing

/-- The run above, in which the group commits. -/
theorem committed_once_partial : ((final (Cluster.start ℕ Unit) partialRun).seen ()).Pairwise (· < ·) :=
  committed_once () partialRun partialRun_isRun (by simp [partialRun, ClusterAct.CommitsFor])

end SparkDev.Kafka
