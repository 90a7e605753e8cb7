import SparkDev.Cdc.Mirror

/-!
# Redelivered batches at the CDC-7 sink

A crash before the offset commit re-emits records that were already applied. A
run of the sink (`SinkStep`) interleaves fresh batches, in commit order, with
redeliveries of any earlier batch.

The dedup compares LSNs inside one batch only, and the mirror stores no LSN, so a
redelivered batch is applied as if it were new. `redelivery_absorbed_iff`: the
redeliveries of a run all leave the mirror alone exactly when each of them says,
for each of its ids, what the newest event applied so far says (`Current`).
`redelivery_not_absorbed` is a run where one does not.
-/

namespace SparkDev.Cdc

open Sql Runs

/-- What reaches the sink next: a new batch, or the records of an earlier one again. -/
inductive Delivery where
  | fresh (batch : List Record)
  | redelivered (i : ℕ)

/-- The mirror and the fresh batches applied to it so far. -/
structure Sink where
  mirror : List MirrorRow
  batches : List (List Record)

/-- Everything applied so far, in commit order. -/
def Sink.log (s : Sink) : List Record := s.batches.flatten

/-- One batch through the sink. Fresh batches continue the log in commit order. -/
def SinkStep (s : Sink) (l : Delivery) (s' : Sink) : Prop :=
  match l with
  | .fresh b => Identified (s.log ++ b) ∧ LsnIncreasing (s.log ++ b) ∧ Upsert s.mirror b s'.mirror ∧
      s'.batches = s.batches ++ [b]
  | .redelivered i => ∃ b, s.batches[i]? = some b ∧ Upsert s.mirror b s'.mirror ∧
      s'.batches = s.batches

/-- A redelivery leaves the mirror unchanged. -/
def Absorbed (s : Sink) (l : Delivery) (s' : Sink) : Prop :=
  match l with
  | .fresh _ => True
  | .redelivered _ => s'.mirror.Perm s.mirror

/-- For each id of a redelivered batch, the newest event of the id in that batch and the
newest event of the id applied so far leave the same row (or both delete it). -/
def Current (s : Sink) (l : Delivery) (_ : Sink) : Prop :=
  match l with
  | .fresh _ => True
  | .redelivered i => ∀ b, s.batches[i]? = some b → ∀ k e e', newestChange b k = some e →
      newestChange s.log k = some e' → e.landed = e'.landed

/-- The mirror is what the newest events of the log leave on the starting mirror `T`. -/
structure UpToDate (T : List MirrorRow) (s : Sink) : Prop where
  unique : UniqueKey MirrorRow.id s.mirror
  identified : Identified s.log
  increasing : LsnIncreasing s.log
  row : ∀ k, lookup MirrorRow.id s.mirror k = landing (newestChange s.log k) (lookup MirrorRow.id T k)

variable {T : List MirrorRow} {s s' : Sink} {b : List Record} {i : ℕ}

theorem upToDate_init (hT : UniqueKey MirrorRow.id T) : UpToDate T ⟨T, []⟩ where
  unique := hT
  identified := identified_nil
  increasing := lsnIncreasing_nil
  row _ := rfl

/-- **A fresh batch keeps the mirror up to date.** -/
theorem UpToDate.fresh (h : UpToDate T s) (hs : SinkStep s (.fresh b) s') : UpToDate T s' := by
  obtain ⟨hid, hlsn, hup, hb⟩ := hs
  have hlog : s'.log = s.log ++ b := by unfold Sink.log; rw [hb]; simp
  obtain ⟨-, hidb⟩ := identified_append.1 hid
  refine ⟨upsert_unique h.unique hup, hlog ▸ hid, hlog ▸ hlsn, fun k => ?_⟩
  rw [upsert_lookup h.unique (hlsn.append_right.wellStamped hidb) hup, h.row k, hlog,
    newestChange_append hlsn hid, landing_or]

/-- An applied batch is part of the log. -/
theorem log_of_batch (hb : s.batches[i]? = some b) : ∀ rec ∈ b, rec ∈ s.log := by
  intro rec hr
  unfold Sink.log
  rw [List.mem_flatten]
  exact ⟨b, List.mem_of_getElem? hb, hr⟩

/-- **One redelivery** leaves an up-to-date mirror alone exactly when it is current. -/
theorem UpToDate.redelivered (h : UpToDate T s) (hs : SinkStep s (.redelivered i) s') :
    Absorbed s (.redelivered i) s' ↔ Current s (.redelivered i) s' := by
  obtain ⟨b, hb, hup, -⟩ := hs
  have hw := h.increasing.wellStamped h.identified
  have hwb := wellStamped_of_subset hw (log_of_batch hb)
  have hU' := upsert_unique h.unique hup
  have hrow := upsert_lookup h.unique hwb hup
  constructor
  · intro hp b' hb' k e e' he he'
    have hbb : b' = b := Option.some.inj (hb'.symm.trans hb)
    subst hbb
    have hk := hrow k
    rw [← h.unique.lookup_perm hp.symm k, h.row k, he, he'] at hk
    exact hk.symm
  · intro hc
    refine mirror_perm hU' h.unique (fun k => ?_) (upsert_nullRows hwb.key_ne hup)
    rw [hrow k]
    cases he : newestChange b k with
    | none => rfl
    | some e =>
      -- the id has events in the log, since the batch is part of it
      cases he' : newestChange s.log k with
      | none =>
        obtain ⟨rec, hr, hre⟩ := mem_changes.1 (newest_mem he)
        have hmem : e ∈ changes s.log := mem_changes.2 ⟨rec, log_of_batch hb rec hr, hre⟩
        exact absurd (newest_key he) (newest_eq_none.1 he' e hmem)
      | some e' =>
        rw [h.row k, he']
        exact hc b hb k e e' he he'

/-- An absorbed redelivery keeps the mirror up to date. -/
theorem UpToDate.absorbed (h : UpToDate T s) (hs : SinkStep s (.redelivered i) s')
    (ha : Absorbed s (.redelivered i) s') : UpToDate T s' := by
  obtain ⟨b, -, hup, hbs⟩ := hs
  have hlog : s'.log = s.log := by unfold Sink.log; rw [hbs]
  have hp : s'.mirror.Perm s.mirror := ha
  refine ⟨upsert_unique h.unique hup, hlog ▸ h.identified, hlog ▸ h.increasing, fun k => ?_⟩
  rw [← h.unique.lookup_perm hp.symm k, h.row k, hlog]

/-- **Exactly when redeliveries are absorbed.** In every run of the sink, from every mirror with
unique ids, all redeliveries leave the mirror unchanged if and only if at each of them, for each
id of the redelivered batch, no newer applied event says something else. -/
theorem redelivery_absorbed_iff (T : List MirrorRow) (hT : UniqueKey MirrorRow.id T)
    (tr : List (Delivery × Sink)) (hrun : Chain SinkStep ⟨T, []⟩ tr) :
    Chain Absorbed ⟨T, []⟩ tr ↔ Chain Current ⟨T, []⟩ tr := by
  refine chain_iff (I := UpToDate T) ?_ ?_ tr ⟨T, []⟩ (upToDate_init hT) hrun
  · intro s l s' hs hstep
    cases l with
    | fresh b => exact Iff.rfl
    | redelivered i => exact hs.redelivered hstep
  · intro s l s' hs hstep ha
    cases l with
    | fresh b => exact hs.fresh hstep
    | redelivered i => exact hs.absorbed hstep ha

/-- Create row 1, mark it paid. -/
def createdThenPaid : List (List Record) :=
  [[⟨some ⟨none, some ⟨some 1, some "ann", some 10, some "NEW", some 0⟩, some .c, some 10⟩⟩],
   [⟨some ⟨none, some ⟨some 1, some "ann", some 10, some "PAID", some 0⟩, some .u, some 11⟩⟩]]

/-- The mirror with row 1 in the given status. -/
def rowOne (status : String) : List MirrorRow := [⟨some 1, some "ann", some 10, some status, some 0⟩]

/-- The two batches, then the first one again. -/
def staleRun : List (Delivery × Sink) :=
  [(.fresh (createdThenPaid[0]), ⟨rowOne "NEW", [createdThenPaid[0]]⟩),
   (.fresh (createdThenPaid[1]), ⟨rowOne "PAID", createdThenPaid⟩),
   (.redelivered 0, ⟨rowOne "NEW", createdThenPaid⟩)]

theorem staleRun_isRun : Chain SinkStep ⟨[], []⟩ staleRun := by
  refine ⟨⟨by decide, ⟨by decide, by decide⟩, upsert_of_merge (by decide), rfl⟩,
    ⟨by decide, ⟨by decide, by decide⟩, upsert_of_merge (by decide), rfl⟩,
    ⟨createdThenPaid[0], rfl, upsert_of_merge (by decide), rfl⟩, trivial⟩

/-- **An older redelivered change overwrites the newer applied one.** -/
theorem redelivery_not_absorbed :
    ¬ ∀ (T : List MirrorRow) (tr : List (Delivery × Sink)), UniqueKey MirrorRow.id T →
      Chain SinkStep ⟨T, []⟩ tr → Chain Absorbed ⟨T, []⟩ tr := by
  intro h
  obtain ⟨-, -, hp, -⟩ := h [] staleRun unique_nil staleRun_isRun
  have hp' : (rowOne "NEW").Perm (rowOne "PAID") := hp
  exact absurd hp' (by decide)

/-- A run whose only redelivery repeats the newest batch. -/
theorem redelivery_absorbed_iff_latest :
    Chain Absorbed ⟨[], []⟩ (staleRun.take 2 ++ [(.redelivered 1, ⟨rowOne "PAID", createdThenPaid⟩)]) := by
  have hrun : Chain SinkStep ⟨[], []⟩
      (staleRun.take 2 ++ [(.redelivered 1, ⟨rowOne "PAID", createdThenPaid⟩)]) :=
    ⟨staleRun_isRun.1, staleRun_isRun.2.1,
      ⟨createdThenPaid[1], rfl, upsert_of_merge (by decide), rfl⟩, trivial⟩
  refine (redelivery_absorbed_iff [] unique_nil _ hrun).2 ⟨trivial, trivial, ?_, trivial⟩
  intro b hb k e e' he he'
  have hbb : b = createdThenPaid[1] := (Option.some.inj hb).symm
  subst hbb
  have hk : k = 1 := by
    obtain ⟨rec, hr, hre⟩ := mem_changes.1 (newest_mem he)
    have hke := newest_key he
    rw [List.mem_singleton.1 hr] at hre
    cases hre
    exact (Option.some.inj hke).symm
  subst hk
  have h1 : newestChange createdThenPaid[1] 1 = newestChange createdThenPaid.flatten 1 := by decide
  rw [h1] at he
  rw [Option.some.inj (he.symm.trans he')]

end SparkDev.Cdc
