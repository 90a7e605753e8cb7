import SparkDev.Cdc.Mirror

/-!
# The LSN-guarded `MERGE` of CDC-9

The mirror of CDC-9 stores `source_lsn`, and a matched row is overwritten only by
a higher LSN. The guard is on the update branch: a delete applies whatever its
LSN, and so does the insert of a row that a delete has removed.

`Crosses` is the case the guard misses: after the newest event of an id, a batch
whose newest event of the id is of the other kind (a delete after a live row, a
live row after a delete). `guarded_converges_iff`: over every history and every
delivery of it in batches, the mirror settles on the source's rows exactly when no
batch crosses.
-/

namespace SparkDev.Cdc

open Sql Runs

/-- A row of a mirror that stores `source_lsn`. -/
structure VersionedRow where
  row : MirrorRow
  sourceLsn : Option ℤ
  deriving DecidableEq, Repr

/-- `a > b` is TRUE in SQL. -/
def lsnGt : Option ℤ → Option ℤ → Bool
  | some a, some b => decide (b < a)
  | _, _ => false

/-- `INSERT *` and `UPDATE SET *`: all columns of the change. -/
def Change.toVersioned (s : Change) : VersionedRow := ⟨s.toRow, s.lsn⟩

/-- What a change leaves on an id that has seen nothing newer. -/
def Change.settled (s : Change) : Option VersionedRow := if s.op = .d then none else some s.toVersioned

/-- The guarded `MERGE`. -/
def cdc9Merge : MergeClauses VersionedRow Change ℤ where
  targetKey t := t.row.id
  sourceKey := Change.id
  matched t s :=
    if s.op = .d then none
    else if lsnGt s.lsn t.sourceLsn then some s.toVersioned
    else some t
  notMatched s := if s.op ≠ .d then some s.toVersioned else none
  matched_key t s t' hon h := by
    obtain ⟨k, ht, hs⟩ := keyEq_iff.1 hon
    split at h
    · cases h
    · split at h
      · cases h; exact hs.trans ht.symm
      · cases h; rfl
  notMatched_key s t h := by
    split at h
    · cases h; rfl
    · cases h

/-- One batch, deduplicated to the max-LSN event of each id, through the guarded `MERGE`. -/
def GuardedUpsert (T : List VersionedRow) (batch : List Record) (T' : List VersionedRow) : Prop :=
  DedupMerge cdc9Merge Change.lsn T (changes batch) T'

/-- The id of a stored row. -/
def VersionedRow.id (t : VersionedRow) : Option ℤ := t.row.id

variable {log b : List Record} {T T' : List VersionedRow} {k : ℤ} {e f : Change}
  {tr post : List (List Record × List VersionedRow)}

/-- The computed run is a run. -/
theorem guarded_of_merge (h : cdc9Merge.merge T (latest b) = some T') : GuardedUpsert T b T' :=
  ⟨latest b, rowNumberOne_spec _ _ _, h⟩

/-! ## One batch -/

theorem guarded_lookup (hT : UniqueKey VersionedRow.id T)
    (hw : WellStamped Change.id Change.lsn (changes b)) (h : GuardedUpsert T b T') (k : ℤ) :
    lookup VersionedRow.id T' k = cdc9Merge.apply (newestChange b k) (lookup VersionedRow.id T k) :=
  dedupMerge_lookup (m := cdc9Merge) hT hw h k

theorem guarded_unique (hT : UniqueKey VersionedRow.id T) (h : GuardedUpsert T b T') :
    UniqueKey VersionedRow.id T' := dedupMerge_unique (m := cdc9Merge) hT h

/-- The guarded `MERGE` of a batch does not fail. -/
theorem guarded_exists (T : List VersionedRow) (b : List Record) : ∃ T', GuardedUpsert T b T' :=
  dedupMerge_exists cdc9Merge Change.lsn T (changes b)

/-- Every row of the mirror was written by an event of the log, and has an id. -/
structure FromLog (log : List Record) (T : List VersionedRow) : Prop where
  unique : UniqueKey VersionedRow.id T
  keyed : nullRows VersionedRow.id T = []
  row : ∀ k t, lookup VersionedRow.id T k = some t →
    ∃ f ∈ changes log, f.id = some k ∧ f.op ≠ .d ∧ t = f.toVersioned

theorem fromLog_nil (log : List Record) : FromLog log [] where
  unique := unique_nil
  keyed := rfl
  row k t h := by cases h

/-- The newest event of an id in part of the log is not newer than the id's newest event. -/
theorem newestChange_le (hw : WellStamped Change.id Change.lsn (changes log))
    (he : newestChange log k = some e) (hf : f ∈ changes log) (hfk : f.id = some k) :
    lsnGt f.lsn e.lsn = false := by
  obtain ⟨-, -, hmax⟩ := (newest_eq_some hw).1 he
  cases hx : f.lsn with
  | none => rfl
  | some x =>
    cases hy : e.lsn with
    | none => rfl
    | some y =>
      have := hmax f hf hfk x hx y hy
      simpa [lsnGt] using this

theorem mem_changes_of_sub (hb : ∀ rec ∈ b, rec ∈ log) (hf : f ∈ changes b) : f ∈ changes log := by
  obtain ⟨rec, hr, hre⟩ := mem_changes.1 hf
  exact mem_changes.2 ⟨rec, hb rec hr, hre⟩

/-- What the guarded `MERGE` leaves under an id is the change's row or the row it found. -/
theorem cdc9_apply {o : Option VersionedRow} {t : VersionedRow} (h : cdc9Merge.apply (some f) o = some t) :
    f.op ≠ .d ∧ t = f.toVersioned ∨ o = some t := by
  rcases o with _ | t₀
  · simp only [MergeClauses.apply, cdc9Merge] at h
    split at h
    · rename_i hop
      exact Or.inl ⟨hop, (Option.some.inj h).symm⟩
    · cases h
  · simp only [MergeClauses.apply, cdc9Merge] at h
    split at h
    · cases h
    · rename_i hop
      split at h
      · exact Or.inl ⟨hop, (Option.some.inj h).symm⟩
      · exact Or.inr h

/-- **One batch** keeps the rows from the log. -/
theorem FromLog.step (hw : WellStamped Change.id Change.lsn (changes log)) (h : FromLog log T)
    (hb : ∀ rec ∈ b, rec ∈ log) (hstep : GuardedUpsert T b T') : FromLog log T' := by
  have hwb := wellStamped_of_subset hw hb
  refine ⟨guarded_unique h.unique hstep,
    (dedupMerge_nullRows (m := cdc9Merge) hwb.key_ne hstep).trans h.keyed, fun k t ht => ?_⟩
  rw [guarded_lookup h.unique hwb hstep k] at ht
  rcases hn : newestChange b k with _ | f
  · rw [hn] at ht
    exact h.row k t ht
  · rw [hn] at ht
    rcases cdc9_apply ht with ⟨hop, rfl⟩ | hold
    · exact ⟨f, mem_changes_of_sub hb (newest_mem hn), newest_key hn, hop, rfl⟩
    · exact h.row k t hold

/-- **The newest event settles its id**, whatever the mirror held there. -/
theorem FromLog.newest_settles (hw : WellStamped Change.id Change.lsn (changes log)) (h : FromLog log T)
    (hb : ∀ rec ∈ b, rec ∈ log) (hstep : GuardedUpsert T b T') (he : newestChange log k = some e)
    (heb : e ∈ changes b) : lookup VersionedRow.id T' k = e.settled := by
  have hwb := wellStamped_of_subset hw hb
  have hek := newest_key he
  have hn : newestChange b k = some e := by
    rw [newest_eq_some hwb]
    refine ⟨heb, hek, fun c hc hck => ?_⟩
    exact ((newest_eq_some hw).1 he).2.2 c (mem_changes_of_sub hb hc) hck
  -- with no row the event lands; with one the guard compares
  rw [guarded_lookup h.unique hwb hstep k, hn]
  cases ho : lookup VersionedRow.id T k with
  | none =>
    simp only [MergeClauses.apply, cdc9Merge, Change.settled]
    by_cases hop : e.op = .d <;> simp [hop]
  | some t =>
    obtain ⟨g, hg, hgk, hgop, rfl⟩ := h.row k t ho
    simp only [MergeClauses.apply, cdc9Merge, Change.settled]
    by_cases hop : e.op = .d
    · rw [if_pos hop, if_pos hop]
    · rw [if_neg hop, if_neg hop]
      split
      · rfl
      · -- the stored row is as new as the newest event, so it is the newest event
        rename_i hgt
        obtain ⟨x, hx⟩ := Option.ne_none_iff_exists'.1 (hw.stamp_ne e (newest_mem he))
        obtain ⟨y, hy⟩ := Option.ne_none_iff_exists'.1 (hw.stamp_ne g hg)
        have hle := newestChange_le hw he hg hgk
        simp only [Change.toVersioned, lsnGt, hx, hy, decide_eq_true_eq, decide_eq_false_iff_not,
          not_lt] at hgt hle
        have hge : g = e := hw.inj g hg e (newest_mem he) (hgk.trans hek.symm)
          (by rw [hx, hy, le_antisymm hle hgt])
        rw [hge]

/-- A batch whose newest event of the id is of the other kind than `e`. -/
def Crosses (e : Change) (k : ℤ) (b : List Record) : Prop :=
  ∃ f, newestChange b k = some f ∧ ¬ (f.op = .d ↔ e.op = .d)

/-- **A later batch** leaves a settled id alone exactly when it does not cross. -/
theorem FromLog.kept_iff (hw : WellStamped Change.id Change.lsn (changes log)) (h : FromLog log T)
    (hb : ∀ rec ∈ b, rec ∈ log) (hstep : GuardedUpsert T b T') (he : newestChange log k = some e)
    (hset : lookup VersionedRow.id T k = e.settled) :
    lookup VersionedRow.id T' k = e.settled ↔ ¬ Crosses e k b := by
  have hwb := wellStamped_of_subset hw hb
  rw [guarded_lookup h.unique hwb hstep k, hset]
  unfold Crosses
  cases hn : newestChange b k with
  | none => simp [MergeClauses.apply]
  | some f =>
    have hle := newestChange_le hw he (mem_changes_of_sub hb (newest_mem hn)) (newest_key hn)
    -- four kinds of pairs; where both are live rows the guard keeps the newer one
    by_cases hop : e.op = .d <;> by_cases hfop : f.op = .d <;>
      simp [MergeClauses.apply, cdc9Merge, Change.settled, Change.toVersioned, hop, hfop, hle]

/-! ## Runs -/

/-- The batches deliver the log: nothing else, every record at least once, in any order. -/
structure Delivers (log : List Record) (batches : List (List Record)) : Prop where
  sub : ∀ b ∈ batches, ∀ rec ∈ b, rec ∈ log
  all : ∀ rec ∈ log, ∃ b ∈ batches, rec ∈ b

/-- Once the newest event of an id has been applied, no later batch changes the id. -/
def Settles (log : List Record) (tr : List (List Record × List VersionedRow)) : Prop :=
  ∀ k e, newestChange log k = some e → ∀ pre b T post, tr = pre ++ (b, T) :: post → e ∈ changes b →
    ∀ x ∈ post, lookup VersionedRow.id x.2 k = lookup VersionedRow.id T k

/-- No batch after one with the newest event of an id crosses it. -/
def NoCrossing (log : List Record) (batches : List (List Record)) : Prop :=
  ∀ k e, newestChange log k = some e → ∀ pre b post, batches = pre ++ b :: post → e ∈ changes b →
    ∀ b' ∈ post, ¬ Crosses e k b'

/-- The steps of a run whose batches are parts of the log. -/
theorem chain_fromLog (hw : WellStamped Change.id Change.lsn (changes log))
    (hsub : ∀ x ∈ tr, ∀ rec ∈ x.1, rec ∈ log) (h : FromLog log T) (hc : Chain GuardedUpsert T tr) :
    FromLog log (final T tr) := by
  induction tr generalizing T with
  | nil => exact h
  | cons x tr ih =>
    obtain ⟨hx, htr⟩ := List.forall_mem_cons.1 hsub
    exact ih htr (h.step hw hx hc.1) hc.2

/-- **After the newest event** the id stays settled exactly while no batch crosses it. -/
theorem settled_iff (hw : WellStamped Change.id Change.lsn (changes log))
    (he : newestChange log k = some e) (hsub : ∀ x ∈ post, ∀ rec ∈ x.1, rec ∈ log)
    (h : FromLog log T) (hset : lookup VersionedRow.id T k = e.settled)
    (hc : Chain GuardedUpsert T post) :
    (∀ x ∈ post, lookup VersionedRow.id x.2 k = e.settled) ↔ ∀ x ∈ post, ¬ Crosses e k x.1 := by
  induction post generalizing T with
  | nil => simp
  | cons x post ih =>
    obtain ⟨hx, hpost⟩ := List.forall_mem_cons.1 hsub
    rw [List.forall_mem_cons, List.forall_mem_cons, ← h.kept_iff hw hx hc.1 he hset]
    exact and_congr_right fun hset' => ih hpost (h.step hw hx hc.1) hset' hc.2

/-- A run cut at one of its batches. -/
theorem chain_cut (hw : WellStamped Change.id Change.lsn (changes log))
    (hsub : ∀ x ∈ tr, ∀ rec ∈ x.1, rec ∈ log) (hc : Chain GuardedUpsert [] tr)
    {pre : List (List Record × List VersionedRow)} (htr : tr = pre ++ (b, T) :: post)
    (he : newestChange log k = some e) (heb : e ∈ changes b) :
    FromLog log T ∧ lookup VersionedRow.id T k = e.settled ∧ Chain GuardedUpsert T post ∧
      ∀ x ∈ post, ∀ rec ∈ x.1, rec ∈ log := by
  subst htr
  obtain ⟨hpre, hrest⟩ := List.forall_mem_append.1 hsub
  obtain ⟨hb, hpost⟩ := List.forall_mem_cons.1 hrest
  obtain ⟨hc1, hc2⟩ := (chain_append pre []).1 hc
  have h0 := chain_fromLog hw hpre (fromLog_nil log) hc1
  exact ⟨h0.step hw hb hc2.1, h0.newest_settles hw hb hc2.1 he heb, hc2.2, hpost⟩

/-- **Ids settle exactly when no batch crosses.** -/
theorem settles_iff (hw : WellStamped Change.id Change.lsn (changes log))
    (hsub : ∀ x ∈ tr, ∀ rec ∈ x.1, rec ∈ log) (hc : Chain GuardedUpsert [] tr) :
    Settles log tr ↔ NoCrossing log (tr.map Prod.fst) := by
  constructor
  · intro hs k e he pre b post hcut heb
    obtain ⟨pre', rest, rfl, -, hrest⟩ := List.map_eq_append_iff.1 hcut
    obtain ⟨⟨b', T⟩, post', rfl, hbT, hpost⟩ := List.map_eq_cons_iff.1 hrest
    cases hbT
    obtain ⟨h0, hset, hcp, hps⟩ := chain_cut hw hsub hc rfl he heb
    have h1 := (settled_iff hw he hps h0 hset hcp).1 fun x hx => by
      rw [hs k e he pre' b' T post' rfl heb x hx, hset]
    intro c hcm
    rw [← hpost] at hcm
    obtain ⟨x, hx, rfl⟩ := List.mem_map.1 hcm
    exact h1 x hx
  · intro hn k e he pre b T post htr heb x hx
    obtain ⟨h0, hset, hcp, hps⟩ := chain_cut hw hsub hc htr he heb
    have h1 := (settled_iff hw he hps h0 hset hcp).2 fun y hy =>
      hn k e he (pre.map Prod.fst) b (post.map Prod.fst) (by rw [htr]; simp) heb y.1
        (List.mem_map_of_mem hy)
    rw [h1 x hx, hset]

/-- **A run that settles ends with the source's rows.** -/
theorem converges_of_settles {S : List SourceRow} (hS : Captured S log) (hlsn : LsnIncreasing log)
    (hd : Delivers log (tr.map Prod.fst)) (hc : Chain GuardedUpsert [] tr) (hs : Settles log tr) :
    ((final [] tr).map VersionedRow.row).Perm (S.map SourceRow.mirrored) := by
  have hw := hlsn.wellStamped hS.identified
  have hsub : ∀ x ∈ tr, ∀ rec ∈ x.1, rec ∈ log := fun x hx => hd.sub x.1 (List.mem_map_of_mem hx)
  have hF := chain_fromLog hw hsub (fromLog_nil log) hc
  have hkeyv : ∀ t : VersionedRow, t.row.id = t.id := fun _ => rfl
  refine perm_of_lookup (hF.unique.map hkeyv) (hS.unique.map mirrored_id) (fun k => ?_) ?_
  · rw [lookup_map mirrored_id, lookup_map hkeyv, hS.row k]
    cases hn : newestChange log k with
    | none =>
      cases hl : lookup VersionedRow.id (final [] tr) k with
      | none => rfl
      | some t =>
        obtain ⟨f, hf, hfk, -⟩ := hF.row k t hl
        exact absurd hfk (newest_eq_none.1 hn f hf)
    | some e =>
      -- some batch delivers the newest event; from there on the id is settled
      obtain ⟨rec, hr, hre⟩ := mem_changes.1 (newest_mem hn)
      obtain ⟨b, hb, hrb⟩ := hd.all rec hr
      obtain ⟨⟨b', T⟩, hx, rfl⟩ := List.mem_map.1 hb
      obtain ⟨pre, post, rfl⟩ := List.append_of_mem hx
      have heb : e ∈ changes b' := mem_changes.2 ⟨rec, hrb, hre⟩
      obtain ⟨-, hset, -, -⟩ := chain_cut hw hsub hc rfl hn heb
      have hfin : lookup VersionedRow.id (final [] (pre ++ (b', T) :: post)) k = e.settled := by
        rw [final_append, final_cons]
        rcases final_mem post T with h | ⟨x, hx, h⟩
        · rw [h, hset]
        · rw [← h, hs k e hn pre b' T post rfl heb x hx, hset]
      rw [hfin]
      simp only [Change.settled, Change.landed, Option.bind_some]
      split <;> rfl
  · have h0 : nullRows MirrorRow.id ((final [] tr).map VersionedRow.row) = [] := by
      rw [nullRows_eq_nil]
      intro r hr
      obtain ⟨t, ht, rfl⟩ := List.mem_map.1 hr
      exact nullRows_eq_nil.1 hF.keyed t ht
    rw [h0, nullRows_mirrored]

/-- **Exactly when the guarded `MERGE` converges.** For every history and every delivery of its
log in batches, the mirror ends with the source's final rows and no id changes after its newest
event if and only if no batch after an id's newest event crosses it. -/
theorem guarded_converges_iff (rep : Replica) (h : History) (hlsn : LsnIncreasing (h.log rep))
    (tr : List (List Record × List VersionedRow)) (hd : Delivers (h.log rep) (tr.map Prod.fst))
    (hc : Chain GuardedUpsert [] tr) :
    (((final [] tr).map VersionedRow.row).Perm (h.table.map SourceRow.mirrored) ∧
        Settles (h.log rep) tr) ↔ NoCrossing (h.log rep) (tr.map Prod.fst) := by
  have hS := captured_log rep h hlsn
  have hsub : ∀ x ∈ tr, ∀ rec ∈ x.1, rec ∈ h.log rep := fun x hx =>
    hd.sub x.1 (List.mem_map_of_mem hx)
  rw [← settles_iff (hlsn.wellStamped hS.identified) hsub hc]
  exact ⟨fun hcs => hcs.2, fun hs => ⟨converges_of_settles hS hlsn hd hc hs, hs⟩⟩

/-- Row 1 is created and deleted. -/
def createdThenDeleted : History where
  before := []
  snapLsn _ := none
  after := [(.insert ⟨1, "ann", 10, "NEW", 0⟩, some 10), (.delete 1, some 11)]

/-- Its topic: the `c` event, the `d` event, the tombstone. -/
abbrev createdThenDeletedLog : List Record := createdThenDeleted.log Replica.keyOnly

/-- The whole log in one batch, then the `c` event again. -/
def resurrectedRun : List (List Record × List VersionedRow) :=
  [(createdThenDeletedLog, []),
   (createdThenDeletedLog.take 1, [⟨⟨some 1, some "ann", some 10, some "NEW", some 0⟩, some 10⟩])]

/-- **A deleted row comes back** when its older create event is redelivered. -/
theorem guarded_not_converges :
    ¬ ∀ (rep : Replica) (h : History) (tr : List (List Record × List VersionedRow)),
      LsnIncreasing (h.log rep) → Delivers (h.log rep) (tr.map Prod.fst) → Chain GuardedUpsert [] tr →
        ((final [] tr).map VersionedRow.row).Perm (h.table.map SourceRow.mirrored) ∧
          Settles (h.log rep) tr := by
  intro hall
  have hd : Delivers createdThenDeletedLog (resurrectedRun.map Prod.fst) := ⟨by decide, by decide⟩
  have hc : Chain GuardedUpsert [] resurrectedRun :=
    ⟨guarded_of_merge (by decide), guarded_of_merge (by decide), trivial⟩
  obtain ⟨hp, -⟩ := hall Replica.keyOnly createdThenDeleted resurrectedRun ⟨by decide, by decide⟩ hd hc
  have hlen := hp.length_eq
  exact absurd hlen (by decide)

/-- Row 1 is created and paid. -/
def createdThenUpdated : History where
  before := []
  snapLsn _ := none
  after := [(.insert ⟨1, "ann", 10, "NEW", 0⟩, some 10), (.update ⟨1, "ann", 10, "PAID", 0⟩, some 11)]

/-- Its topic: the `c` event, the `u` event. -/
abbrev createdThenUpdatedLog : List Record := createdThenUpdated.log Replica.keyOnly

/-- The mirror with the paid row. -/
def paidMirror : List VersionedRow := [⟨⟨some 1, some "ann", some 10, some "PAID", some 0⟩, some 11⟩]

/-- The whole log in one batch, then the `c` event again. -/
def redeliveredRun : List (List Record × List VersionedRow) :=
  [(createdThenUpdatedLog, paidMirror), (createdThenUpdatedLog.take 1, paidMirror)]

/-- The guard skips the redelivered `c` event: the mirror has the paid row, and keeps it. -/
theorem guarded_converges_redelivered :
    ((final [] redeliveredRun).map VersionedRow.row).Perm
        [⟨some 1, some "ann", some 10, some "PAID", some 0⟩] ∧
      Settles createdThenUpdatedLog redeliveredRun := by
  have hd : Delivers createdThenUpdatedLog (redeliveredRun.map Prod.fst) := ⟨by decide, by decide⟩
  refine (guarded_converges_iff Replica.keyOnly createdThenUpdated ⟨by decide, by decide⟩ redeliveredRun hd
    ⟨guarded_of_merge (by decide), guarded_of_merge (by decide), trivial⟩).2 ?_
  -- no event of the log is a delete, so no batch crosses
  have hlive : ∀ f ∈ changes createdThenUpdatedLog, f.op ≠ .d := by decide
  have hsub : ∀ b ∈ redeliveredRun.map Prod.fst, ∀ rec ∈ b, rec ∈ createdThenUpdatedLog := hd.sub
  rintro k e he pre b post hcut - b' hb' ⟨f, hf, hcross⟩
  have hb : b' ∈ redeliveredRun.map Prod.fst := by
    rw [hcut]
    exact List.mem_append_right pre (List.mem_cons_of_mem b hb')
  exact hcross (iff_of_false (hlive f (mem_changes_of_sub (hsub b' hb) (newest_mem hf))) (hlive e (newest_mem he)))

end SparkDev.Cdc
