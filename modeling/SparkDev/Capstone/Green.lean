import SparkDev.Capstone.Ingest

/-!
# What a green CDC branch says about the mirror

* `read_faithful_iff`: the bounded read makes a faithful mirror exactly when Debezium had
  taken the snapshot and passed on every record by then.
* `qualityExit_read`: the gate passes every mirror with a row in it, however short the read.
* `green_faithful_iff`: a run that ends green has a faithful mirror exactly when its read
  found Debezium caught up.
* `green_not_faithful`: a green run whose mirror misses all three live changes.
-/

namespace SparkDev.Capstone

open Sql Runs Cdc

variable {rep : Replica} {onEmpty : Bool} {s t : Pipeline} {l : Act} {tr : List (Act × Pipeline)}
  {T : List MirrorRow} {delivered log : List Record} {S : List SourceRow}

/-! ## The bounded read -/

/-- A row of the source that no change of the log mentions does not reach the mirror. -/
theorem ingest_misses {r : SourceRow} (hw : WellStamped Change.id Change.lsn (changes log))
    (hdel : ∀ rec, rec ∈ delivered ↔ rec ∈ log) (hT : Ingest delivered T) (hr : r ∈ S)
    (hnew : ∀ c ∈ changes log, c.id ≠ r.key) : ¬T.Perm (S.map SourceRow.mirrored) := by
  intro hp
  have hwd := wellStamped_of_subset hw fun rec h => (hdel rec).1 h
  have hnone : newestChange delivered r.id = none := by
    rw [newest_eq_none]
    exact fun c hc => hnew c ((mem_changes_congr hdel c).1 hc)
  have hl : lookup MirrorRow.id T r.id = none := by
    rw [upsert_lookup unique_nil hwd hT, hnone]
    rfl
  have hmem : r.mirrored ∈ T := hp.mem_iff.2 (List.mem_map_of_mem hr)
  exact lookup_eq_none.1 hl r.mirrored hmem rfl

theorem PipelineOK.wellStamped (h : PipelineOK s) :
    WellStamped Change.id Change.lsn (changes (s.topic ++ s.pending)) := by
  rcases hs : s.snapshotTaken
  · obtain ⟨htopic, hpend⟩ := h.idle hs
    rw [htopic, hpend]
    exact lsnIncreasing_nil.wellStamped identified_nil
  · exact h.lsn.wellStamped (h.captured hs).identified

/-- The records of the topic alone. -/
theorem PipelineOK.wellStamped_topic (h : PipelineOK s) :
    WellStamped Change.id Change.lsn (changes s.topic) :=
  wellStamped_of_subset h.wellStamped fun _ => List.mem_append_left _

/-- **The read is faithful exactly when Debezium has caught up.** -/
theorem read_faithful_iff (h : PipelineOK s) (hpc : s.pc = .read)
    (hdel : ∀ rec, rec ∈ delivered ↔ rec ∈ s.topic) (hT : Ingest delivered T) :
    T.Perm (s.table.map SourceRow.mirrored) ↔ CaughtUp s := by
  have hran : s.pc.ran = some 3 := by rw [hpc]; rfl
  constructor
  · intro hp
    by_contra hlate
    rcases hs : s.snapshotTaken
    · -- the topic is empty, and the source has row 500
      obtain ⟨clock, now, ht⟩ := h.table 3 hran
      obtain ⟨htopic, -⟩ := h.idle hs
      rw [ht] at hp
      refine ingest_misses h.wellStamped_topic hdel hT (mem_liveTable_three clock now) ?_ hp
      rw [htopic]
      exact fun c hc => by cases hc
    · -- the last pending record is about a row the topic does not know
      have hpend : s.pending ≠ [] := fun hnil => hlate ⟨hs, hnil⟩
      obtain ⟨front, rec, -, r, hr, hnew⟩ := h.last hran hpend
      refine ingest_misses h.wellStamped_topic hdel hT hr (fun c hc => hnew c ?_) hp
      rw [changes_append]
      exact List.mem_append_left _ hc
  · rintro ⟨hs, hpend⟩
    have hcap := h.captured hs
    have hlsn := h.lsn
    rw [hpend, List.append_nil] at hcap hlsn
    exact ingest_captured hcap hlsn hdel hT

/-! ## The gate -/

/-- A row of the mirror is what some change of the log landed. -/
theorem landed_of_mem (hw : WellStamped Change.id Change.lsn (changes log)) (hT : Ingest log T)
    {row : MirrorRow} (hrow : row ∈ T) :
    row.id.isSome = true ∧ ∃ c ∈ changes log, c.landed = some row := by
  have hnull : nullRows MirrorRow.id T = [] := by
    rw [upsert_nullRows hw.key_ne hT]
    rfl
  obtain ⟨k, hk⟩ := Option.ne_none_iff_exists'.1 (nullRows_eq_nil.1 hnull row hrow)
  have hU : UniqueKey MirrorRow.id T := upsert_unique unique_nil hT
  have hl := upsert_lookup unique_nil hw hT k
  rw [hU.lookup_iff.2 ⟨hrow, hk⟩] at hl
  rcases hn : newestChange log k with _ | c
  · rw [hn] at hl
    cases hl
  · rw [hn] at hl
    exact ⟨by rw [hk]; rfl, c, newest_mem hn, hl.symm⟩

/-- **The gate passes whatever the read returned**, unless that left the mirror empty. -/
theorem qualityExit_read (h : PipelineOK s) (hdel : ∀ rec, rec ∈ delivered ↔ rec ∈ s.topic)
    (hT : Ingest delivered T) (hne : T ≠ []) : qualityExit onEmpty T = 0 := by
  have hw := wellStamped_of_subset h.wellStamped_topic fun rec hr => (hdel rec).1 hr
  have hpass : ∀ row ∈ T, row.id.isSome = true ∧ Passes row := by
    intro row hrow
    obtain ⟨hid, c, hc, hland⟩ := landed_of_mem hw hT hrow
    refine ⟨hid, h.passes c ?_ row hland⟩
    rw [changes_append]
    exact List.mem_append_left _ ((mem_changes_congr hdel c).1 hc)
  have hU : UniqueKey MirrorRow.id T := upsert_unique unique_nil hT
  unfold qualityExit
  rw [if_neg hne, if_pos]
  simp only [Bool.and_eq_true, List.all_eq_true, decide_eq_true_eq]
  exact ⟨⟨⟨fun row hrow => (hpass row hrow).1, hU⟩, fun row hrow => (hpass row hrow).2.1⟩,
    fun row hrow => (hpass row hrow).2.2⟩

/-! ## Runs that end green -/

/-- The mirror is there to be judged. -/
def AfterRead (s : Pipeline) : Prop := s.pc = .quality ∨ s.pc = .done

/-- If the step is the read, Debezium has caught up. -/
def ReadCaughtUp (s : Pipeline) (l : Act) : Prop := (∃ delivered, l = .read delivered) → CaughtUp s

theorem raised_step (h : s.pc = .raised) (hstep : Step rep onEmpty s l t) : t.pc = .raised := by
  cases hstep with
  | snapshot rows hreg hfirst hrows => exact h
  | emit rec rest hpend => exact h
  | raise => rfl
  | _ => simp_all

/-- A step of the pipeline on neither side of which there is a mirror to judge. -/
theorem step_before (hs : ¬AfterRead s) (ht : ¬AfterRead t) (hl : ∀ delivered, l ≠ .read delivered) :
    (AfterRead t → Faithful t) ↔ (AfterRead s → Faithful s) ∧ ReadCaughtUp s l :=
  ⟨fun _ => ⟨fun h => absurd h hs, fun ⟨delivered, h⟩ => absurd h (hl delivered)⟩,
    fun _ h => absurd h ht⟩

/-- A step that leaves the mirror, the source and its side of the read alone. -/
theorem step_beside (ha : AfterRead t ↔ AfterRead s) (hf : Faithful t ↔ Faithful s)
    (hl : ∀ delivered, l ≠ .read delivered) :
    (AfterRead t → Faithful t) ↔ (AfterRead s → Faithful s) ∧ ReadCaughtUp s l := by
  rw [ha, hf]
  exact ⟨fun h => ⟨h, fun ⟨delivered, he⟩ => absurd he (hl delivered)⟩, fun h => h.1⟩

theorem not_afterRead {p : Pc} (h : s.pc = p) (hq : p ≠ .quality) (hd : p ≠ .done) :
    ¬AfterRead s := by
  rintro (hs | hs)
  · exact hq (h.symm.trans hs)
  · exact hd (h.symm.trans hs)

theorem afterPoll_ne (i : ℕ) (seen : Option ℕ) :
    afterPoll i seen ≠ .quality ∧ afterPoll i seen ≠ .done := by
  have hran := (afterPoll_ran i seen).1
  constructor
  all_goals
    intro he
    rw [he] at hran
    cases hran

theorem afterStatement_ne (i : ℕ) : afterStatement i ≠ .quality ∧ afterStatement i ≠ .done := by
  unfold afterStatement
  split
  · exact ⟨Pc.noConfusion, Pc.noConfusion⟩
  · exact ⟨Pc.noConfusion, Pc.noConfusion⟩

/-- **One step.** The mirror is faithful after it exactly when it was before and, if the step
made the mirror, Debezium had caught up. -/
theorem step_faithful_iff (h : PipelineOK s) (hstep : Step rep onEmpty s l t) (ht : t.pc ≠ .raised) :
    (AfterRead t → Faithful t) ↔ (AfterRead s → Faithful s) ∧ ReadCaughtUp s l := by
  cases hstep with
  | seed clock hpc =>
    exact step_before (not_afterRead hpc (by decide) (by decide))
      (not_afterRead (p := .register) rfl (by decide) (by decide)) fun _ => Act.noConfusion
  | register accepted hpc =>
    exact step_before (not_afterRead hpc (by decide) (by decide))
      (not_afterRead (p := .wait) rfl (by decide) (by decide)) fun _ => Act.noConfusion
  | waited status hpc =>
    exact step_before (not_afterRead hpc (by decide) (by decide))
      (not_afterRead (p := .poll 0) rfl (by decide) (by decide)) fun _ => Act.noConfusion
  | polled i seen hpc hseen =>
    obtain ⟨hq, hd⟩ := afterPoll_ne i seen
    exact step_before (not_afterRead hpc Pc.noConfusion Pc.noConfusion)
      (not_afterRead rfl hq hd) fun _ => Act.noConfusion
  | statement i lsn now hpc hlsn =>
    obtain ⟨hq, hd⟩ := afterStatement_ne i
    exact step_before (not_afterRead hpc Pc.noConfusion Pc.noConfusion)
      (not_afterRead rfl hq hd) fun _ => Act.noConfusion
  -- the only step that decides: before it there is no mirror, after it the mirror stays
  | read delivered T hpc hdel hT =>
    have hread := read_faithful_iff h hpc hdel hT
    have hnot : ¬AfterRead s := not_afterRead hpc (by decide) (by decide)
    constructor
    · intro hf
      obtain ⟨T', hT', hp⟩ := hf (Or.inl rfl)
      cases hT'
      exact ⟨fun ha => absurd ha hnot, fun _ => hread.1 hp⟩
    · rintro ⟨-, hc⟩ -
      exact ⟨T, rfl, hread.2 (hc ⟨delivered, rfl⟩)⟩
  | quality T hpc hT =>
    exact step_beside ⟨fun _ => Or.inl hpc, fun _ => Or.inr rfl⟩ Iff.rfl fun _ => Act.noConfusion
  | raise hpc => exact absurd rfl ht
  | snapshot rows hreg hfirst hrows => exact step_beside Iff.rfl Iff.rfl fun _ => Act.noConfusion
  | emit rec rest hpend => exact step_beside Iff.rfl Iff.rfl fun _ => Act.noConfusion

/-- A run that ends green never raised. -/
theorem not_raised_of_green (tr : List (Act × Pipeline)) (hc : Chain (Step rep onEmpty) s tr)
    (hg : Green (final s tr)) : s.pc ≠ .raised := by
  intro hs
  have hfinal := chain_invariant (I := fun s : Pipeline => s.pc = .raised)
    (fun _ _ _ h hstep => raised_step h hstep) tr s hs hc
  rw [hg.1] at hfinal
  cases hfinal

/-- **Step by step along a run that ends green.** -/
theorem run_faithful_iff (tr : List (Act × Pipeline)) :
    ∀ s, RunOK s → Chain (Step rep onEmpty) s tr → Green (final s tr) →
      (Faithful (final s tr) ↔ (AfterRead s → Faithful s) ∧ Chain (fun s l _ => ReadCaughtUp s l) s tr) := by
  induction tr with
  | nil =>
    intro s _ _ hg
    have ha : AfterRead s := Or.inr hg.1
    simp [ha]
  | cons p tr ih =>
    intro s hs hc hg
    obtain ⟨l, t⟩ := p
    rw [final_cons] at hg ⊢
    have hok := hs.resolve_left (not_raised_of_green ((l, t) :: tr) hc hg)
    have hstep := step_faithful_iff hok hc.1 (not_raised_of_green tr hc.2 hg)
    -- the mirror of the end is judged at `t` by the induction hypothesis, at `s` by the step
    rw [ih t (runOK_step hs hc.1) hc.2 hg, hstep, chain_cons, and_assoc]

theorem pipelineOK_of_chain (hc : Chain (Step rep onEmpty) start tr)
    (hraised : (final start tr).pc ≠ .raised) : PipelineOK (final start tr) := by
  have hend := chain_invariant (I := RunOK) (fun _ _ _ h hstep => runOK_step h hstep) tr start
    (Or.inr pipelineOK_start) hc
  exact hend.resolve_left hraised

/-! ## A full read and a short one -/

/-- A step that, if it is the read, finds Debezium caught up. -/
def FullStep (rep : Replica) (onEmpty : Bool) (s : Pipeline) (l : Act) (t : Pipeline) : Prop :=
  Step rep onEmpty s l t ∧ ReadCaughtUp s l

theorem fullStep (hstep : Step rep onEmpty s l t) (hl : ∀ delivered, l ≠ .read delivered) :
    Reach (FullStep rep onEmpty) s t :=
  reach_step ⟨hstep, fun ⟨delivered, h⟩ => absurd h (hl delivered)⟩

/-- Debezium can pass on all it has. -/
theorem reach_drained (rep : Replica) (onEmpty : Bool) (pending : List Record) :
    ∀ s, s.pending = pending →
      Reach (FullStep rep onEmpty) s { s with topic := s.topic ++ pending, pending := [] } := by
  induction pending with
  | nil =>
    intro s hs
    have h : ({ s with topic := s.topic ++ [], pending := [] } : Pipeline) = s := by
      rw [List.append_nil, ← hs]
    rw [h]
    exact reach_refl s
  | cons rec rest ih =>
    intro s hs
    have hstep : Step rep onEmpty s .emit { s with topic := s.topic ++ [rec], pending := rest } :=
      Step.emit rec rest hs
    have hrest := ih { s with topic := s.topic ++ [rec], pending := rest } rfl
    simp only [List.append_assoc, List.singleton_append] at hrest
    exact (fullStep hstep fun _ => Act.noConfusion).trans hrest

theorem pipelineOK_of_reach (hreach : Reach (FullStep rep onEmpty) start s) (hraised : s.pc ≠ .raised) :
    PipelineOK s := by
  obtain ⟨tr, hfull, rfl⟩ := hreach
  exact pipelineOK_of_chain ((chain_and tr start).1 hfull).1 hraised

/-- The twelve rows pass through, the poll sees them, and the sleep ends before any of the
three live changes does. -/
theorem reach_shortRead (onEmpty : Bool) : ∃ s, Reach (FullStep Replica.keyOnly onEmpty) start s ∧
    s.pc = .read ∧ s.snapshotTaken = true ∧ s.pending ≠ [] ∧
      s.topic = (seedOrders (fun _ => 0) 12).map (snapshotEvent (some 0)) := by
  have seeded : Reach (FullStep Replica.keyOnly onEmpty) start _ :=
    fullStep (Step.seed (fun _ => 0) rfl) fun _ => Act.noConfusion
  have registered := seeded.trans (fullStep (Step.register true rfl) fun _ => Act.noConfusion)
  have waited := registered.trans (fullStep (Step.waited "RUNNING" rfl) fun _ => Act.noConfusion)
  have taken := waited.trans
    (fullStep (Step.snapshot (seedOrders (fun _ => 0) 12) rfl rfl (List.Perm.refl _)) fun _ => Act.noConfusion)
  have passed := taken.trans (reach_drained Replica.keyOnly onEmpty _ _ rfl)
  have polled := passed.trans
    (fullStep (Step.polled 0 (some 12) rfl fun n hn => by cases hn; rfl) fun _ => Act.noConfusion)
  have updated := polled.trans (fullStep (Step.statement 0 1 0 rfl Int.zero_lt_one) fun _ => Act.noConfusion)
  have deleted := updated.trans (fullStep (Step.statement 1 2 0 rfl (by decide)) fun _ => Act.noConfusion)
  have inserted := deleted.trans (fullStep (Step.statement 2 3 0 rfl (by decide)) fun _ => Act.noConfusion)
  exact ⟨_, inserted, rfl, rfl, List.cons_ne_nil _ _, rfl⟩

/-- From the read a run can end green with any mirror that has a row. -/
theorem exists_green (hreach : Reach (FullStep rep onEmpty) start s) (hpc : s.pc = .read)
    (hT : Ingest s.topic T) (hne : T ≠ []) :
    ∃ tr, Chain (Step rep onEmpty) start tr ∧ Green (final start tr) ∧
      (final start tr).mirror = some T ∧ (final start tr).table = s.table ∧
      (CaughtUp s → Chain (fun s l _ => ReadCaughtUp s l) start tr) := by
  obtain ⟨tr, hfull, rfl⟩ := hreach
  obtain ⟨hc, hcond⟩ := (chain_and tr start).1 hfull
  have hok := pipelineOK_of_chain hc (by rw [hpc]; decide)
  have hexit : qualityExit onEmpty T = 0 := qualityExit_read hok (fun _ => Iff.rfl) hT hne
  have hread : Step rep onEmpty (final start tr) (.read (final start tr).topic)
      { final start tr with pc := .quality, mirror := some T } :=
    Step.read _ T hpc (fun _ => Iff.rfl) hT
  have hquality : Step rep onEmpty { final start tr with pc := .quality, mirror := some T } .quality
      { final start tr with pc := .done, mirror := some T, exit := some (qualityExit onEmpty T) } :=
    Step.quality T rfl rfl
  refine ⟨tr ++ [(_, _), (_, _)], (chain_append tr start).2 ⟨hc, hread, hquality, trivial⟩, ?_⟩
  rw [final_append]
  refine ⟨⟨rfl, by rw [final_cons, final_cons, final_nil, hexit]⟩, rfl, rfl, fun hup => ?_⟩
  exact (chain_append tr start).2 ⟨hcond, fun _ => hup, fun ⟨_, h⟩ => Act.noConfusion h, trivial⟩

/-! ## What green says -/

/-- **What green says.** However Debezium's steps fall between the pipeline's, whatever the
connector reports and whatever the suite says of an empty mirror: the source of a run that
ends green is the seed with the three live changes, and the mirror holds exactly its rows if
and only if Debezium had taken the snapshot and passed on every record when the topic was
read. -/
theorem green_faithful_iff (rep : Replica) (onEmpty : Bool) (tr : List (Act × Pipeline))
    (hc : Chain (Step rep onEmpty) start tr) (hg : Green (final start tr)) :
    (∃ clock now, (final start tr).table = liveTable clock now 3) ∧
      (Faithful (final start tr) ↔ Chain (fun s l _ => ReadCaughtUp s l) start tr) := by
  have hok := pipelineOK_of_chain hc (by rw [hg.1]; decide)
  refine ⟨hok.table 3 (by rw [hg.1]; rfl), ?_⟩
  rw [run_faithful_iff tr start (Or.inr pipelineOK_start) hc hg]
  exact and_iff_right fun ha => absurd ha (not_afterRead (p := .seed) rfl (by decide) (by decide))

/-- The run whose read finds everything passed on. -/
theorem green_faithful_iff_full :
    ∃ tr, Chain (Step Replica.keyOnly false) start tr ∧ Green (final start tr) ∧
      (∃ clock now, (final start tr).table = liveTable clock now 3) ∧ Faithful (final start tr) := by
  obtain ⟨s, hreach, hpc, hsnap, -, -⟩ := reach_shortRead false
  have hfull := hreach.trans (reach_drained Replica.keyOnly false s.pending s rfl)
  have hup : CaughtUp { s with topic := s.topic ++ s.pending, pending := [] } := ⟨hsnap, rfl⟩
  have hok := pipelineOK_of_reach hfull (by rw [hpc]; decide)
  obtain ⟨T, hT⟩ := upsert_exists [] (s.topic ++ s.pending)
  have hne : T ≠ [] := by
    obtain ⟨clock, now, htable⟩ := hok.table 3 (by rw [hpc]; rfl)
    have hp := (read_faithful_iff hok hpc (fun _ => Iff.rfl) hT).2 hup
    intro hnil
    rw [hnil, htable, List.nil_perm, List.map_eq_nil_iff] at hp
    have hmem := mem_liveTable_three clock now
    rw [hp] at hmem
    cases hmem
  obtain ⟨tr, hc, hg, -, -, hcond⟩ := exists_green hfull hpc hT hne
  obtain ⟨htable, hiff⟩ := green_faithful_iff Replica.keyOnly false tr hc hg
  exact ⟨tr, hc, hg, htable, hiff.2 (hcond hup)⟩

/-- **A green run whose mirror is the twelve seeded rows**: no live change reached it. -/
theorem green_not_faithful :
    ∃ tr T, Chain (Step Replica.keyOnly false) start tr ∧ Green (final start tr) ∧
      (final start tr).mirror = some T ∧
      T.Perm ((seedOrders (fun _ => 0) 12).map SourceRow.mirrored) ∧ ¬Faithful (final start tr) := by
  obtain ⟨s, hreach, hpc, -, hpend, htopic⟩ := reach_shortRead false
  have hok := pipelineOK_of_reach hreach (by rw [hpc]; decide)
  have hlsn : LsnIncreasing s.topic := hok.lsn.append_left
  obtain ⟨T, hT⟩ := upsert_exists [] s.topic
  have hp : T.Perm ((seedOrders (fun _ => 0) 12).map SourceRow.mirrored) := by
    rw [htopic] at hlsn hT
    have hcap := captured_snapshot (seedOrders_unique (fun _ => 0) 12) (fun _ => some 0) hlsn
    exact ingest_captured hcap hlsn (fun _ => Iff.rfl) hT
  have hne : T ≠ [] := by
    intro hnil
    rw [hnil] at hp
    exact absurd hp.length_eq (by simp [seedOrders])
  obtain ⟨tr, hc, hg, hmirror, htable, -⟩ := exists_green hreach hpc hT hne
  refine ⟨tr, T, hc, hg, hmirror, hp, ?_⟩
  rintro ⟨T', hT', hfaithful⟩
  rw [hmirror] at hT'
  cases hT'
  rw [htable] at hfaithful
  exact hpend ((read_faithful_iff hok hpc (fun _ => Iff.rfl) hT).1 hfaithful).2

end SparkDev.Capstone
