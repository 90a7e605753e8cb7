import SparkDev.Py.Dict
import SparkDev.Runs.Poll
import SparkDev.Runs.Script

/-!
# `ensure_topic(recreate=True)`

`ensure_topic` asks for the deletion of the topic, which the broker carries out some time
later, and then tries five times to create it. Every exception on the way is swallowed, so
it returns whatever became of the topic.

* `createLoop_live`, `createLoop_absent`, `createLoop_doomed`: what the five attempts do to a
  topic that is there, that is not, and that is being deleted.
* `ensure_topic_iff`: the topic is as requested exactly when an attempt is carried out after
  the deletion is, or the old topic could not be deleted and was as requested all along.
-/

namespace SparkDev.Kafka

open Py Runs

/-- A topic with its records. -/
structure TopicData (Rec : Type) where
  partitions : ℕ
  configs : Dict String String
  records : List Rec

/-- A topic at the broker. -/
inductive TopicState (Rec : Type) where
  | absent
  | live (t : TopicData Rec)
  /-- Its deletion is accepted and not yet carried out. -/
  | doomed (t : TopicData Rec)

/-- What the environment does in the course of one `ensure_topic`. -/
structure Broker (ε : Type) where
  admin : Except ε PUnit
  deleteTopics : Outcome ε
  /-- A pending deletion is carried out before attempt `i`; the last one is after them all. -/
  completes : ℕ → Bool
  /-- What comes of attempt `i` to create the topic where there is none. -/
  createTopics : ℕ → Outcome ε
  /-- What the broker raises for a topic that is there. -/
  alreadyExists : ε
  close : Except ε PUnit

variable {ε Rec : Type} (B : Broker ε)

/-- `admin.delete_topics([topic])`: a topic that is there is marked for deletion. -/
def TopicState.markDeleted : TopicState Rec → TopicState Rec
  | absent => absent
  | live t => doomed t
  | doomed t => doomed t

/-- A pending deletion is carried out. -/
def TopicState.settle (completes : Bool) : TopicState Rec → TopicState Rec
  | absent => absent
  | live t => live t
  | doomed t => if completes then absent else doomed t

/-- `admin.create_topics([NewTopic(..)])`, attempt `i`. -/
def createTopics (new : TopicData Rec) (i : ℕ) : Script (TopicState Rec) ε PUnit := do
  match ← get with
  | .absent => request (B.createTopics i) fun _ => .live new
  | .live _ => throw B.alreadyExists
  | .doomed _ => throw B.alreadyExists

/-- `for attempt in range(5)`, from attempt `i` on. -/
def createLoop (new : TopicData Rec) : (attempts i : ℕ) → Script (TopicState Rec) ε PUnit
  | 0, i => modify (TopicState.settle (B.completes i))
  | attempts + 1, i => do
    modify (TopicState.settle (B.completes i))
    tryCatch (createTopics B new i) fun _ => createLoop new attempts (i + 1)

/-- `ensure_topic`. -/
def ensureTopic (numPartitions : ℕ := 1) (configs : Option (Dict String String) := none)
    (recreate : Bool := true) : Script (TopicState Rec) ε PUnit := do
  call B.admin
  if recreate then tryCatch (request B.deleteTopics TopicState.markDeleted) fun _ => pure ⟨⟩
  createLoop B ⟨numPartitions, configs.getD .empty, []⟩ 5 0
  call B.close

/-- The records of a topic. -/
def TopicState.records : TopicState Rec → List Rec
  | absent => []
  | live t => t.records
  | doomed t => t.records

/-- After the call the topic is there as requested, with none of the records it held before. -/
def Delivered (numPartitions : ℕ) (configs : Option (Dict String String)) (before after : TopicState Rec) : Prop :=
  ∃ t, after = .live t ∧ t.partitions = numPartitions ∧ t.configs = configs.getD .empty ∧
    ∀ r ∈ t.records, r ∉ before.records

/-- Some attempt is carried out. -/
def Created : Prop := ∃ k < 5, (B.createTopics k).effective = true

/-- Some attempt is carried out once the deletion is. -/
def CreatedAfterDeletion : Prop :=
  ∃ k < 5, (∃ j ≤ k, B.completes j = true) ∧ (B.createTopics k).effective = true

/-- The broker lets `ensure_topic` deliver. -/
def Delivers (numPartitions : ℕ) (configs : Option (Dict String String)) : TopicState Rec → Prop
  | .absent => Created B
  | .doomed _ => CreatedAfterDeletion B
  | .live t =>
    if B.deleteTopics.effective then CreatedAfterDeletion B
    else t.partitions = numPartitions ∧ t.configs = configs.getD .empty ∧ t.records = []

variable {B} {new t : TopicData Rec} {s s' : TopicState Rec} {numPartitions : ℕ}
  {configs : Option (Dict String String)} {u : PUnit}

variable (B new) in
theorem exec_createTopics_absent (i : ℕ) : Script.exec (createTopics B new i) .absent =
    ((B.createTopics i).answer, if (B.createTopics i).effective then .live new else .absent) := by
  unfold createTopics
  rw [exec_get_bind]
  exact exec_request (B.createTopics i) (fun _ => TopicState.live new) .absent

theorem createLoop_succ (n i : ℕ) (s : TopicState Rec) :
    Script.exec (createLoop B new (n + 1) i) s =
      Script.exec (tryCatch (createTopics B new i) fun _ => createLoop B new n (i + 1))
        (s.settle (B.completes i)) := by
  rw [createLoop, exec_modify_bind]

/-- **A topic that is there** is left as it is. -/
theorem createLoop_live : ∀ (n i : ℕ), Script.exec (createLoop B new n i) (.live t) = (.ok ⟨⟩, .live t) := by
  intro n
  induction n with
  | zero => intro i; rfl
  | succ n ih =>
    intro i
    have hbody : Script.exec (createTopics B new i) (.live t) = (.error B.alreadyExists, .live t) := rfl
    rw [createLoop_succ, TopicState.settle, exec_tryCatch_error hbody]
    exact ih (i + 1)

variable (B new) in
/-- **A topic that is not there** is created exactly when an attempt is carried out. -/
theorem createLoop_absent : ∀ (n i : ℕ), ∃ s', Script.exec (createLoop B new n i) .absent = (.ok ⟨⟩, s') ∧
    (s' = .live new ∨ s' = .absent) ∧
    (s' = .live new ↔ ∃ k, i ≤ k ∧ k < i + n ∧ (B.createTopics k).effective = true) := by
  intro n
  induction n with
  | zero =>
    intro i
    refine ⟨.absent, rfl, Or.inr rfl, iff_of_false (fun h => by cases h) ?_⟩
    rintro ⟨k, hi, hk, -⟩
    omega
  | succ n ih =>
    intro i
    have hbody := exec_createTopics_absent B new i
    rw [createLoop_succ, TopicState.settle, exists_from_succ]
    rcases hcreate : B.createTopics i with _ | e | e <;> rw [hcreate] at hbody
    · exact ⟨.live new, exec_tryCatch_ok hbody, Or.inl rfl, iff_of_true rfl (Or.inl rfl)⟩
    · rw [exec_tryCatch_error hbody]
      obtain ⟨s', hrun, hs', hlive⟩ := ih (i + 1)
      have hrefused : (Outcome.refused e).effective ≠ true := Bool.false_ne_true
      exact ⟨s', hrun, hs', hlive.trans (or_iff_right hrefused).symm⟩
    · -- carried out, though the caller does not know: the other attempts find it there
      rw [exec_tryCatch_error hbody]
      exact ⟨.live new, createLoop_live n (i + 1), Or.inl rfl, iff_of_true rfl (Or.inl rfl)⟩

variable (B new t) in
/-- **A topic that is being deleted** is created anew exactly when an attempt is carried out once
it is gone. -/
theorem createLoop_doomed : ∀ (n i : ℕ), ∃ s', Script.exec (createLoop B new n i) (.doomed t) = (.ok ⟨⟩, s') ∧
    (s' = .live new ∨ ∀ t', s' ≠ .live t') ∧
    (s' = .live new ↔ ∃ k, i ≤ k ∧ k < i + n ∧ (∃ j, i ≤ j ∧ j ≤ k ∧ B.completes j = true) ∧
      (B.createTopics k).effective = true) := by
  intro n
  induction n with
  | zero =>
    intro i
    have hnone : ∀ t', (TopicState.doomed t).settle (B.completes i) ≠ .live t' := by
      intro t'
      unfold TopicState.settle
      rcases B.completes i <;> simp
    refine ⟨(TopicState.doomed t).settle (B.completes i), rfl, Or.inr hnone, iff_of_false (hnone new) ?_⟩
    rintro ⟨k, hi, hk, -⟩
    omega
  | succ n ih =>
    intro i
    rcases hdone : B.completes i
    · -- still there: the attempt is refused
      have hbody : Script.exec (createTopics B new i) (.doomed t) = (.error B.alreadyExists, .doomed t) := rfl
      rw [createLoop_succ, hdone, TopicState.settle, if_neg Bool.false_ne_true, exec_tryCatch_error hbody]
      obtain ⟨s', hrun, hs', hlive⟩ := ih (i + 1)
      -- so the deletion is carried out later than this attempt
      have hlater : ∀ j, i ≤ j → B.completes j = true → i + 1 ≤ j := by
        intro j hj hcj
        rcases Nat.eq_or_lt_of_le hj with rfl | hlt
        · rw [hdone] at hcj
          cases hcj
        · exact hlt
      refine ⟨s', hrun, hs', hlive.trans ⟨?_, ?_⟩⟩
      · rintro ⟨k, hi, hk, ⟨j, hj, hjk, hcj⟩, he⟩
        exact ⟨k, by omega, by omega, ⟨j, by omega, hjk, hcj⟩, he⟩
      · rintro ⟨k, hi, hk, ⟨j, hj, hjk, hcj⟩, he⟩
        have hij : i + 1 ≤ j := hlater j hj hcj
        exact ⟨k, by omega, by omega, ⟨j, hij, hjk, hcj⟩, he⟩
    · -- gone: from here on it is a topic that is not there
      have hsame : Script.exec (createLoop B new (n + 1) i) (.doomed t) =
          Script.exec (createLoop B new (n + 1) i) .absent := by
        rw [createLoop_succ, createLoop_succ, hdone]
        rfl
      obtain ⟨s', hrun, hs', hlive⟩ := createLoop_absent B new (n + 1) i
      refine ⟨s', hsame.trans hrun, hs'.imp_right ?_, hlive.trans ⟨?_, ?_⟩⟩
      · rintro rfl t' h
        cases h
      · rintro ⟨k, hi, hk, he⟩
        exact ⟨k, hi, hk, ⟨i, Nat.le_refl i, hi, hdone⟩, he⟩
      · rintro ⟨k, hi, hk, -, he⟩
        exact ⟨k, hi, hk, he⟩

/-- The state after the deletion has been asked for. -/
theorem exec_delete (s : TopicState Rec) :
    Script.exec (tryCatch (request B.deleteTopics TopicState.markDeleted) fun _ => pure ⟨⟩ : Script _ ε PUnit) s =
      (.ok ⟨⟩, if B.deleteTopics.effective then s.markDeleted else s) := by
  have hrequest := exec_request B.deleteTopics TopicState.markDeleted s
  rcases hdelete : B.deleteTopics with _ | e | e <;> rw [hdelete] at hrequest
  · exact exec_tryCatch_ok hrequest
  · exact exec_tryCatch_error hrequest
  · exact exec_tryCatch_error hrequest

/-- A call that returns has run the loop on the topic as the deletion left it. -/
theorem exec_ensureTopic (h : Script.exec (ensureTopic B numPartitions configs true) s = (.ok ⟨⟩, s')) :
    Script.exec (createLoop B ⟨numPartitions, configs.getD .empty, []⟩ 5 0)
      (if B.deleteTopics.effective then s.markDeleted else s) = (.ok ⟨⟩, s') := by
  obtain ⟨_, -, hrest⟩ := exec_call_bind_eq_ok h
  rw [if_pos rfl, exec_bind_ok (exec_delete s)] at hrest
  obtain ⟨_, s₂, hloop, hclose⟩ := exec_bind_eq_ok hrest
  rw [exec_call] at hclose
  obtain rfl : s₂ = s' := congrArg Prod.snd hclose
  exact hloop

/-- A topic that was created anew is what was asked for. -/
theorem delivered_iff_new {before : TopicState Rec}
    (h : s' = .live ⟨numPartitions, configs.getD .empty, []⟩ ∨ ∀ t', s' ≠ .live t') :
    Delivered numPartitions configs before s' ↔ s' = .live ⟨numPartitions, configs.getD .empty, []⟩ := by
  constructor
  · rintro ⟨t', ht', -⟩
    exact h.resolve_right fun hnone => hnone t' ht'
  · intro hnew
    exact ⟨_, hnew, rfl, rfl, fun _ hr => absurd hr List.not_mem_nil⟩

theorem delivered_absent {before : TopicState Rec}
    (h : Script.exec (createLoop B ⟨numPartitions, configs.getD .empty, []⟩ 5 0) .absent = (.ok ⟨⟩, s')) :
    Delivered numPartitions configs before s' ↔ Created B := by
  obtain ⟨s'', hrun, hcase, hlive⟩ :=
    createLoop_absent B (⟨numPartitions, configs.getD .empty, []⟩ : TopicData Rec) 5 0
  obtain rfl : s' = s'' := congrArg Prod.snd (h.symm.trans hrun)
  have hnone : s' = .absent → ∀ t', s' ≠ .live t' := by
    rintro rfl t' h
    cases h
  rw [delivered_iff_new (hcase.imp_right hnone), hlive]
  unfold Created
  simp only [Nat.zero_le, true_and, Nat.zero_add]

theorem delivered_doomed {before : TopicState Rec}
    (h : Script.exec (createLoop B ⟨numPartitions, configs.getD .empty, []⟩ 5 0) (.doomed t) = (.ok ⟨⟩, s')) :
    Delivered numPartitions configs before s' ↔ CreatedAfterDeletion B := by
  obtain ⟨s'', hrun, hcase, hlive⟩ := createLoop_doomed B ⟨numPartitions, configs.getD .empty, []⟩ t 5 0
  obtain rfl : s' = s'' := congrArg Prod.snd (h.symm.trans hrun)
  rw [delivered_iff_new hcase, hlive]
  unfold CreatedAfterDeletion
  simp only [Nat.zero_le, true_and, Nat.zero_add]

/-- A topic that was left as it is. -/
theorem delivered_self : Delivered numPartitions configs (.live t) (.live t) ↔
    t.partitions = numPartitions ∧ t.configs = configs.getD .empty ∧ t.records = [] := by
  constructor
  · rintro ⟨t', ht', hp, hc, hr⟩
    cases ht'
    exact ⟨hp, hc, List.eq_nil_iff_forall_not_mem.2 fun r hmem => hr r hmem hmem⟩
  · rintro ⟨hp, hc, hr⟩
    exact ⟨t, rfl, hp, hc, fun r hmem => absurd hmem (hr ▸ List.not_mem_nil)⟩

/-- **When `ensure_topic(recreate=True)` delivers the topic it was asked for.** -/
theorem ensure_topic_iff (B : Broker ε) (numPartitions : ℕ) (configs : Option (Dict String String))
    (s s' : TopicState Rec) (h : Script.exec (ensureTopic B numPartitions configs true) s = (.ok ⟨⟩, s')) :
    Delivered numPartitions configs s s' ↔ Delivers B numPartitions configs s := by
  have hloop := exec_ensureTopic h
  -- the topic is absent, live or marked for deletion
  rcases s with _ | t | t
  · -- no topic, before and after the deletion
    have habsent : (if B.deleteTopics.effective then (TopicState.absent : TopicState Rec).markDeleted
        else .absent) = .absent := by
      split <;> rfl
    rw [habsent] at hloop
    exact delivered_absent hloop
  · dsimp only [Delivers]
    rcases hdelete : B.deleteTopics.effective
    · -- the deletion was refused: the old topic is still there
      rw [hdelete, if_neg Bool.false_ne_true, createLoop_live] at hloop
      obtain rfl : .live t = s' := congrArg Prod.snd hloop
      rw [if_neg Bool.false_ne_true]
      exact delivered_self
    · rw [hdelete, if_pos rfl] at hloop
      rw [if_pos rfl]
      exact delivered_doomed hloop
  · have hdoomed : (if B.deleteTopics.effective then (TopicState.doomed t).markDeleted else .doomed t) =
        .doomed t := by
      split <;> rfl
    rw [hdoomed] at hloop
    exact delivered_doomed hloop

/-- A broker that deletes within two attempts. -/
def prompt : Broker Unit where
  admin := .ok ⟨⟩
  deleteTopics := .done
  completes i := decide (i = 1)
  createTopics _ := .done
  alreadyExists := ()
  close := .ok ⟨⟩

/-- A topic of one partition with a record. -/
def oldTopic : TopicData String := ⟨1, .empty, ["stale"]⟩

/-- A topic that is recreated. -/
theorem ensure_topic_iff_prompt : Delivered 4 none (.live oldTopic) (.live ⟨4, .empty, []⟩) := by
  have hrun : Script.exec (ensureTopic prompt 4 none true) (.live oldTopic) = (.ok ⟨⟩, .live ⟨4, .empty, []⟩) := rfl
  exact (ensure_topic_iff prompt 4 none _ _ hrun).2 ⟨1, by decide, ⟨1, Nat.le_refl _, rfl⟩, rfl⟩

/-- A broker whose deletion takes longer than the five attempts. -/
def slow : Broker Unit where
  __ := prompt
  completes _ := false

/-- A broker that refuses the deletion. -/
def keeping : Broker Unit where
  __ := prompt
  deleteTopics := .refused ()

/-- **Calls that return without the topic**: the old one is still being deleted, or is still
there with its partition and its record. -/
theorem returns_without_topic :
    Script.exec (ensureTopic slow 4 none true) (.live oldTopic) = (.ok ⟨⟩, .doomed oldTopic) ∧
      Script.exec (ensureTopic keeping 4 none true) (.live oldTopic) = (.ok ⟨⟩, .live oldTopic) ∧
      ¬Delivered 4 none (.live oldTopic) (.live oldTopic) := by
  refine ⟨rfl, rfl, ?_⟩
  rintro ⟨t, ht, hp, -⟩
  cases ht
  exact absurd hp (by decide)

end SparkDev.Kafka
