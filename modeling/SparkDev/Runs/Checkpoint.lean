import Mathlib.Data.List.Basic
import SparkDev.Runs.Chain
import SparkDev.Runs.SameLast

/-!
# Reading a topic in checkpointed batches

A topic is in partitions, each in order and growing at its end. A reader notes the end
offsets of a batch, puts the records up to them to a sink, and then commits. Between
the note and the commit it may crash any number of times, and the same batch is put
again. A batch has the records of each partition in order; the partitions are mixed in
any way.

* `Reader.OK`: the invariant of every run. Partition by partition, what was put, continued
  by what was not, has the same last records as the topic; the batches put for the first
  time have the records once each, in order.
* `Reader.reach_drained`: from every state the reader can reach the end of the topic.
-/

namespace SparkDev.Runs

/-- A batch put to the sink, and whether the sink got it before. -/
structure Batch (μ : Type*) where
  again : Bool
  records : List μ

/-- What a reader keeps. A crash loses none of it. -/
structure Reader (μ π σ : Type*) where
  /-- The records of a partition before its offset are done. -/
  offset : π → ℕ
  /-- The end offsets of the batch that was started. -/
  planned : Option (π → ℕ)
  /-- The sink got that batch. -/
  done : Bool
  /-- Every batch put so far, with what the sink was then. -/
  puts : List (Batch μ × σ)

/-- A step of a reader. -/
inductive ReaderAct (μ π : Type*) where
  | plan (hi : π → ℕ)
  | put (b : Batch μ)
  | commit

section Partition

variable {μ π : Type*} [DecidableEq π] (part : μ → π)

/-- The records of a partition. -/
def onPart (p : π) (l : List μ) : List μ := l.filter fun x => decide (part x = p)

theorem onPart_append (p : π) (a b : List μ) : onPart part p (a ++ b) = onPart part p a ++ onPart part p b :=
  List.filter_append ..

theorem mem_onPart {p : π} {l : List μ} {x : μ} : x ∈ onPart part p l ↔ x ∈ l ∧ part x = p := by
  unfold onPart
  rw [List.mem_filter, decide_eq_true_eq]

/-- Two lists with the same last records have them in every partition. -/
theorem SameLast.onPart {a b : List μ} (h : SameLast a b) (p : π) :
    SameLast (onPart part p a) (onPart part p b) := by
  intro q
  unfold Runs.onPart
  rw [List.filter_filter, List.filter_filter]
  exact h _

theorem onPart_cons (p : π) (x : μ) (l : List μ) :
    onPart part p (x :: l) = if part x = p then x :: onPart part p l else onPart part p l := by
  unfold onPart
  by_cases h : part x = p
  · rw [if_pos h]
    exact List.filter_cons_of_pos (by simpa using h)
  · rw [if_neg h]
    exact List.filter_cons_of_neg (by simpa using h)

/-- A slice of every partition, in one list. -/
theorem exists_slice (l : List μ) : ∀ lo hi : π → ℕ,
    ∃ b, ∀ p, onPart part p b = ((onPart part p l).take (hi p)).drop (lo p) := by
  induction l with
  | nil => exact fun lo hi => ⟨[], fun p => by simp [onPart]⟩
  | cons x l ih =>
    intro lo hi
    -- `x` is past the end, in the slice or before the start of its partition
    rcases hhi : hi (part x) with _ | m
    · obtain ⟨b, hb⟩ := ih lo hi
      refine ⟨b, fun p => ?_⟩
      rw [hb, onPart_cons]
      split
      · rename_i h
        rw [← h, hhi, List.take_zero, List.take_zero]
      · rfl
    · rcases hlo : lo (part x) with _ | n
      · obtain ⟨b, hb⟩ := ih lo (Function.update hi (part x) m)
        refine ⟨x :: b, fun p => ?_⟩
        rw [onPart_cons, onPart_cons, hb]
        split
        · rename_i h
          rw [← h, hhi, hlo, Function.update_self, List.take_succ_cons, List.drop_zero, List.drop_zero]
        · rename_i h
          rw [Function.update_of_ne (Ne.symm h)]
      · obtain ⟨b, hb⟩ := ih (Function.update lo (part x) n) (Function.update hi (part x) m)
        refine ⟨b, fun p => ?_⟩
        rw [hb, onPart_cons]
        split
        · rename_i h
          rw [← h, hhi, hlo, Function.update_self, Function.update_self, List.take_succ_cons,
            List.drop_succ_cons]
        · rename_i h
          rw [Function.update_of_ne (Ne.symm h), Function.update_of_ne (Ne.symm h)]

/-- Records of one kind that are all in one partition: the last of them is the last there. -/
theorem getLast?_of_onPart {a b : List μ} (h : ∀ p, SameLast (onPart part p a) (onPart part p b))
    {q : μ → Bool} (hq : ∀ x y, q x = true → q y = true → part x = part y) :
    (a.filter q).getLast? = (b.filter q).getLast? := by
  have hmem : ∀ {u v : List μ} {x : μ}, (∀ p, SameLast (onPart part p u) (onPart part p v)) → x ∈ u →
      x ∈ v := by
    intro u v x huv hx
    have hx' : x ∈ onPart part (part x) u := (mem_onPart part).2 ⟨hx, rfl⟩
    exact ((mem_onPart part).1 ((huv (part x)).mem_iff.1 hx')).1
  have hnone : ∀ {u v : List μ}, (∀ x ∈ v, x ∈ u) → u.filter q = [] → v.filter q = [] := by
    intro u v hvu hu
    rw [List.filter_eq_nil_iff] at hu ⊢
    exact fun x hx => hu x (hvu x hx)
  -- with no record of the kind in one of them there is none in the other
  rcases hb : b.filter q with _ | ⟨x, rest⟩
  · rw [hnone (fun x hx => hmem h hx) hb]
  · -- the records of the kind are those in the partition of `x`
    have hx : q x = true := (List.mem_filter.1 (hb ▸ List.mem_cons_self)).2
    have hone : ∀ l : List μ, l.filter q = (onPart part (part x) l).filter q := by
      intro l
      unfold onPart
      rw [List.filter_filter]
      refine List.filter_congr fun y _ => ?_
      by_cases hy : q y = true
      · rw [hy, decide_eq_true (hq y x hy hx), Bool.and_true]
      · rw [Bool.not_eq_true] at hy
        rw [hy, Bool.false_and]
    rw [← hb, hone a, hone b, h (part x)]

end Partition

namespace Reader

variable {μ π σ : Type*}

/-- The records put so far. -/
def records (puts : List (Batch μ × σ)) : List μ := puts.flatMap fun x => x.1.records

/-- The batches that the sink got for the first time. -/
def firsts (puts : List (Batch μ × σ)) : List (Batch μ × σ) := puts.filter fun x => !x.1.again

/-- How far the sink is in a partition. -/
def reached (s : Reader μ π σ) (p : π) : ℕ :=
  match s.planned, s.done with
  | some hi, true => hi p
  | _, _ => s.offset p

/-- Nothing read, nothing put. -/
def start (μ π σ : Type*) : Reader μ π σ := ⟨fun _ => 0, none, false, []⟩

variable {s t : Reader μ π σ} {p : π}

theorem reached_planned {hi : π → ℕ} (hsome : s.planned = some hi) (hdone : s.done = true) :
    s.reached p = hi p := by
  unfold reached
  rw [hsome, hdone]

theorem reached_undone (h : s.done = false) : s.reached p = s.offset p := by
  unfold reached
  rw [h]
  rcases s.planned with _ | hi
  · rfl
  · rfl

theorem reached_unplanned (h : s.planned = none) : s.reached p = s.offset p := by
  unfold reached
  rw [h]

variable [DecidableEq π] (part : μ → π) (Put : σ → Batch μ → σ → Prop) (init : σ) (topic : List μ)

/-- The steps over a topic. -/
inductive Step : Reader μ π σ → ReaderAct μ π → Reader μ π σ → Prop where
  | plan {s : Reader μ π σ} {hi : π → ℕ} (hnone : s.planned = none)
      (hhi : ∀ p, s.offset p ≤ hi p ∧ hi p ≤ (onPart part p topic).length) :
      Step s (.plan hi) { s with planned := some hi, done := false }
  | put {s : Reader μ π σ} {hi : π → ℕ} {b : Batch μ} {t : σ} (hsome : s.planned = some hi)
      (hagain : b.again = s.done)
      (hb : ∀ p, onPart part p b.records = ((onPart part p topic).take (hi p)).drop (s.offset p))
      (hput : Put (final init s.puts) b t) :
      Step s (.put b) { s with done := true, puts := s.puts ++ [(b, t)] }
  | commit {s : Reader μ π σ} {hi : π → ℕ} (hsome : s.planned = some hi) (hdone : s.done = true) :
      Step s .commit { s with offset := hi, planned := none, done := false }

/-- The invariant. -/
structure OK (s : Reader μ π σ) : Prop where
  offset_le : ∀ p, s.offset p ≤ (onPart part p topic).length
  planned_le : ∀ hi, s.planned = some hi → ∀ p, s.offset p ≤ hi p ∧ hi p ≤ (onPart part p topic).length
  delivered : ∀ p, SameLast (onPart part p (records s.puts) ++ (onPart part p topic).drop (s.reached p))
    (onPart part p topic)
  exact : ∀ p, onPart part p (records (firsts s.puts)) = (onPart part p topic).take (s.reached p)
  chain : Chain Put init s.puts

/-- The whole topic is done. -/
def Drained (s : Reader μ π σ) : Prop :=
  s.planned = none ∧ ∀ p, s.offset p = (onPart part p topic).length

variable {part Put init topic} {a : ReaderAct μ π}

theorem OK.reached_le (h : s.OK part Put init topic) (p : π) :
    s.offset p ≤ s.reached p ∧ s.reached p ≤ (onPart part p topic).length := by
  rcases hd : s.done
  · rw [reached_undone hd]
    exact ⟨Nat.le_refl _, h.offset_le p⟩
  · rcases hp : s.planned with _ | hi
    · rw [reached_unplanned hp]
      exact ⟨Nat.le_refl _, h.offset_le p⟩
    · rw [reached_planned hp hd]
      exact h.planned_le hi hp p

theorem records_append (l l' : List (Batch μ × σ)) : records (l ++ l') = records l ++ records l' :=
  List.flatMap_append ..

theorem records_singleton (x : Batch μ × σ) : records [x] = x.1.records := by
  unfold records
  rw [List.flatMap_singleton]

/-! ## The invariant -/

theorem start_ok : (start μ π σ).OK part Put init topic where
  offset_le _ := Nat.zero_le _
  planned_le := by rintro hi ⟨⟩
  delivered _ := SameLast.refl _
  exact _ := rfl
  chain := trivial

/-- **The topic grows.** -/
theorem OK.grow (h : s.OK part Put init topic) (new : List μ) : s.OK part Put init (topic ++ new) where
  offset_le p := by
    have hle := h.offset_le p
    rw [onPart_append, List.length_append]
    omega
  planned_le hi hsome p := by
    obtain ⟨hlo, hhi⟩ := h.planned_le hi hsome p
    rw [onPart_append, List.length_append]
    omega
  delivered p := by
    have hle := (h.reached_le p).2
    rw [onPart_append, List.drop_append_of_le_length hle, ← List.append_assoc]
    exact (h.delivered p).append_right _
  exact p := by
    have hle := (h.reached_le p).2
    rw [onPart_append, List.take_append_of_le_length hle]
    exact h.exact p
  chain := h.chain

/-- A batch that is put, maybe again. -/
theorem OK.put {hi : π → ℕ} {b : Batch μ} {u : σ} (h : s.OK part Put init topic)
    (hsome : s.planned = some hi) (hagain : b.again = s.done)
    (hb : ∀ p, onPart part p b.records = ((onPart part p topic).take (hi p)).drop (s.offset p))
    (hput : Put (final init s.puts) b u) :
    OK part Put init topic { s with done := true, puts := s.puts ++ [(b, u)] } where
  offset_le := h.offset_le
  planned_le := h.planned_le
  delivered p := by
    obtain ⟨hlo, hhi⟩ := h.planned_le hi hsome p
    have hreach : reached { s with done := true, puts := s.puts ++ [(b, u)] } p = hi p :=
      reached_planned hsome rfl
    -- the batch starts at the offset, where the sink may have been already
    have hback := (h.delivered p).rewind (h.reached_le p).1
    have hcut : (onPart part p topic).drop (s.offset p) =
        onPart part p b.records ++ (onPart part p topic).drop (hi p) := by
      have hdrop : (onPart part p topic).drop (hi p) =
          ((onPart part p topic).drop (s.offset p)).drop (hi p - s.offset p) := by
        rw [List.drop_drop, Nat.add_sub_cancel' hlo]
      rw [hb p, hdrop, List.drop_take, List.take_append_drop]
    rw [hcut, ← List.append_assoc] at hback
    rw [hreach, records_append, records_singleton, onPart_append]
    exact hback
  exact p := by
    obtain ⟨hlo, hhi⟩ := h.planned_le hi hsome p
    have hreach : reached { s with done := true, puts := s.puts ++ [(b, u)] } p = hi p :=
      reached_planned hsome rfl
    have hold := h.exact p
    rw [hreach]
    show onPart part p (records (firsts (s.puts ++ [(b, u)]))) = _
    unfold firsts at hold ⊢
    rw [List.filter_append]
    rcases hd : s.done
    · -- for the first time
      have hfirst : [(b, u)].filter (fun x : Batch μ × σ => !x.1.again) = [(b, u)] := by
        simp [hagain, hd]
      have htake : (onPart part p topic).take (s.offset p) =
          ((onPart part p topic).take (hi p)).take (s.offset p) := by
        rw [List.take_take, Nat.min_eq_left hlo]
      rw [reached_undone hd] at hold
      rw [hfirst, records_append, records_singleton, onPart_append, hold, hb p, htake,
        List.take_append_drop]
    · have hagain' : [(b, u)].filter (fun x : Batch μ × σ => !x.1.again) = [] := by
        simp [hagain, hd]
      rw [reached_planned hsome hd] at hold
      rw [hagain', List.append_nil, hold]
  chain := (chain_append s.puts init).2 ⟨h.chain, hput, trivial⟩

/-- **One step.** -/
theorem OK.step (h : s.OK part Put init topic) (hs : Step part Put init topic s a t) :
    t.OK part Put init topic := by
  rcases hs with ⟨hnone, hhi⟩ | ⟨hsome, hagain, hb, hput⟩ | ⟨hsome, hdone⟩
  · refine ⟨h.offset_le, ?_, fun p => ?_, fun p => ?_, h.chain⟩
    · rintro _ ⟨⟩
      exact hhi
    · have hold := h.delivered p
      rw [reached_unplanned hnone] at hold
      exact hold
    · have hold := h.exact p
      rw [reached_unplanned hnone] at hold
      exact hold
  · exact h.put hsome hagain hb hput
  · refine ⟨fun p => (h.planned_le _ hsome p).2, ?_, fun p => ?_, fun p => ?_, h.chain⟩
    · rintro _ ⟨⟩
    · have hold := h.delivered p
      rw [reached_planned hsome hdone] at hold
      exact hold
    · have hold := h.exact p
      rw [reached_planned hsome hdone] at hold
      exact hold

theorem reach_ok (h : s.OK part Put init topic) (hr : Reach (Step part Put init topic) s t) :
    t.OK part Put init topic :=
  reach_invariant (fun _ _ _ hs hst => hs.step hst) h hr

/-! ## At the end of the topic -/

/-- **What the sink got**: the records of each partition, the last ones last. -/
theorem OK.drained_delivered (h : s.OK part Put init topic) (hd : Drained part topic s) (p : π) :
    SameLast (onPart part p (records s.puts)) (onPart part p topic) := by
  have hold := h.delivered p
  rw [reached_unplanned hd.1, hd.2 p, List.drop_length, List.append_nil] at hold
  exact hold

/-- The sink got nothing but records of the topic. -/
theorem OK.mem_records (h : s.OK part Put init topic) {x : μ} (hx : x ∈ records s.puts) : x ∈ topic := by
  have hpart : x ∈ onPart part (part x) (records s.puts) := (mem_onPart part).2 ⟨hx, rfl⟩
  have hmem := (h.delivered (part x)).mem_iff.1 (List.mem_append_left _ hpart)
  exact ((mem_onPart part).1 hmem).1

/-- A started batch can be put and committed. -/
theorem finish {hi : π → ℕ} (hsome : s.planned = some hi) (htotal : ∀ u b, ∃ v, Put u b v) :
    ∃ t, Reach (Step part Put init topic) s t ∧ t.planned = none ∧ t.offset = hi := by
  obtain ⟨recs, hrecs⟩ := exists_slice part topic s.offset hi
  obtain ⟨u, hu⟩ := htotal (final init s.puts) ⟨s.done, recs⟩
  have hput : Step part Put init topic s (.put ⟨s.done, recs⟩)
      { s with done := true, puts := s.puts ++ [(⟨s.done, recs⟩, u)] } := Step.put hsome rfl hrecs hu
  have hcommit : Step part Put init topic { s with done := true, puts := s.puts ++ [(⟨s.done, recs⟩, u)] }
      .commit _ := Step.commit hsome rfl
  exact ⟨_, (reach_step hput).trans (reach_step hcommit), rfl, rfl⟩

/-- **From every state the reader can reach the end of the topic.** -/
theorem OK.reach_drained (h : s.OK part Put init topic) (htotal : ∀ u b, ∃ v, Put u b v) :
    ∃ t, Reach (Step part Put init topic) s t ∧ Drained part topic t := by
  obtain ⟨u, hsu, hu⟩ : ∃ u, Reach (Step part Put init topic) s u ∧ u.planned = none := by
    rcases hp : s.planned with _ | hi
    · exact ⟨s, reach_refl s, hp⟩
    · obtain ⟨u, hsu, hu, -⟩ := finish hp htotal
      exact ⟨u, hsu, hu⟩
  have hok := reach_ok h hsu
  -- one more batch, to the end of every partition
  have hplan : Step part Put init topic u (.plan fun p => (onPart part p topic).length) _ :=
    Step.plan hu fun p => ⟨hok.offset_le p, Nat.le_refl _⟩
  obtain ⟨t, hut, hnone, hoff⟩ : ∃ t, Reach (Step part Put init topic)
      { u with planned := some fun p => (onPart part p topic).length, done := false } t ∧
        t.planned = none ∧ t.offset = fun p => (onPart part p topic).length := finish rfl htotal
  exact ⟨t, hsu.trans ((reach_step hplan).trans hut), hnone, fun p => by rw [hoff]⟩

end Reader

end SparkDev.Runs
