import SparkDev.Runs.Chain
import SparkDev.Runs.SameLast

/-!
# Emitting a log at least once

A log grows at its end. An emitter reads it in order and appends what an entry decodes
to, if anything, to a topic. Its position is kept in memory. What survives a restart is
the position it noted last, and the log is held from some earlier point on, before which
it may be recycled.

* `Emitter.OK`: the invariant of every run. The topic, continued by what was not emitted
  yet, has the same last records as the log, however often the emitter was restarted.
* `Emitter.OK.catchUp`: from every state the emitter can reach the end of the log.
-/

namespace SparkDev.Runs

/-- A log and its emitter. Positions count the entries before them. -/
structure Emitter (μ ν : Type*) where
  log : List μ
  /-- The entries before it are gone. -/
  recycled : ℕ
  /-- The log is held from here on. -/
  held : ℕ
  /-- Where a restarted emitter goes on. -/
  committed : ℕ
  /-- The next entry to emit. -/
  position : ℕ
  running : Bool
  topic : List ν

/-- What the emitter does, and what is done to it. -/
inductive EmitterAct where
  | emit
  | commit (n : ℕ)
  | confirm (n : ℕ)
  | recycle (n : ℕ)
  | pause
  | resume
  | restart

namespace Emitter

variable {μ ν : Type*} (decode : μ → Option ν)

/-- Entries written to the log. -/
def write (e : Emitter μ ν) (es : List μ) : Emitter μ ν := { e with log := e.log ++ es }

/-- What the log is still to be decoded to, from position `n`. -/
def rest (e : Emitter μ ν) (n : ℕ) : List ν := (e.log.drop n).filterMap decode

/-- A move of the emitter. Only a running one emits and makes progress durable. An entry has to
be there to be read. -/
inductive Move : Emitter μ ν → EmitterAct → Emitter μ ν → Prop where
  | emit {e : Emitter μ ν} {x : μ} (hrun : e.running = true) (hkept : e.recycled ≤ e.position)
      (hx : e.log[e.position]? = some x) :
      Move e .emit { e with position := e.position + 1, topic := e.topic ++ (decode x).toList }
  | commit {e : Emitter μ ν} {n : ℕ} (hrun : e.running = true) (hlo : e.committed ≤ n)
      (hhi : n ≤ e.position) : Move e (.commit n) { e with committed := n }
  | confirm {e : Emitter μ ν} {n : ℕ} (hrun : e.running = true) (hlo : e.held ≤ n)
      (hhi : n ≤ e.committed) : Move e (.confirm n) { e with held := n }
  | recycle {e : Emitter μ ν} {n : ℕ} (hlo : e.recycled ≤ n) (hhi : n ≤ e.held) :
      Move e (.recycle n) { e with recycled := n }
  | pause {e : Emitter μ ν} : Move e .pause { e with running := false }
  | resume {e : Emitter μ ν} : Move e .resume { e with running := true }
  | restart {e : Emitter μ ν} : Move e .restart { e with running := true, position := e.committed }

/-- The invariant. -/
structure OK (e : Emitter μ ν) : Prop where
  recycled_le : e.recycled ≤ e.held
  held_le : e.held ≤ e.committed
  committed_le : e.committed ≤ e.position
  position_le : e.position ≤ e.log.length
  topic : SameLast (e.topic ++ e.rest decode e.position) (e.log.filterMap decode)

/-- Everything was emitted. -/
def CaughtUp (e : Emitter μ ν) : Prop := e.position = e.log.length

/-- The log up to here was emitted, noted and released. -/
def start (l : List μ) : Emitter μ ν where
  log := l
  recycled := 0
  held := l.length
  committed := l.length
  position := l.length
  running := true
  topic := l.filterMap decode

variable {decode} {e e' : Emitter μ ν} {a : EmitterAct} {es : List μ} {m n : ℕ}

/-! ## What is still to be emitted -/

theorem rest_suffix : e.rest decode n <:+ e.log.filterMap decode :=
  (List.drop_suffix n e.log).filterMap decode

theorem rest_length : e.rest decode e.log.length = [] := by
  unfold rest
  rw [List.drop_length, List.filterMap_nil]

theorem rest_mono (h : m ≤ n) : ∀ x ∈ e.rest decode n, x ∈ e.rest decode m := by
  intro x hx
  obtain ⟨y, hy, hyx⟩ := List.mem_filterMap.1 hx
  exact List.mem_filterMap.2 ⟨y, List.drop_subset_drop_left e.log h hy, hyx⟩

theorem rest_write (h : n ≤ e.log.length) :
    (e.write es).rest decode n = e.rest decode n ++ es.filterMap decode := by
  unfold rest write
  rw [List.drop_append_of_le_length h, List.filterMap_append]

theorem rest_emit {x : μ} (h : e.log[n]? = some x) :
    e.rest decode n = (decode x).toList ++ e.rest decode (n + 1) := by
  obtain ⟨hn, hx⟩ := List.getElem?_eq_some_iff.1 h
  unfold rest
  rw [List.drop_eq_getElem_cons hn, hx, List.filterMap_cons]
  rcases decode x with _ | y
  · rfl
  · rfl

/-! ## The invariant -/

theorem start_ok (decode : μ → Option ν) (l : List μ) : (start decode l).OK decode where
  recycled_le := Nat.zero_le _
  held_le := Nat.le_refl _
  committed_le := Nat.le_refl _
  position_le := Nat.le_refl _
  topic := by
    have hrest : (start decode l).rest decode l.length = [] := rest_length
    show SameLast (l.filterMap decode ++ (start decode l).rest decode l.length) (l.filterMap decode)
    rw [hrest, List.append_nil]
    exact SameLast.refl _

/-- **The log grows.** -/
theorem OK.write (h : e.OK decode) (es : List μ) : (e.write es).OK decode where
  recycled_le := h.recycled_le
  held_le := h.held_le
  committed_le := h.committed_le
  position_le := by
    have hlen : (e.write es).log.length = e.log.length + es.length := List.length_append
    have hpos := h.position_le
    show e.position ≤ (e.write es).log.length
    omega
  topic := by
    show SameLast (e.topic ++ (e.write es).rest decode e.position) ((e.log ++ es).filterMap decode)
    rw [rest_write h.position_le, ← List.append_assoc, List.filterMap_append]
    exact h.topic.append_right _

/-- **One move.** A restart goes back to what was noted, and what is emitted again is still
to come in the log. -/
theorem OK.move (h : e.OK decode) (hm : Move decode e a e') : e'.OK decode := by
  have hrec := h.recycled_le
  have hheld := h.held_le
  have hcom := h.committed_le
  have hpos := h.position_le
  rcases hm with ⟨hrun, hkept, hx⟩ | ⟨hrun, hlo, hhi⟩ | ⟨hrun, hlo, hhi⟩ | ⟨hlo, hhi⟩ | _ | _ | _
  · obtain ⟨hn, -⟩ := List.getElem?_eq_some_iff.1 hx
    have htopic := h.topic
    rw [rest_emit hx, ← List.append_assoc] at htopic
    exact ⟨hrec, hheld, Nat.le_succ_of_le hcom, hn, htopic⟩
  · exact ⟨hrec, Nat.le_trans hheld hlo, hhi, hpos, h.topic⟩
  · exact ⟨Nat.le_trans hrec hlo, hhi, hcom, hpos, h.topic⟩
  · exact ⟨hhi, hheld, hcom, hpos, h.topic⟩
  · exact ⟨hrec, hheld, hcom, hpos, h.topic⟩
  · exact ⟨hrec, hheld, hcom, hpos, h.topic⟩
  · refine ⟨hrec, hheld, Nat.le_refl _, Nat.le_trans hcom hpos, ?_⟩
    have hback := h.topic.resume rest_suffix (rest_mono hcom) (u := []) fun x hx => absurd hx List.not_mem_nil
    rwa [List.append_nil] at hback

/-- **What a caught-up emitter has written.** -/
theorem OK.caughtUp (h : e.OK decode) (hc : e.CaughtUp) : SameLast e.topic (e.log.filterMap decode) := by
  have htopic := h.topic
  rw [hc, rest_length, List.append_nil] at htopic
  exact htopic

/-- The log is not changed by the emitter. -/
theorem Move.log (h : Move decode e a e') : e'.log = e.log := by
  cases h <;> rfl

/-- Nor is what was emitted. -/
theorem Move.topic_prefix (h : Move decode e a e') : e.topic <+: e'.topic := by
  rcases h with ⟨-, -, -⟩ | _ | _ | _ | _ | _ | _
  · exact List.prefix_append _ _
  all_goals exact List.prefix_refl _

/-! ## Catching up -/

/-- A running emitter can emit the rest of the log. -/
theorem OK.emitAll (h : e.OK decode) (hrun : e.running = true) :
    ∃ e', Reach (Move decode) e e' ∧ e'.CaughtUp := by
  obtain ⟨k, hk⟩ : ∃ k, k = e.log.length - e.position := ⟨_, rfl⟩
  induction k generalizing e with
  | zero =>
    have hpos := h.position_le
    refine ⟨e, reach_refl e, ?_⟩
    unfold CaughtUp
    omega
  | succ k ih =>
    have hlt : e.position < e.log.length := by omega
    -- the log is kept from before the position on, so the next entry can be read
    have hkept : e.recycled ≤ e.position := Nat.le_trans h.recycled_le (Nat.le_trans h.held_le h.committed_le)
    have hm : Move decode e .emit _ := Move.emit hrun hkept (List.getElem?_eq_getElem hlt)
    obtain ⟨e', hr, hc⟩ := ih (h.move hm) hrun (by
      show k = e.log.length - (e.position + 1)
      omega)
    exact ⟨e', (reach_step hm).trans hr, hc⟩

/-- **From every state the emitter can reach the end of the log.** -/
theorem OK.catchUp (h : e.OK decode) : ∃ e', Reach (Move decode) e e' ∧ e'.CaughtUp := by
  have hres : Move decode e .resume { e with running := true } := Move.resume
  obtain ⟨e', hr, hc⟩ := (h.move hres).emitAll rfl
  exact ⟨e', (reach_step hres).trans hr, hc⟩

end Emitter

end SparkDev.Runs
