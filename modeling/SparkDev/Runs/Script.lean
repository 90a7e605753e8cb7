/-!
# Computations on a state that may raise

A `Script` returns a value or raises an exception, and what it did to the state
before it raised stays done. `exec` runs it; the lemmas compute `exec` of a sequence
of steps, of `try … except` and of a call into code that is only known by its results.
-/

namespace SparkDev.Runs

/-- A computation on a state `σ` that may raise an exception `ε`. -/
abbrev Script (σ ε : Type) := ExceptT ε (StateM σ)

variable {σ ε α β : Type}

/-- What a script returns or raises, and the state after it. -/
def Script.exec (x : Script σ ε α) (s : σ) : Except ε α × σ := StateT.run (ExceptT.run x) s

/-- A call that returns or raises and leaves the state alone. -/
def call : Except ε α → Script σ ε α
  | .ok a => pure a
  | .error e => throw e

/-- What comes of a request that changes something: it is carried out, it is refused and
raises, or it is carried out and raises all the same, its answer being lost. -/
inductive Outcome (ε : Type) where
  | done
  | refused (e : ε)
  | lost (e : ε)
  deriving DecidableEq

/-- The request was carried out. -/
def Outcome.effective : Outcome ε → Bool
  | done => true
  | refused _ => false
  | lost _ => true

/-- What the caller sees of it. -/
def Outcome.answer : Outcome ε → Except ε PUnit
  | done => .ok ⟨⟩
  | refused e => .error e
  | lost e => .error e

/-- A request that does `g` to the state when it is carried out. -/
def request (r : Outcome ε) (g : σ → σ) : Script σ ε PUnit := do
  modify fun s => if r.effective then g s else s
  call r.answer

variable {x : Script σ ε α} {f : α → Script σ ε β} {s s' : σ} {a : α} {e : ε}

@[simp] theorem exec_pure (a : α) (s : σ) : Script.exec (pure a : Script σ ε α) s = (.ok a, s) := rfl

@[simp] theorem exec_modify (g : σ → σ) (s : σ) :
    Script.exec (modify g : Script σ ε PUnit) s = (.ok ⟨⟩, g s) := rfl

@[simp] theorem exec_call (r : Except ε α) (s : σ) : Script.exec (call r) s = (r, s) := by
  rcases r with e | a <;> rfl

@[simp] theorem exec_request (r : Outcome ε) (g : σ → σ) (s : σ) :
    Script.exec (request r g) s = (r.answer, if r.effective then g s else s) := by
  rcases r with _ | e | e <;> rfl

/-- The rest of a script runs from where its first step returned. -/
theorem exec_bind_ok (h : Script.exec x s = (.ok a, s')) :
    Script.exec (x >>= f) s = Script.exec (f a) s' := by
  unfold Script.exec at *
  rw [ExceptT.run_bind, StateT.run_bind, h]
  rfl

/-- When its first step raises so does the script. -/
theorem exec_bind_error (h : Script.exec x s = (.error e, s')) :
    Script.exec (x >>= f) s = (.error e, s') := by
  unfold Script.exec at *
  rw [ExceptT.run_bind, StateT.run_bind, h]
  rfl

@[simp] theorem exec_get (s : σ) : Script.exec (get : Script σ ε σ) s = (.ok s, s) := rfl

/-- A sequence that returned: so did its first step, and the rest from there. -/
theorem exec_bind_eq_ok {b : β} {s'' : σ} (h : Script.exec (x >>= f) s = (.ok b, s'')) :
    ∃ a s', Script.exec x s = (.ok a, s') ∧ Script.exec (f a) s' = (.ok b, s'') := by
  rcases hx : Script.exec x s with ⟨e | a, s'⟩
  · rw [exec_bind_error hx] at h
    cases congrArg Prod.fst h
  · rw [exec_bind_ok hx] at h
    exact ⟨a, s', rfl, h⟩

/-- A call that returned and left the state alone, and the rest. -/
theorem exec_call_bind_eq_ok {r : Except ε α} {b : β} (h : Script.exec (call r >>= f) s = (.ok b, s')) :
    ∃ a, r = .ok a ∧ Script.exec (f a) s = (.ok b, s') := by
  obtain ⟨a, s₁, hcall, hrest⟩ := exec_bind_eq_ok h
  rw [exec_call] at hcall
  obtain ⟨hr, rfl⟩ : r = .ok a ∧ s = s₁ := Prod.ext_iff.1 hcall
  exact ⟨a, hr, hrest⟩

theorem exec_modify_bind (g : σ → σ) (x : Script σ ε β) (s : σ) :
    Script.exec (do modify g; x) s = Script.exec x (g s) := exec_bind_ok (exec_modify g s)

theorem exec_get_bind (f : σ → Script σ ε β) (s : σ) :
    Script.exec (get >>= f) s = Script.exec (f s) s := exec_bind_ok (exec_get s)

/-- A sequence of calls that returned. -/
theorem ok_of_bind {r : Except ε α} {k : α → Except ε β} {b : β} (h : (r >>= k) = .ok b) :
    ∃ a, r = .ok a ∧ k a = .ok b := by
  rcases r with e | a
  · cases h
  · exact ⟨a, rfl, h⟩

variable {g : ε → Script σ ε α}

/-- A block with a handler, run from the state the block left. -/
theorem exec_tryCatch (x : Script σ ε α) (g : ε → Script σ ε α) (s : σ) : Script.exec (tryCatch x g) s =
    match Script.exec x s with
    | (.ok a, s') => (.ok a, s')
    | (.error e, s') => Script.exec (g e) s' := by
  unfold Script.exec
  simp only [tryCatch, tryCatchThe, MonadExceptOf.tryCatch, ExceptT.tryCatch, ExceptT.run_mk]
  rw [StateT.run_bind]
  change (StateT.run (ExceptT.run x) s >>= _) = _
  rcases StateT.run (ExceptT.run x) s with ⟨e | a, s'⟩ <;> rfl

/-- The handler does not run when the block returns. -/
theorem exec_tryCatch_ok (h : Script.exec x s = (.ok a, s')) :
    Script.exec (tryCatch x g) s = (.ok a, s') := by
  rw [exec_tryCatch, h]

/-- The handler runs from where the block raised. -/
theorem exec_tryCatch_error (h : Script.exec x s = (.error e, s')) :
    Script.exec (tryCatch x g) s = Script.exec (g e) s' := by
  rw [exec_tryCatch, h]

end SparkDev.Runs
