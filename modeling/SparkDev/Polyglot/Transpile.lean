import SparkDev.Polyglot.Fixups
import SparkDev.Runs.Script

/-!
# The compile patch

`patched` wraps `Compiler._compile_code`: it reads the two config values, and when
the source dialect is set and is not the target it replaces the node's compiled
code by the output of `sparkSafeTranspile`. Anything that raises on the way is
caught, logged, and leaves the node as the compiler made it.

* `attempt_cases`: every outcome of the `try` block.
* `patched_failsoft`: the patched compiler never raises, and the code of its node is
  the compiler's or the complete output of `sparkSafeTranspile`.
* `transpile_applies_fixups`: for Spark the generator gets the tree after all fix-ups.
-/

namespace SparkDev.Polyglot

open Trees Runs

/-- An exception: the name of its type and its text. -/
structure Exc where
  type : String
  text : String
  deriving DecidableEq, Repr

/-- Config values that are neither missing nor strings: their truth, `==` and `str`. -/
class PyObject (β : Type) where
  truthy : β → Bool
  eq : β → β → Bool
  str : β → String

/-- A config value. -/
inductive Value (β : Type) where
  | none
  | str (s : String)
  | obj (b : β)

namespace Value

variable {β : Type} [PyObject β]

/-- `bool(v)`. -/
def truthy : Value β → Bool
  | none => false
  | str s => decide (s ≠ "")
  | obj b => PyObject.truthy b

/-- `v == w`. -/
def eq : Value β → Value β → Bool
  | none, none => true
  | str s, str t => decide (s = t)
  | obj b, obj c => PyObject.eq b c
  | _, _ => false

/-- `v or w`. -/
def or (v w : Value β) : Value β := if v.truthy then v else w

/-- `str(v)`. -/
def format : Value β → String
  | none => "None"
  | str s => s
  | obj b => PyObject.str b

end Value

variable {β ι ρ : Type} [PyObject β]

/-- `_DEFAULT_TARGET`. -/
def defaultTarget : Value β := .str "spark"

/-- What the patch uses of sqlglot, and the registry: `fixups` are the calls
`tree.transform(fixup)`. Every one of them may raise. -/
structure Env (β : Type) where
  parse : String → Value β → Except Exc (List (Option Exp))
  fixups : List (Exp → Except Exc Exp)
  sql : Exp → Value β → Except Exc (Option String)

/-- What the patch uses of a dbt node; `rest` are its other attributes. -/
structure Node (β ρ : Type) where
  uniqueId : Option String
  config : String → Except Exc (Value β)
  compiledCode : Option String
  rest : ρ

/-- The local variables of the patch, with a record of the calls to `sqlglot.parse` and of
the warnings. -/
structure Frame (β : Type) where
  src : Value β
  dst : Value β
  parsed : List (String × Value β)
  warnings : List String

/-- `src = dst = None`, before any call. -/
def Frame.start : Frame β := ⟨.none, .none, [], []⟩

/-- A computation that may raise; what it did to the frame before stays done. -/
abbrev M (β : Type) := Script (Frame β) Exc

/-- `str.isspace` of one character. -/
def isSpace (c : Char) : Bool :=
  let n := c.toNat
  decide (9 ≤ n ∧ n ≤ 13 ∨ 28 ≤ n ∧ n ≤ 32 ∨ n = 133 ∨ n = 160 ∨ n = 5760 ∨ 8192 ≤ n ∧ n ≤ 8202 ∨
    n = 8232 ∨ n = 8233 ∨ n = 8239 ∨ n = 8287 ∨ n = 12288)

/-- `not s.strip()`. -/
def isBlank (s : String) : Bool := s.toList.all isSpace

/-- `sqlglot.parse`. -/
def parse (env : Env β) (code : String) (src : Value β) : M β (List (Option Exp)) := do
  modify fun fr => { fr with parsed := fr.parsed ++ [(code, src)] }
  call (env.parse code src)

/-- The one statement there has to be. -/
def oneStatement : List (Option Exp) → Except Exc Exp
  | [some tree] => .ok tree
  | statements =>
    .error ⟨"ValueError", s!"expected exactly one statement, got {statements.length}"⟩

/-- `for fixup in SPARK_FIXUPS: tree = tree.transform(fixup)`, for Spark only. -/
def fixed (env : Env β) (tree : Exp) (dst : Value β) : Except Exc Exp :=
  if dst.eq defaultTarget then env.fixups.foldlM (fun tree fixup => fixup tree) tree else .ok tree

/-- The SQL of the tree, which must not be blank. -/
def generate (env : Env β) (tree : Exp) (dst : Value β) : Except Exc String := do
  let out ← env.sql tree dst
  if isBlank (out.getD "") then throw ⟨"ValueError", "transpile produced empty SQL"⟩
  return out.getD ""

/-- `spark_safe_transpile`. -/
def sparkSafeTranspile (env : Env β) (code : String) (src dst : Value β) : M β String := do
  let dst := dst.or defaultTarget
  let statements ← parse env code src
  let tree ← call (oneStatement statements)
  let tree ← call (fixed env tree dst)
  call (generate env tree dst)

/-- The `try` block of `_patched`. -/
def attempt (env : Env β) (node : Node β ρ) : M β (Node β ρ) := do
  let src ← call (node.config "transpile_from")
  modify fun fr => { fr with src := src }
  let target ← call (node.config "transpile_to")
  let dst := target.or defaultTarget
  modify fun fr => { fr with dst := dst }
  -- not opted in, or the same dialect: nothing is parsed
  if !src.truthy || src.eq dst then return node
  let out ← sparkSafeTranspile env (node.compiledCode.getD "") src dst
  return { node with compiledCode := some out }

/-- The text of the warning. -/
def warning (node : Node β ρ) (fr : Frame β) (e : Exc) : String :=
  let uid := node.uniqueId.getD "<unknown>"
  let src := fr.src.format
  let dst := (fr.dst.or defaultTarget).format
  "[ dbt-polyglot ] could not transpile " ++ uid ++ " from '" ++ src ++ "' -> '" ++ dst ++ "' (" ++
    e.type ++ ": " ++ e.text ++ "); passing model SQL through UNCHANGED."

/-- `_patched`: `orig` is the compiler it wraps. -/
def patched (env : Env β) (orig : ι → Node β ρ) (args : ι) : M β (Node β ρ) :=
  let node := orig args
  tryCatch (attempt env node) fun e => do
    modify fun fr => { fr with warnings := fr.warnings ++ [warning node fr e] }
    return node

/-! ## What the stages do -/

section Parse

omit [PyObject β]

variable {env : Env β} {code : String} {src : Value β} {fr : Frame β} {α : Type}
  {f : List (Option Exp) → M β α}

/-- The frame once a call of `sqlglot.parse` is recorded. -/
def Frame.logParse (fr : Frame β) (code : String) (src : Value β) : Frame β :=
  { fr with parsed := fr.parsed ++ [(code, src)] }

theorem exec_parse : Script.exec (parse env code src) fr = (env.parse code src, fr.logParse code src) := by
  unfold parse
  rw [exec_bind_ok (exec_modify _ _), exec_call]
  rfl

theorem exec_parse_error {e : Exc} (h : env.parse code src = .error e) :
    Script.exec (parse env code src >>= f) fr = (.error e, fr.logParse code src) :=
  exec_bind_error (exec_parse.trans (by rw [h]))

theorem exec_parse_ok {statements : List (Option Exp)} (h : env.parse code src = .ok statements) :
    Script.exec (parse env code src >>= f) fr = Script.exec (f statements) (fr.logParse code src) :=
  exec_bind_ok (exec_parse.trans (by rw [h]))

end Parse

variable {env : Env β} {node : Node β ρ} {code out : String} {src dst target : Value β} {fr : Frame β}
  {tree : Exp}

omit [PyObject β] in
/-- Nothing blank is returned. -/
theorem generate_ok (h : generate env tree dst = .ok out) : isBlank out = false := by
  obtain ⟨o, -, h⟩ := ok_of_bind h
  by_cases hb : isBlank (o.getD "") = true
  · rw [if_pos hb] at h
    cases h
  · rw [if_neg hb] at h
    cases h
    exact Bool.eq_false_iff.2 hb

/-- What `spark_safe_transpile` returns or raises. -/
def transpiled (env : Env β) (code : String) (src dst : Value β) : Except Exc String := do
  let statements ← env.parse code src
  let tree ← oneStatement statements
  let tree ← fixed env tree (dst.or defaultTarget)
  generate env tree (dst.or defaultTarget)

/-- One parse is recorded, and nothing else is done to the frame. -/
theorem exec_transpile : Script.exec (sparkSafeTranspile env code src dst) fr =
    (transpiled env code src dst, fr.logParse code src) := by
  unfold sparkSafeTranspile transpiled
  rcases hp : env.parse code src with e | statements
  · exact exec_parse_error hp
  rw [exec_parse_ok hp]
  change _ = (oneStatement statements >>= fun tree => _, _)
  rcases oneStatement statements with e | tree
  · exact exec_bind_error (exec_call _ _)
  rw [exec_bind_ok (exec_call _ _)]
  change _ = (fixed env tree _ >>= fun tree => _, _)
  rcases fixed env tree (dst.or defaultTarget) with e | tree
  · exact exec_bind_error (exec_call _ _)
  rw [exec_bind_ok (exec_call _ _), exec_call]
  rfl

theorem transpiled_ok (h : transpiled env code src dst = .ok out) : isBlank out = false := by
  obtain ⟨statements, -, h⟩ := ok_of_bind h
  obtain ⟨tree, -, h⟩ := ok_of_bind h
  obtain ⟨tree, -, h⟩ := ok_of_bind h
  exact generate_ok h

/-- **Every outcome of the `try` block.** Either nothing was parsed, and the node is returned
as it is or an exception is raised, or the model is opted in and the outcome is that of
`spark_safe_transpile`. -/
theorem attempt_cases (env : Env β) (node : Node β ρ) (fr : Frame β) :
    (∃ r fr', Script.exec (attempt env node) fr = (r, fr') ∧ fr'.parsed = fr.parsed ∧
      (r = .ok node ∨ ∃ e, r = .error e)) ∨
    (∃ src target fr', node.config "transpile_from" = .ok src ∧
      node.config "transpile_to" = .ok target ∧ src.truthy = true ∧
      src.eq (target.or defaultTarget) = false ∧
      Script.exec (attempt env node) fr =
        ((transpiled env (node.compiledCode.getD "") src (target.or defaultTarget)).map
          fun out => { node with compiledCode := some out }, fr')) := by
  unfold attempt
  -- the attempt stops at the first exception, then at a no-op, then in sqlglot
  rcases hsrc : node.config "transpile_from" with e | src
  · exact Or.inl ⟨_, _, exec_bind_error (exec_call _ _), rfl, Or.inr ⟨e, rfl⟩⟩
  rw [exec_bind_ok (exec_call _ _), exec_bind_ok (exec_modify _ _)]
  rcases htgt : node.config "transpile_to" with e | target
  · exact Or.inl ⟨_, _, exec_bind_error (exec_call _ _), rfl, Or.inr ⟨e, rfl⟩⟩
  rw [exec_bind_ok (exec_call _ _), exec_bind_ok (exec_modify _ _)]
  by_cases hno : (!src.truthy || src.eq (target.or defaultTarget)) = true
  · rw [if_pos hno]
    exact Or.inl ⟨_, _, exec_pure _ _, rfl, Or.inl rfl⟩
  · rw [if_neg hno]
    rw [Bool.not_eq_true, Bool.or_eq_false_iff, Bool.not_eq_false'] at hno
    refine Or.inr ⟨src, target, ?_, rfl, rfl, hno.1, hno.2, ?_⟩
    · exact Frame.logParse ⟨src, target.or defaultTarget, fr.parsed, fr.warnings⟩
        (node.compiledCode.getD "") src
    · rcases ht : transpiled env (node.compiledCode.getD "") src (target.or defaultTarget) with e | out
      · exact exec_bind_error (exec_transpile.trans (by rw [ht]))
      · exact (exec_bind_ok (exec_transpile.trans (by rw [ht]))).trans (exec_pure _ _)

/-- **The patch is fail-soft and atomic.** Whatever raises, the patched compiler returns the
node of the compiler, with its code or with the complete output of `spark_safe_transpile`,
which is not blank. When the source dialect is unset or is the target, the code is the
compiler's and nothing was parsed. -/
theorem patched_failsoft (env : Env β) (orig : ι → Node β ρ) (args : ι) :
    ∃ code fr, Script.exec (patched env orig args) .start =
        (.ok { orig args with compiledCode := code }, fr) ∧
      (code = (orig args).compiledCode ∨
        ∃ src target out fr', (orig args).config "transpile_from" = .ok src ∧
          (orig args).config "transpile_to" = .ok target ∧
          Script.exec (sparkSafeTranspile env ((orig args).compiledCode.getD "") src
            (target.or defaultTarget)) .start = (.ok out, fr') ∧
          isBlank out = false ∧ code = some out) ∧
      (∀ src, (orig args).config "transpile_from" = .ok src → src.truthy = false →
        code = (orig args).compiledCode ∧ fr.parsed = []) ∧
      (∀ src target, (orig args).config "transpile_from" = .ok src →
        (orig args).config "transpile_to" = .ok target → src.eq (target.or defaultTarget) = true →
        code = (orig args).compiledCode ∧ fr.parsed = []) := by
  unfold patched
  rcases attempt_cases env (orig args) .start with ⟨r, fr', hr, hp, hcase⟩ |
    ⟨src, target, fr', hsrc, htgt, htrue, hne, hr⟩
  · -- nothing was parsed, and the node is as it was
    refine ⟨(orig args).compiledCode, ?_⟩
    rcases hcase with rfl | ⟨e, rfl⟩
    · refine ⟨fr', exec_tryCatch_ok hr, Or.inl rfl, fun _ _ _ => ⟨rfl, hp⟩, fun _ _ _ _ _ => ⟨rfl, hp⟩⟩
    · refine ⟨_, (exec_tryCatch_error hr).trans (exec_bind_ok (exec_modify _ _)), Or.inl rfl,
        fun _ _ _ => ⟨rfl, hp⟩, fun _ _ _ _ _ => ⟨rfl, hp⟩⟩
  · -- the model is opted in: neither condition of the no-op holds
    have hunset : ∀ src', (orig args).config "transpile_from" = .ok src' → src'.truthy ≠ false := by
      intro src' h
      rw [hsrc] at h
      cases h
      rw [htrue]
      exact Bool.noConfusion
    have hsame : ∀ src' target', (orig args).config "transpile_from" = .ok src' →
        (orig args).config "transpile_to" = .ok target' → src'.eq (target'.or defaultTarget) ≠ true := by
      intro src' target' h h'
      rw [hsrc] at h
      rw [htgt] at h'
      cases h
      cases h'
      rw [hne]
      exact Bool.noConfusion
    rcases ht : transpiled env ((orig args).compiledCode.getD "") src (target.or defaultTarget) with e | out
    · rw [ht] at hr
      exact ⟨(orig args).compiledCode, _, (exec_tryCatch_error hr).trans (exec_bind_ok (exec_modify _ _)),
        Or.inl rfl, fun _ h h' => absurd h' (hunset _ h), fun _ _ h h₁ h₂ => absurd h₂ (hsame _ _ h h₁)⟩
    · rw [ht] at hr
      exact ⟨some out, fr', exec_tryCatch_ok hr,
        Or.inr ⟨src, target, out, _, hsrc, htgt, exec_transpile.trans (by rw [ht]), transpiled_ok ht, rfl⟩,
        fun _ h h' => absurd h' (hunset _ h), fun _ _ h h₁ h₂ => absurd h₂ (hsame _ _ h h₁)⟩

/-- `SPARK_FIXUPS`, as the calls the patch makes; none of them raises. -/
def registry : List (Exp → Except Exc Exp) := sparkFixups.map fun fixup tree => .ok (tree.transform fixup)

theorem fixed_registry (hreg : env.fixups = registry) (hdst : dst.eq defaultTarget = true) :
    fixed env tree dst = .ok (applyFixups tree) := by
  unfold fixed
  rw [if_pos hdst, hreg]
  rfl

/-- For Spark the generator gets the tree after all fix-ups. -/
theorem transpile_applies_fixups (hreg : env.fixups = registry)
    (hdst : (dst.or defaultTarget).eq defaultTarget = true) (h : transpiled env code src dst = .ok out) :
    ∃ statements tree, env.parse code src = .ok statements ∧ oneStatement statements = .ok tree ∧
      generate env (applyFixups tree) (dst.or defaultTarget) = .ok out := by
  obtain ⟨statements, hp, h⟩ := ok_of_bind h
  obtain ⟨tree, hs, h⟩ := ok_of_bind h
  obtain ⟨tree', hf, h⟩ := ok_of_bind h
  rw [fixed_registry hreg hdst] at hf
  cases hf
  exact ⟨statements, tree, hp, hs, h⟩

end SparkDev.Polyglot
