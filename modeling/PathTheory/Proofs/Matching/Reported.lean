import PathTheory.Proofs.Matching.Allowed
import PathTheory.Proofs.Matching.Coverage
/-!
A compilation tells how it ends. A tree comes with nothing but warnings, and if missing clauses are
listed and names of data types stand for data types, then where there is no tree there is an error.
So clauses that nothing is said against take every list of values.
-/
namespace PathTheory

/-- Anything may be mentioned, but names of data types stand for data types of the environment. -/
def Allowance.named (env : Environment) : Allowance :=
  ⟨fun _ => True, True, fun _ => True, fun d => (env.data? d).isSome⟩

/-- Wherever the environment mentions a data type there is one. -/
def Environment.NamesData (env : Environment) : Prop := env.Allowed (.named env)

namespace Matching

variable {setting : Setting} {p q : Progress} {n m : Nat}

/-- Nothing noted so far is more than a warning. -/
def Progress.Mild (p : Progress) : Prop := ∀ d ∈ p.diagnostics, d.isWarning = true

theorem forM_mild {α : Type} {f : α → Compile Unit} {l : List α}
    (each : ∀ x {p q : Progress} {n m : Nat}, p.Mild → f x setting p n = .ok (((), q), m) → q.Mild)
    (mild : p.Mild) (done : l.forM f setting p n = .ok (((), q), m)) : q.Mild := by
  induction l generalizing p n with
  | nil =>
      cases done
      exact mild
  | cons x rest ih =>
      obtain ⟨_, p₁, k, first, others⟩ := compile_bind done
      exact ih (each x mild first) others

theorem reportRedundant_mild {clauses : List Clause} (mild : p.Mild)
    (done : reportRedundant clauses setting p n = .ok (((), q), m)) : q.Mild := by
  obtain ⟨used, p₁, k, asked, loop⟩ := compile_bind done
  cases asked
  refine forM_mild (fun entry p q n m mild told => ?_) mild loop
  dsimp only at told
  split at told
  · cases told
    exact List.forall_mem_append.mpr ⟨mild, List.forall_mem_singleton.mpr rfl⟩
  · cases told
    exact mild

theorem unlessFailed_mild {clauses : List Clause} {found : Option CaseTree} {tree : CaseTree}
    (done : unlessFailed clauses found setting p n = .ok ((some tree, q), m)) : q.Mild := by
  obtain ⟨isFailed, p₁, k, ask, next⟩ := compile_bind done
  cases isFailed with
  | true => cases compile_pure next
  | false =>
      obtain ⟨rfl, rfl, silent⟩ := failed_false ask
      have mild : p₁.Mild := fun d noted => by
        rw [silent] at noted
        cases noted
      cases found with
      | none => cases compile_pure next
      | some t =>
          obtain ⟨_, _, _, asked, next⟩ := compile_bind next
          cases asked
          -- whether redundant clauses are looked for at all, they are only warned about
          split at next
          · obtain ⟨_, _, _, reported, final⟩ := compile_bind next
            cases compile_pure final
            exact reportRedundant_mild mild reported
          · cases compile_pure next
            exact mild

theorem compileClauses_mild {span : Span} {params : Telescope} {clauses : List Clause}
    {tree : CaseTree}
    (done : compileClauses span params clauses setting p n = .ok ((some tree, q), m)) :
    q.Mild := by
  unfold compileClauses at done
  obtain ⟨_, _, _, _, gated⟩ := compile_bind done
  obtain ⟨_, _, _, _, rest⟩ := compile_bind gated
  split at rest
  · cases compile_pure rest
  · obtain ⟨_, _, _, _, next⟩ := compile_bind rest
    obtain ⟨_, _, _, _, next⟩ := compile_bind next
    dsimp only at next
    split at next
    · obtain ⟨_, _, _, _, next⟩ := compile_bind next
      exact unlessFailed_mild next
    · exact unlessFailed_mild next

/-- Nothing but warnings comes with a tree, however many missing clauses may be listed. -/
theorem compile_mild {span : Span} {params : Telescope} {clauses : List Clause}
    {outcome : Outcome} {tree : CaseTree}
    (done : compile setting span params clauses n = .ok (outcome, m))
    (given : outcome.tree = some tree) : ∀ d ∈ outcome.diagnostics, d.isWarning = true := by
  obtain ⟨⟨found, q⟩, k, ran, final⟩ := fresh_bind done
  cases fresh_pure final
  cases given
  exact compileClauses_mild ran

/-- There is no tree just if an error is noted. -/
theorem compile_none_iff {A : Allowance} (known : setting.Known A False) {span : Span}
    {params : Telescope} (fromParams : Telescope.Allowed A params) {clauses : List Clause}
    (given : ∀ c ∈ clauses, c.Allowed A) {outcome : Outcome}
    (done : compile setting span params clauses n = .ok (outcome, m)) :
    outcome.tree = none ↔ ∃ d ∈ outcome.diagnostics, d.isWarning = false := by
  constructor
  · intro isNone
    exact ((compile_allowed known fromParams given _ _ _ done).2 isNone).resolve_left id
  · rintro ⟨d, noted, isError⟩
    refine Option.eq_none_iff_forall_ne_some.mpr fun tree isTree => ?_
    rw [compile_mild done isTree d noted] at isError
    cases isError

/-- If clauses match no end of the interval, then either an error is noted or there is a tree that
    takes every list of values of the parameter types which meets no truncated data where a pattern
    is not a variable. -/
theorem compile_noted_or_takes {A : Allowance} (sure : setting.Known A False) {span : Span}
    {params : Telescope} (fromParams : Telescope.Allowed A params) {clauses : List Clause}
    (given : ∀ c ∈ clauses, c.Allowed A) {outcome : Outcome}
    (done : compile setting span params clauses n = .ok (outcome, m))
    (known : setting.env.Within (fun _ => True) n) (old : Telescope.Below n params)
    (proper : Telescope.Proper params)
    (noInterval : NoIntervalPattern setting.env params clauses) {args : List Term}
    (values : fieldsFit Nameless.Alike setting.env args params id .free)
    (spare : ∀ clause ∈ clauses, RowSpares setting.env clause.patterns args) :
    (∃ d ∈ outcome.diagnostics, d.isWarning = false) ∨
      ∃ tree, outcome.tree = some tree ∧ tree.Takes setting.env args := by
  cases isTree : outcome.tree with
  | none => exact .inl ((compile_none_iff sure fromParams given done).mp isTree)
  | some tree =>
      exact .inr ⟨tree, rfl, compile_takes known old proper noInterval done isTree values spare⟩

end Matching

end PathTheory
