import PathTheory.Proofs.Matching.Value
import PathTheory.Library
/-!
Values of types that are data types as they stand. Such a type shows itself only, so its values can
be told from their constructors; the numerals are values of the natural numbers.
-/
namespace PathTheory

/-- A likeness that sees everything but annotations. -/
def Likeness.Sees (R : Nameless → Nameless → Prop) : Prop := ∀ a b, R a b → a.Alike b

theorem Likeness.eq_sees : Likeness.Sees Eq := by
  rintro a b rfl
  rfl

section Shapes

variable {R : Nameless → Nameless → Prop} {env : Environment} {shape : Term} {σ : Var → Nameless}

theorem whnf_ref {x : Var} {r : Term} {n m : Nat} (done : (Term.ref x).whnf env n = .ok (r, m)) :
    r = .ref x := by
  unfold Term.whnf at done
  cases fuel : env.fuel with
  | zero =>
      rw [fuel] at done
      cases done
  | succ fuel =>
      rw [fuel] at done
      cases fresh_pure done
      rfl

theorem whnf_data {d : DefId} {u : Universe} {args : List Term} {r : Term} {n m : Nat}
    (done : (Term.data d u args).whnf env n = .ok (r, m)) : r = .data d u args := by
  unfold Term.whnf at done
  cases fuel : env.fuel with
  | zero =>
      rw [fuel] at done
      cases done
  | succ fuel =>
      rw [fuel] at done
      cases fresh_pure done
      rfl

/-- A data type without arguments shows itself, or a variable that stands for it. -/
theorem Shows.constant (sees : Likeness.Sees R) {d : DefId} {u : Universe}
    (shows' : Shows R env (Term.data d u []).reading shape σ) :
    shape = .data d u [] ∨ ∃ x, shape = .ref x := by
  obtain ⟨t, n, m, _, _, reduced, like⟩ := shows'
  have alike := sees _ _ like
  unfold Nameless.Alike at alike
  cases t with
  | ref x => exact .inr ⟨x, whnf_ref reduced⟩
  | data d' u' args =>
      cases args with
      | nil =>
          simp only [Term.reading, Term.toScoped, termsParts, Scoped.read, Parts.read, Nameless.inst,
            Label.map, Nameless.bare, Label.bare, id, NamelessParts.inst, NamelessParts.bare,
            Nameless.node.injEq, Label.data.injEq, and_true] at alike
          obtain ⟨rfl, rfl⟩ := alike
          exact .inl (whnf_data reduced)
      | cons a args =>
          simp [Term.reading, Term.toScoped, termsParts, Scoped.read, Parts.read, Nameless.inst,
            Nameless.bare, NamelessParts.inst, NamelessParts.bare, Label.map, Label.bare] at alike
  | _ =>
      simp [Term.reading, Term.toScoped, termsParts, Scoped.read, Parts.read, Nameless.inst,
        Nameless.bare, Label.map, Label.bare] at alike

/-- What has to be checked of a value of a data type without arguments. -/
theorem inhabits_constant (sees : Likeness.Sees R) {v : Term} {d : DefId} {u : Universe}
    (fits : ∀ σ, v.Fits R env (.data d u []) σ) :
    v.Inhabits R env (Term.data d u []).reading := by
  intro shape σ shows'
  rcases shows'.constant sees with rfl | ⟨x, rfl⟩
  · exact fits σ
  · cases v <;> trivial

end Shapes

open Library

/-- The environment has the natural numbers of the library. -/
structure HasNat (env : Environment) : Prop where
  type : env.data? nat = some ⟨[], .set0, [zero, suc], false, false⟩
  zeroCon : env.constructor? zero = some ⟨nat, [], 0⟩
  sucCon : env.constructor? suc = some ⟨nat, Telescope.ofPairs [(⟨0, "n"⟩, natType)], 0⟩

theorem numeral_inhabits {R : Nameless → Nameless → Prop} {env : Environment}
    (likeness : Likeness R) (sees : Likeness.Sees R) (has : HasNat env) (k : Nat) :
    (numeral k).Inhabits R env natType.reading := by
  induction k with
  | zero =>
      refine inhabits_constant sees fun σ => ?_
      exact ⟨_, _, has.type, by simp, has.zeroCon, likeness.refl _, trivial⟩
  | succ k ih =>
      refine inhabits_constant sees fun σ => ?_
      exact ⟨_, _, has.type, by simp, has.sucCon, likeness.refl _, ih, trivial⟩

theorem library_hasNat (fuel : Nat) : HasNat (environment fuel) := ⟨rfl, rfl, rfl⟩

theorem library_untruncated {fuel : Nat} {d : DefId} {data : DataDef}
    (known : (environment fuel).data? d = some data) : data.truncated = false := by
  obtain ⟨definition, known, isData⟩ := Option.bind_eq_some_iff.mp known
  have member := Array.mem_toList_iff.mpr (Array.mem_of_getElem? known)
  have all : ∀ e ∈ [natData, zeroCon, sucCon, intervalData, endCon, endCon, pathData,
      pathConstructor, eqFunction, atFunction, coeFunction], ∀ data, e.data? = some data →
        data.truncated = false := by
    simp [natData, zeroCon, sucCon, intervalData, endCon, pathData, pathConstructor, eqFunction,
      atFunction, coeFunction, Definition.data?]
  exact all definition member data isData

theorem natType_notInterval {env : Environment} (has : HasNat env) :
    ¬ Matching.IntervalType env natType := by
  rintro ⟨n, d, u, args, m, data, reduced, known, interval⟩
  cases whnf_data reduced
  cases known.symm.trans has.type
  cases interval

end PathTheory
