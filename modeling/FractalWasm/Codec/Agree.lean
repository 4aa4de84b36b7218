import FractalWasm.Codec.Reader

/-!
# Computations that agree

Two computations agree up to a relation when they end in related values or in the same error.

**Computations** (`Agree`): the rules follow the statements of the computations, so that what two
programs do from related states is compared statement by statement.

**Readers** (`Reader.Agree`): readers agree when they do on every input, and leave the same of it.
The relation is carried through the loop of a reader (`Reader.Agree.loop`), so that what it leaves
open in the state never reaches the result.
-/

namespace Codec

variable {ε α α' β β' σ τ : Type}

/-- Both end in values related by `R`, or both in the same error. -/
inductive Agree (R : α → α' → Prop) : Except ε α → Except ε α' → Prop
  | ok {a : α} {a' : α'} (h : R a a') : Agree R (.ok a) (.ok a')
  | error (e : ε) : Agree R (.error e) (.error e)

namespace Agree

variable {R : α → α' → Prop} {S : β → β' → Prop}

theorem refl (x : Except ε α) : Agree Eq x x := by
  cases x with
  | ok a => exact .ok rfl
  | error e => exact .error e

theorem mono {R' : α → α' → Prop} {x : Except ε α} {x' : Except ε α'} (h : Agree R x x')
    (himp : ∀ a a', R a a' → R' a a') : Agree R' x x' := by
  cases h with
  | ok hR => exact .ok (himp _ _ hR)
  | error e => exact .error e

theorem bind {x : Except ε α} {x' : Except ε α'} {f : α → Except ε β} {f' : α' → Except ε β'}
    (h : Agree R x x') (hf : ∀ a a', R a a' → Agree S (f a) (f' a')) :
    Agree S (x >>= f) (x' >>= f') := by
  cases h with
  | ok hR => exact hf _ _ hR
  | error e => exact .error e

/-- What related values have in common is the same of both computations. -/
theorem map_eq {x : Except ε α} {x' : Except ε α'} {f : α → β} {f' : α' → β} (h : Agree R x x')
    (hf : ∀ a a', R a a' → f a = f' a') : x.map f = x'.map f' := by
  cases h with
  | ok hR => exact congrArg Except.ok (hf _ _ hR)
  | error e => rfl

end Agree

/-- Readers agree when they read the same from the same bytes, up to `R`. -/
def Reader.Agree (R : α → α' → Prop) (r : Reader ε α) (r' : Reader ε α') : Prop :=
  ∀ bytes, Codec.Agree (fun result result' => R result.1 result'.1 ∧ result.2 = result'.2)
    (r bytes) (r' bytes)

namespace Reader.Agree

variable {R : α → α' → Prop} {S : β → β' → Prop}

theorem pure {a : α} {a' : α'} (h : R a a') :
    Reader.Agree R (Pure.pure a : Reader ε α) (Pure.pure a') :=
  fun _ => .ok ⟨h, rfl⟩

theorem bind {r : Reader ε α} {r' : Reader ε α'} {next : α → Reader ε β} {next' : α' → Reader ε β'}
    (h : Reader.Agree R r r') (hnext : ∀ a a', R a a' → Reader.Agree S (next a) (next' a')) :
    Reader.Agree S (r >>= next) (r' >>= next') := by
  intro bytes
  apply (h bytes).bind
  rintro ⟨a, rest⟩ ⟨a', rest'⟩ ⟨hR, rfl⟩
  exact hnext a a' hR rest

theorem lift {x : Except ε α} {x' : Except ε α'} (h : Codec.Agree R x x') :
    Reader.Agree R (liftM x : Reader ε α) (liftM x') := by
  intro bytes
  cases h with
  | ok hR => exact .ok ⟨hR, rfl⟩
  | error e => exact .error e

theorem whileNonempty {R : σ → τ → Prop} {step : σ → Reader ε σ} {step' : τ → Reader ε τ}
    (hstep : ∀ s t, R s t → Reader.Agree R (step s) (step' t)) (fuel : Nat) {s : σ} {t : τ}
    (h : R s t) :
    Reader.Agree R (Reader.whileNonempty step fuel s) (Reader.whileNonempty step' fuel t) := by
  induction fuel generalizing s t with
  | zero => exact .pure h
  | succ fuel ih =>
    have hget : Reader.Agree Eq (MonadState.get : Reader ε (List UInt8)) MonadState.get :=
      fun _ => .ok ⟨rfl, rfl⟩
    apply hget.bind
    rintro bytes _ rfl
    split
    · exact .pure h
    · exact (hstep s t h).bind fun s' t' h' => ih h'

/-- Loops whose rounds agree do so. -/
theorem loop {R : σ → τ → Prop} {step : σ → Reader ε σ} {step' : τ → Reader ε τ}
    (hstep : ∀ s t, R s t → Reader.Agree R (step s) (step' t)) {s : σ} {t : τ} (h : R s t) :
    Reader.Agree R (Reader.loop step s) (Reader.loop step' t) :=
  fun bytes => whileNonempty hstep bytes.length h bytes

end Reader.Agree

end Codec
