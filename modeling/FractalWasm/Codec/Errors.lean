import FractalWasm.Codec.Writer

/-!
# What a computation fails with

Rules that derive the errors of a computation from those of its steps.

**Without a state** (`ErrorsIn E`): every error of the computation is in `E`. There is a rule for
each statement a program is composed of, a branch (`ErrorsIn.ite`) or a loop over a list (`forM`,
`mapM`, `foldlM`), and for output that is put together from parts (`concat_map`).

**With a state** (`RaisesIn E`): the same from every state. A stateless step is lifted
(`RaisesIn.lift`), and the loop of a reader fails with what its round fails with (`RaisesIn.loop`).

A larger set of errors may be allowed (`ErrorsIn.mono`), and errors may be translated on the way out
(`ErrorsIn.mapError`).
-/

namespace Codec

variable {ε ε' σ α β : Type} {E : ε → Prop}

/-- Every error of `x` is in `E`. -/
structure ErrorsIn (E : ε → Prop) (x : Except ε α) : Prop where
  holds : ∀ {e}, x = .error e → E e

namespace ErrorsIn

theorem ok (a : α) : ErrorsIn E (.ok a) := ⟨fun h => nomatch h⟩

theorem pure (a : α) : ErrorsIn E (Pure.pure a) := ok a

theorem error {e : ε} (he : E e) : ErrorsIn E (.error e : Except ε α) := by
  constructor
  intro e' h
  cases h
  exact he

/-- What follows relies on what the first step came to. -/
theorem bind_of {x : Except ε α} {f : α → Except ε β} (hx : ErrorsIn E x)
    (hf : ∀ a, x = .ok a → ErrorsIn E (f a)) : ErrorsIn E (x >>= f) := by
  constructor
  intro e h
  cases x with
  | error e' =>
    cases h
    exact hx.holds rfl
  | ok a => exact (hf a rfl).holds h

/-- A sequence fails with what either part fails with. -/
theorem bind {x : Except ε α} {f : α → Except ε β} (hx : ErrorsIn E x)
    (hf : ∀ a, ErrorsIn E (f a)) : ErrorsIn E (x >>= f) :=
  bind_of hx fun a _ => hf a

/-- A sequence with another error got past its first step. -/
theorem of_bind {x : Except ε α} {f : α → Except ε β} {e : ε} (hx : ErrorsIn E x) (he : ¬ E e)
    (h : (x >>= f) = .error e) : ∃ a, x = .ok a ∧ f a = .error e := by
  cases x with
  | error e' =>
    cases h
    exact absurd (hx.holds rfl) he
  | ok a => exact ⟨a, rfl, h⟩

theorem map {x : Except ε α} {f : α → β} (hx : ErrorsIn E x) : ErrorsIn E (x.map f) := by
  constructor
  intro e h
  cases x with
  | error e' =>
    cases h
    exact hx.holds rfl
  | ok a => cases h

/-- More errors may be allowed. -/
theorem mono {E' : ε → Prop} {x : Except ε α} (hx : ErrorsIn E x) (himp : ∀ e, E e → E' e) :
    ErrorsIn E' x :=
  ⟨fun h => himp _ (hx.holds h)⟩

theorem ite {c : Prop} [Decidable c] {x y : Except ε α} (hx : ErrorsIn E x) (hy : ErrorsIn E y) :
    ErrorsIn E (if c then x else y) := by
  split
  · exact hx
  · exact hy

/-- A loop fails with what its body fails with. -/
theorem forM {as : List α} {f : α → Except ε PUnit} (hf : ∀ a, ErrorsIn E (f a)) :
    ErrorsIn E (as.forM f) := by
  induction as with
  | nil => exact pure _
  | cons a as ih => exact bind (hf a) fun _ => ih

theorem mapM {as : List α} {f : α → Except ε β} (hf : ∀ a, ErrorsIn E (f a)) :
    ErrorsIn E (as.mapM f) := by
  induction as with
  | nil => exact pure _
  | cons a as ih =>
    rw [List.mapM_cons]
    exact bind (hf a) fun _ => bind ih fun _ => pure _

/-- A loop with an accumulator; the accumulator does not matter for the errors. -/
theorem foldlM {as : List α} {f : β → α → Except ε β} (hf : ∀ b a, ErrorsIn E (f b a)) (b : β) :
    ErrorsIn E (as.foldlM f b) := by
  induction as generalizing b with
  | nil => exact pure _
  | cons a as ih => exact bind (hf b a) ih

theorem concat_nil : ErrorsIn E (Writer.concat []) := ok _

/-- Output is put together from parts that may each fail. -/
theorem concat_cons {w : Writer ε} {ws : List (Writer ε)} (hw : ErrorsIn E w)
    (hws : ErrorsIn E (Writer.concat ws)) : ErrorsIn E (Writer.concat (w :: ws)) :=
  bind hw fun _ => bind hws fun _ => pure _

theorem concat_map {as : List α} {f : α → Writer ε} (hf : ∀ a ∈ as, ErrorsIn E (f a)) :
    ErrorsIn E (Writer.concat (as.map f)) := by
  induction as with
  | nil => exact concat_nil
  | cons a as ih =>
    obtain ⟨ha, hf⟩ := List.forall_mem_cons.1 hf
    exact concat_cons ha (ih hf)

/-- Errors translated on the way out, as by a `catch` that throws another exception. -/
theorem mapError {E' : ε' → Prop} {f : ε → ε'} {x : Except ε α} (hx : ErrorsIn E x)
    (hf : ∀ e, E e → E' (f e)) : ErrorsIn E' (x.mapError f) := by
  constructor
  intro e' h
  cases x with
  | ok a => cases h
  | error e =>
    cases h
    exact hf e (hx.holds rfl)

end ErrorsIn

/-- Every error of `r`, from any state, is in `E`. -/
structure RaisesIn (E : ε → Prop) (r : StateT σ (Except ε) α) : Prop where
  errors : ∀ s, ErrorsIn E (r s)

namespace RaisesIn

theorem pure (a : α) : RaisesIn E (Pure.pure a : StateT σ (Except ε) α) := ⟨fun _ => .ok _⟩

theorem throw {e : ε} (he : E e) : RaisesIn E (throwThe ε e : StateT σ (Except ε) α) :=
  ⟨fun _ => .error he⟩

theorem get : RaisesIn E (MonadState.get : StateT σ (Except ε) σ) := ⟨fun _ => .ok _⟩

theorem set (s : σ) : RaisesIn E (MonadStateOf.set s : StateT σ (Except ε) PUnit) :=
  ⟨fun _ => .ok _⟩

theorem update (f : σ → σ) : RaisesIn E (modify f : StateT σ (Except ε) PUnit) := ⟨fun _ => .ok _⟩

/-- A stateless step within a stateful computation. -/
theorem lift {x : Except ε α} (hx : ErrorsIn E x) :
    RaisesIn E (liftM x : StateT σ (Except ε) α) :=
  ⟨fun _ => hx.bind fun _ => .ok _⟩

theorem bind {r : StateT σ (Except ε) α} {next : α → StateT σ (Except ε) β} (hr : RaisesIn E r)
    (hnext : ∀ a, RaisesIn E (next a)) : RaisesIn E (r >>= next) :=
  ⟨fun s => (hr.errors s).bind fun result => (hnext result.1).errors result.2⟩

/-- A sequence whose last reader relies on what the first one returned. -/
theorem bind_of {r : Reader ε α} {next : α → Reader ε β} {P : α → Prop} (hr : RaisesIn E r)
    (hreturns : Reader.Returns P r) (hnext : ∀ a, P a → RaisesIn E (next a)) :
    RaisesIn E (r >>= next) :=
  ⟨fun s => (hr.errors s).bind_of fun (a, rest) hread =>
    (hnext a (hreturns.holds hread)).errors rest⟩

theorem ite {c : Prop} [Decidable c] {r r' : StateT σ (Except ε) α} (hr : RaisesIn E r)
    (hr' : RaisesIn E r') : RaisesIn E (if c then r else r') := by
  split
  · exact hr
  · exact hr'

theorem forM {as : List β} {f : β → StateT σ (Except ε) PUnit} (hf : ∀ a, RaisesIn E (f a)) :
    RaisesIn E (as.forM f) := by
  induction as with
  | nil => exact pure _
  | cons a as ih => exact bind (hf a) fun _ => ih

/-- A reader that is repeated fails with what one repetition fails with. -/
theorem many {r : Reader ε α} (hr : RaisesIn E r) (n : Nat) : RaisesIn E (r.many n) := by
  induction n with
  | zero => exact pure _
  | succ n ih => exact bind hr fun _ => bind ih fun _ => pure _

/-- A loop until the input is used up; the induction is on the length of the input. -/
theorem loop {step : σ → Reader ε σ} (hstep : ∀ state, RaisesIn E (step state)) (state : σ) :
    RaisesIn E (Reader.loop step state) := by
  have hrounds : ∀ fuel state, RaisesIn E (Reader.whileNonempty step fuel state) := by
    intro fuel
    induction fuel with
    | zero => exact fun _ => pure _
    | succ fuel ih => exact fun _ => bind get fun _ => ite (pure _) (bind (hstep _) ih)
  exact bind get fun _ => hrounds _ state

end RaisesIn

end Codec
