import Mathlib.Algebra.GroupWithZero.Nat

/-!
# Readers

A reader consumes a prefix of a byte list or fails with an error. `Reader` is a state monad over
`Except`; the lemmas here take a successful run of a composed reader apart into the runs of its
parts, so that no proof has to unfold the monad.

**What is returned** (`Returns P`) and **how much is left** (`Shrinks`, `Consumes`): properties of
all runs, with a rule for each statement a reader is composed of.

**Reading given bytes** (`Parses E r bytes P`): the reader takes exactly these bytes, whatever
follows them, or fails with an error in `E`. This is the form in which a format is read back.

**Loops** (`loop`): a loop over the rest of the input has a round for each byte, which is enough for
rounds that consume something (`rest_eq_nil_of_loop`). Invariants (`loop_invariant`), simulations
(`loop_simulation`) and folds over encoded elements (`loop_foldlM`) go through it by induction.
-/

namespace Codec

/-- A computation over the bytes still to be read. -/
abbrev Reader (ε α : Type) := StateT (List UInt8) (Except ε) α

/-- A sequence succeeds exactly when both parts do. -/
theorem Except.bind_eq_ok {ε α β : Type} {x : Except ε α} {f : α → Except ε β} {b : β} :
    (x >>= f) = .ok b ↔ ∃ a, x = .ok a ∧ f a = .ok b := by
  cases x with
  | error e => simp [bind, Except.bind]
  | ok a => simp [bind, Except.bind]

theorem Except.toOption_eq_some {ε α : Type} {x : Except ε α} {a : α} :
    x.toOption = some a ↔ x = .ok a := by
  cases x with
  | error e => simp [Except.toOption]
  | ok a' => simp [Except.toOption]

section StateT

variable {σ ε α β : Type}

/-- The same with a state: the second part starts where the first one stopped. -/
theorem bind_eq_ok {x : StateT σ (Except ε) α} {f : α → StateT σ (Except ε) β} {s s' : σ} {b : β} :
    (x >>= f) s = .ok (b, s') ↔ ∃ a t, x s = .ok (a, t) ∧ f a t = .ok (b, s') := by
  change (x s >>= fun p => f p.1 p.2) = .ok (b, s') ↔ _
  rw [Except.bind_eq_ok]
  constructor
  · rintro ⟨⟨a, t⟩, hx, hf⟩
    exact ⟨a, t, hx, hf⟩
  · rintro ⟨a, t, hx, hf⟩
    exact ⟨(a, t), hx, hf⟩

@[simp] theorem pure_eq_ok {a b : α} {s s' : σ} :
    (pure a : StateT σ (Except ε) α) s = .ok (b, s') ↔ a = b ∧ s = s' := by
  change Except.ok (a, s) = .ok (b, s') ↔ _
  simp

@[simp] theorem throw_eq_ok {e : ε} {b : α} {s s' : σ} :
    (throw e : StateT σ (Except ε) α) s = .ok (b, s') ↔ False := by
  constructor
  · intro h
    cases h
  · exact False.elim

@[simp] theorem get_eq_ok {s s' t : σ} :
    (get : StateT σ (Except ε) σ) s = .ok (t, s') ↔ s = t ∧ s = s' := by
  change Except.ok (s, s) = .ok (t, s') ↔ _
  simp

@[simp] theorem set_eq_ok {s s' t : σ} {u : PUnit} :
    (set t : StateT σ (Except ε) PUnit) s = .ok (u, s') ↔ t = s' := by
  change Except.ok (PUnit.unit, t) = .ok (u, s') ↔ _
  simp

@[simp] theorem modify_eq_ok {f : σ → σ} {s s' : σ} {u : PUnit} :
    (modify f : StateT σ (Except ε) PUnit) s = .ok (u, s') ↔ f s = s' := by
  change Except.ok (PUnit.unit, f s) = .ok (u, s') ↔ _
  simp

/-- A stateless step leaves the state as it is. -/
theorem lift_eq_ok {x : Except ε α} {s s' : σ} {a : α} :
    (liftM x : StateT σ (Except ε) α) s = .ok (a, s') ↔ x = .ok a ∧ s = s' := by
  change (x >>= fun a => pure (a, s)) = .ok (a, s') ↔ _
  cases x with
  | error e => simp [bind, Except.bind]
  | ok b => simp [bind, Except.bind, pure, Except.pure]

end StateT

namespace Reader

variable {ε α : Type}

/-- Reads exactly `n` elements. -/
def many (r : Reader ε α) : Nat → Reader ε (List α)
  | 0 => pure []
  | n + 1 => do
    let a ← r
    let as ← many r n
    return a :: as

@[simp] theorem many_zero (r : Reader ε α) : many r 0 = pure [] := rfl

theorem many_succ (r : Reader ε α) (n : Nat) :
    many r (n + 1) = (do
      let a ← r
      let as ← many r n
      return a :: as) := rfl

/-- As many elements as were asked for. -/
theorem length_of_many {r : Reader ε α} {n : Nat} {bytes rest : List UInt8} {as : List α}
    (h : many r n bytes = .ok (as, rest)) : as.length = n := by
  induction n generalizing bytes as with
  | zero =>
    simp only [many_zero, pure_eq_ok] at h
    rw [← h.1, List.length_nil]
  | succ n ih =>
    rw [many_succ] at h
    obtain ⟨a, t, -, h⟩ := bind_eq_ok.1 h
    obtain ⟨as', t', has, h⟩ := bind_eq_ok.1 h
    obtain ⟨rfl, rfl⟩ := pure_eq_ok.1 h
    rw [List.length_cons, ih has]

/-! ## What a reader returns -/

/-- Every value a successful run returns satisfies `P`. -/
structure Returns (P : α → Prop) (r : Reader ε α) : Prop where
  holds : ∀ {bytes rest : List UInt8} {a : α}, r bytes = .ok (a, rest) → P a

namespace Returns

variable {β : Type} {P : α → Prop} {Q : β → Prop}

theorem pure {a : α} (h : P a) : Returns P (Pure.pure a : Reader ε α) := by
  refine ⟨fun {bytes rest b} hb => ?_⟩
  obtain ⟨rfl, -⟩ := pure_eq_ok.1 hb
  exact h

theorem throw (e : ε) : Returns P (throwThe ε e : Reader ε α) :=
  ⟨fun h => (throw_eq_ok.1 h).elim⟩

/-- Only the last reader of a sequence matters. -/
theorem bind {r : Reader ε α} {next : α → Reader ε β} (hnext : ∀ a, Returns Q (next a)) :
    Returns Q (r >>= next) := by
  refine ⟨fun {bytes rest b} h => ?_⟩
  obtain ⟨a, mid, -, hb⟩ := bind_eq_ok.1 h
  exact (hnext a).holds hb

/-- A sequence whose last reader relies on what the first one returned. -/
theorem bind_of {r : Reader ε α} {next : α → Reader ε β} (hr : Returns P r)
    (hnext : ∀ a, P a → Returns Q (next a)) : Returns Q (r >>= next) := by
  refine ⟨fun {bytes rest b} h => ?_⟩
  obtain ⟨a, mid, ha, hb⟩ := bind_eq_ok.1 h
  exact (hnext a (hr.holds ha)).holds hb

theorem ite {c : Prop} [Decidable c] {r r' : Reader ε α} (h : Returns P r) (h' : Returns P r') :
    Returns P (if c then r else r') := by
  split
  · exact h
  · exact h'

/-- A weaker property is returned too. -/
theorem mono {P' : α → Prop} {r : Reader ε α} (himp : ∀ a, P a → P' a) (h : Returns P r) :
    Returns P' r :=
  ⟨fun hr => himp _ (h.holds hr)⟩

theorem many {r : Reader ε α} (hr : Returns P r) (n : Nat) :
    Returns (fun as => ∀ a ∈ as, P a) (many r n) := by
  induction n with
  | zero => exact pure fun a ha => absurd ha List.not_mem_nil
  | succ n ih =>
    refine bind_of hr fun a ha => bind_of ih fun as has => pure ?_
    intro b hb
    rcases List.mem_cons.1 hb with rfl | hb
    · exact ha
    · exact has b hb

/-- The number of elements, as a property of what is returned. -/
theorem length_many (r : Reader ε α) (n : Nat) :
    Returns (fun as => as.length = n) (Reader.many r n) :=
  ⟨length_of_many⟩

theorem and {P' : α → Prop} {r : Reader ε α} (h : Returns P r) (h' : Returns P' r) :
    Returns (fun a => P a ∧ P' a) r :=
  ⟨fun hr => ⟨h.holds hr, h'.holds hr⟩⟩

/-- Continuations that agree on what the first reader returns. -/
theorem bind_congr {r : Reader ε α} {next next' : α → Reader ε β} (hr : Returns P r)
    (hnext : ∀ a, P a → next a = next' a) : r >>= next = r >>= next' := by
  funext bytes
  change (r bytes).bind (fun x => next x.1 x.2) = (r bytes).bind (fun x => next' x.1 x.2)
  cases h : r bytes with
  | error e => rfl
  | ok x => exact congrFun (hnext x.1 (hr.holds h)) x.2

end Returns

/-! ## How much a reader leaves -/

/-- A successful run leaves at most what it was given. -/
structure Shrinks (r : Reader ε α) : Prop where
  length_le : ∀ {bytes rest : List UInt8} {a : α}, r bytes = .ok (a, rest) →
    rest.length ≤ bytes.length

/-- A successful run leaves less than it was given. -/
structure Consumes (r : Reader ε α) : Prop where
  length_lt : ∀ {bytes rest : List UInt8} {a : α}, r bytes = .ok (a, rest) →
    rest.length < bytes.length

/-- To read something is to leave no more than before. -/
theorem Consumes.shrinks {r : Reader ε α} (h : Consumes r) : Shrinks r :=
  ⟨fun hr => Nat.le_of_lt (h.length_lt hr)⟩

namespace Shrinks

variable {β : Type}

theorem pure (a : α) : Shrinks (Pure.pure a : Reader ε α) := by
  refine ⟨fun {bytes rest b} h => ?_⟩
  obtain ⟨-, rfl⟩ := pure_eq_ok.1 h
  exact Nat.le_refl _

theorem throw (e : ε) : Shrinks (throwThe ε e : Reader ε α) :=
  ⟨fun h => (throw_eq_ok.1 h).elim⟩

theorem get : Shrinks (MonadState.get : Reader ε (List UInt8)) := by
  refine ⟨fun {bytes rest b} h => ?_⟩
  obtain ⟨-, rfl⟩ := get_eq_ok.1 h
  exact Nat.le_refl _

/-- A computation without a state reads nothing. -/
theorem lift (x : Except ε α) : Shrinks (liftM x : Reader ε α) := by
  refine ⟨fun {bytes rest b} h => ?_⟩
  obtain ⟨-, rfl⟩ := lift_eq_ok.1 h
  exact Nat.le_refl _

theorem bind {r : Reader ε α} {next : α → Reader ε β} (hr : Shrinks r)
    (hnext : ∀ a, Shrinks (next a)) : Shrinks (r >>= next) := by
  refine ⟨fun {bytes rest b} h => ?_⟩
  obtain ⟨a, mid, ha, hb⟩ := bind_eq_ok.1 h
  exact Nat.le_trans ((hnext a).length_le hb) (hr.length_le ha)

theorem ite {c : Prop} [Decidable c] {r r' : Reader ε α} (h : Shrinks r) (h' : Shrinks r') :
    Shrinks (if c then r else r') := by
  split
  · exact h
  · exact h'

theorem many {r : Reader ε α} (hr : Shrinks r) (n : Nat) : Shrinks (many r n) := by
  induction n with
  | zero => exact pure _
  | succ n ih => exact bind hr fun _ => bind ih fun _ => pure _

end Shrinks

/-- One part that reads something is enough, here the first. -/
theorem Consumes.bind {β : Type} {r : Reader ε α} {next : α → Reader ε β} (hr : Consumes r)
    (hnext : ∀ a, Shrinks (next a)) : Consumes (r >>= next) := by
  refine ⟨fun {bytes rest b} h => ?_⟩
  obtain ⟨a, mid, ha, hb⟩ := bind_eq_ok.1 h
  exact Nat.lt_of_le_of_lt ((hnext a).length_le hb) (hr.length_lt ha)

/-- Here it is the second part. -/
theorem Consumes.of_bind {β : Type} {r : Reader ε α} {next : α → Reader ε β}
    (hr : Shrinks r) (hnext : ∀ a, Consumes (next a)) : Consumes (r >>= next) := by
  refine ⟨fun {bytes rest b} h => ?_⟩
  obtain ⟨a, mid, ha, hb⟩ := bind_eq_ok.1 h
  exact Nat.lt_of_lt_of_le ((hnext a).length_lt hb) (hr.length_le ha)

/-! ## Reading given bytes -/

/-- On input that starts with `bytes`, `r` reads exactly these, as something with the property `P`,
or it fails with an error in `E`. -/
structure Parses (E : ε → Prop) (r : Reader ε α) (bytes : List UInt8) (P : α → Prop) : Prop where
  outcome : ∀ rest, (∃ a, r (bytes ++ rest) = .ok (a, rest) ∧ P a) ∨
    ∃ e, r (bytes ++ rest) = .error e ∧ E e

/-- `r` reads the whole of `bytes`, as something with the property `P`, or it fails with an error
in `E`. -/
def Finishes (E : ε → Prop) (r : Reader ε α) (bytes : List UInt8) (P : α → Prop) : Prop :=
  (∃ a, r bytes = .ok (a, []) ∧ P a) ∨ ∃ e, r bytes = .error e ∧ E e

/-- A sequence fails where its first part fails. -/
theorem bind_eq_error {β : Type} {r : Reader ε α} {next : α → Reader ε β} {bytes : List UInt8}
    {e : ε} (h : r bytes = .error e) : (r >>= next) bytes = .error e := by
  change (r bytes >>= fun p => next p.1 p.2) = .error e
  rw [h]
  rfl

namespace Parses

variable {β : Type} {E : ε → Prop} {P : α → Prop} {Q : β → Prop} {r : Reader ε α}
  {bytes bytes' : List UInt8}

theorem pure {a : α} (h : P a) : Parses E (Pure.pure a : Reader ε α) [] P :=
  ⟨fun _ => .inl ⟨a, rfl, h⟩⟩

theorem throw {e : ε} (h : E e) : Parses E (throwThe ε e : Reader ε α) bytes P :=
  ⟨fun _ => .inr ⟨e, rfl, h⟩⟩

/-- A reader of known bytes that cannot fail. -/
theorem eq_ok {a : α} (h : Parses (fun _ => False) r bytes (· = a)) (rest : List UInt8) :
    r (bytes ++ rest) = .ok (a, rest) := by
  rcases h.outcome rest with ⟨_, hread, rfl⟩ | ⟨_, -, he⟩
  · exact hread
  · exact he.elim

theorem bind {next : α → Reader ε β} (hr : Parses E r bytes P)
    (hnext : ∀ a, P a → Parses E (next a) bytes' Q) :
    Parses E (r >>= next) (bytes ++ bytes') Q := by
  refine ⟨fun rest => ?_⟩
  rw [List.append_assoc]
  rcases hr.outcome (bytes' ++ rest) with ⟨a, hread, ha⟩ | ⟨e, herror, he⟩
  · rcases (hnext a ha).outcome rest with ⟨b, hread', hb⟩ | ⟨e, herror, he⟩
    · exact .inl ⟨b, bind_eq_ok.2 ⟨a, _, hread, hread'⟩, hb⟩
    · refine .inr ⟨e, ?_, he⟩
      change (r (bytes ++ (bytes' ++ rest)) >>= fun p => next p.1 p.2) = .error e
      rw [hread]
      exact herror
  · exact .inr ⟨e, bind_eq_error herror, he⟩

/-- A last step that reads nothing. -/
theorem map {f : α → β} (hr : Parses E r bytes P) (hf : ∀ a, P a → Q (f a)) :
    Parses E (r >>= fun a => Pure.pure (f a)) bytes Q := by
  rw [← List.append_nil bytes]
  exact hr.bind fun a ha => .pure (hf a ha)

/-- A first step that reads nothing. -/
theorem check {check : Reader ε α} {next : α → Reader ε β} (hcheck : Parses E check [] P)
    (hnext : ∀ a, P a → Parses E (next a) bytes Q) : Parses E (check >>= next) bytes Q :=
  hcheck.bind hnext

theorem mono {P' : α → Prop} (h : Parses E r bytes P) (himp : ∀ a, P a → P' a) :
    Parses E r bytes P' := by
  refine ⟨fun rest => ?_⟩
  rcases h.outcome rest with ⟨a, hread, ha⟩ | herror
  · exact .inl ⟨a, hread, himp a ha⟩
  · exact .inr herror

/-- A computation that leaves the input alone. -/
theorem lift {x : Except ε α} (h : (∃ a, x = .ok a ∧ P a) ∨ ∃ e, x = .error e ∧ E e) :
    Parses E (liftM x : Reader ε α) [] P := by
  refine ⟨fun rest => ?_⟩
  rcases h with ⟨a, rfl, ha⟩ | ⟨e, rfl, he⟩
  · exact .inl ⟨a, rfl, ha⟩
  · exact .inr ⟨e, rfl, he⟩

/-- What parses the whole input finishes on it. -/
theorem finishes (h : Parses E r bytes P) : Finishes E r bytes P := by
  have houtcome := h.outcome []
  rw [List.append_nil] at houtcome
  exact houtcome

end Parses

namespace Finishes

variable {β : Type} {E : ε → Prop} {P : α → Prop} {Q : β → Prop} {r : Reader ε α}
  {bytes bytes' : List UInt8}

/-- The last reader of a sequence reads what the others leave. -/
theorem bind {next : α → Reader ε β} (hr : Parses E r bytes P)
    (hnext : ∀ a, P a → Finishes E (next a) bytes' Q) :
    Finishes E (r >>= next) (bytes ++ bytes') Q := by
  rcases hr.outcome bytes' with ⟨a, hread, ha⟩ | ⟨e, herror, he⟩
  · rcases hnext a ha with ⟨b, hread', hb⟩ | ⟨e, herror, he⟩
    · exact .inl ⟨b, bind_eq_ok.2 ⟨a, _, hread, hread'⟩, hb⟩
    · refine .inr ⟨e, ?_, he⟩
      change (r (bytes ++ bytes') >>= fun p => next p.1 p.2) = .error e
      rw [hread]
      exact herror
  · exact .inr ⟨e, bind_eq_error herror, he⟩

/-- A first step that reads nothing. -/
theorem check {check : Reader ε α} {next : α → Reader ε β} (hcheck : Parses E check [] P)
    (hnext : ∀ a, P a → Finishes E (next a) bytes Q) : Finishes E (check >>= next) bytes Q :=
  bind hcheck hnext

/-- What follows a reader of the whole input reads nothing. -/
theorem andThen {next : α → Reader ε β} (hr : Finishes E r bytes P)
    (hnext : ∀ a, P a → Parses E (next a) [] Q) : Finishes E (r >>= next) bytes Q := by
  rcases hr with ⟨a, hread, ha⟩ | ⟨e, herror, he⟩
  · rcases (hnext a ha).outcome [] with ⟨b, hread', hb⟩ | ⟨e, herror, he⟩
    · exact .inl ⟨b, bind_eq_ok.2 ⟨a, [], hread, hread'⟩, hb⟩
    · refine .inr ⟨e, ?_, he⟩
      change (r bytes >>= fun p => next p.1 p.2) = .error e
      rw [hread]
      exact herror
  · exact .inr ⟨e, bind_eq_error herror, he⟩

end Finishes

/-! ## Loops over the rest of the input -/

section Loop

variable {σ : Type}

/-- At most `fuel` rounds of `while (input remains) { state = step(state); }`. -/
def whileNonempty (step : σ → Reader ε σ) : Nat → σ → Reader ε σ
  | 0, state => pure state
  | fuel + 1, state => do
    let bytes ← get
    if bytes = [] then return state
    else whileNonempty step fuel (← step state)

/-- `while (input remains) { state = step(state); }`, for steps that consume input: a round for
each byte is enough (`rest_eq_nil_of_loop`). -/
def loop (step : σ → Reader ε σ) (state : σ) : Reader ε σ := do
  whileNonempty step (← get).length state

/-- Nothing is left, and the loop ends whatever fuel it has. -/
theorem whileNonempty_nil (step : σ → Reader ε σ) (fuel : Nat) (state : σ) :
    whileNonempty step fuel state [] = .ok (state, []) := by
  cases fuel <;> rfl

/-- A round of the loop, when input remains. -/
theorem whileNonempty_succ {step : σ → Reader ε σ} {fuel : Nat} {state : σ} {bytes : List UInt8}
    (hne : bytes ≠ []) :
    whileNonempty step (fuel + 1) state bytes =
      step state bytes >>= fun round => whileNonempty step fuel round.1 round.2 := by
  change (if bytes = [] then pure state else
    step state >>= fun mid => whileNonempty step fuel mid : Reader ε σ) bytes = _
  rw [if_neg hne]
  rfl

/-- A round of the loop, and the rounds behind it. -/
theorem whileNonempty_succ_eq_ok {step : σ → Reader ε σ} {fuel : Nat} {state state' : σ}
    {bytes rest : List UInt8} (hne : bytes ≠ []) :
    whileNonempty step (fuel + 1) state bytes = .ok (state', rest) ↔
      ∃ mid t, step state bytes = .ok (mid, t) ∧
        whileNonempty step fuel mid t = .ok (state', rest) := by
  rw [whileNonempty_succ hne, Except.bind_eq_ok]
  exact Prod.exists

/-- What every round preserves holds at the end of the loop. -/
theorem whileNonempty_invariant {step : σ → Reader ε σ} {P : σ → List UInt8 → Prop}
    (hstep : ∀ {state state' bytes rest}, P state bytes → step state bytes = .ok (state', rest) →
      P state' rest)
    {fuel : Nat} {state state' : σ} {bytes rest : List UInt8} (hP : P state bytes)
    (h : whileNonempty step fuel state bytes = .ok (state', rest)) : P state' rest := by
  induction fuel generalizing state bytes with
  | zero =>
    obtain ⟨rfl, rfl⟩ := pure_eq_ok.1 h
    exact hP
  | succ fuel ih =>
    by_cases hne : bytes = []
    · subst hne
      rw [whileNonempty_nil] at h
      cases h
      exact hP
    · obtain ⟨mid, t, hmid, h⟩ := (whileNonempty_succ_eq_ok hne).1 h
      exact ih (hstep hP hmid) h

/-- The rounds of a loop that are known to happen, each counted by one. -/
theorem whileNonempty_count {step : σ → Reader ε σ} {P : Nat → σ → Prop}
    (hstep : ∀ {n state state' bytes rest}, P n state → step state bytes = .ok (state', rest) →
      P (n + 1) state')
    {fuel n : Nat} {state state' : σ} {bytes rest : List UInt8} (hP : P n state)
    (h : whileNonempty step fuel state bytes = .ok (state', rest)) :
    ∃ rounds, rounds ≤ fuel ∧ P (n + rounds) state' := by
  induction fuel generalizing n state bytes with
  | zero =>
    obtain ⟨rfl, rfl⟩ := pure_eq_ok.1 h
    exact ⟨0, Nat.le_refl 0, hP⟩
  | succ fuel ih =>
    by_cases hne : bytes = []
    · subst hne
      rw [whileNonempty_nil] at h
      cases h
      exact ⟨0, Nat.zero_le _, hP⟩
    · obtain ⟨mid, t, hmid, h⟩ := (whileNonempty_succ_eq_ok hne).1 h
      obtain ⟨rounds, hle, hrounds⟩ := ih (hstep hP hmid) h
      exact ⟨rounds + 1, Nat.succ_le_succ hle, by rwa [Nat.add_right_comm] at hrounds⟩

/-- A loop whose rounds another one can follow, reading the same bytes. -/
theorem whileNonempty_simulation {τ : Type} {step : σ → Reader ε σ} {step' : τ → Reader ε τ}
    {R : σ → τ → Prop}
    (hstep : ∀ {s t s' bytes rest}, R s t → step s bytes = .ok (s', rest) →
      ∃ t', step' t bytes = .ok (t', rest) ∧ R s' t')
    {fuel : Nat} {s s' : σ} {t : τ} {bytes rest : List UInt8} (hR : R s t)
    (h : whileNonempty step fuel s bytes = .ok (s', rest)) :
    ∃ t', whileNonempty step' fuel t bytes = .ok (t', rest) ∧ R s' t' := by
  induction fuel generalizing s t bytes with
  | zero =>
    obtain ⟨rfl, rfl⟩ := pure_eq_ok.1 h
    exact ⟨t, rfl, hR⟩
  | succ fuel ih =>
    by_cases hne : bytes = []
    · subst hne
      rw [whileNonempty_nil] at h
      cases h
      exact ⟨t, whileNonempty_nil step' _ t, hR⟩
    · obtain ⟨mid, left, hmid, h⟩ := (whileNonempty_succ_eq_ok hne).1 h
      obtain ⟨mid', hmid', hR'⟩ := hstep hR hmid
      obtain ⟨t', hrest, hR''⟩ := ih hR' h
      exact ⟨t', (whileNonempty_succ_eq_ok hne).2 ⟨mid', left, hmid', hrest⟩, hR''⟩

/-- Two loops run in step when their rounds do; the relation between their states is the invariant.
-/
theorem loop_simulation {τ : Type} {step : σ → Reader ε σ} {step' : τ → Reader ε τ}
    {R : σ → τ → Prop}
    (hstep : ∀ {s t s' bytes rest}, R s t → step s bytes = .ok (s', rest) →
      ∃ t', step' t bytes = .ok (t', rest) ∧ R s' t')
    {s s' : σ} {t : τ} {bytes rest : List UInt8} (hR : R s t)
    (h : loop step s bytes = .ok (s', rest)) :
    ∃ t', loop step' t bytes = .ok (t', rest) ∧ R s' t' :=
  whileNonempty_simulation hstep hR h

/-- A property of the state and the input left that each round keeps holds at the end. -/
theorem loop_invariant {step : σ → Reader ε σ} {P : σ → List UInt8 → Prop}
    (hstep : ∀ {state state' bytes rest}, P state bytes → step state bytes = .ok (state', rest) →
      P state' rest)
    {state state' : σ} {bytes rest : List UInt8} (hP : P state bytes)
    (h : loop step state bytes = .ok (state', rest)) : P state' rest :=
  whileNonempty_invariant hstep hP h

/-- When every round consumes input and there is fuel for each byte, the loop ends only at the end
of the input. -/
theorem rest_eq_nil_of_whileNonempty {step : σ → Reader ε σ}
    (hconsumes : ∀ state, Consumes (step state))
    {fuel : Nat} {state state' : σ} {bytes rest : List UInt8} (hfuel : bytes.length ≤ fuel)
    (h : whileNonempty step fuel state bytes = .ok (state', rest)) : rest = [] := by
  induction fuel generalizing state bytes with
  | zero =>
    obtain ⟨-, rfl⟩ := pure_eq_ok.1 h
    exact List.length_eq_zero_iff.1 (Nat.le_zero.1 hfuel)
  | succ fuel ih =>
    by_cases hne : bytes = []
    · subst hne
      rw [whileNonempty_nil] at h
      cases h
      rfl
    · obtain ⟨mid, t, hmid, h⟩ := (whileNonempty_succ_eq_ok hne).1 h
      have hlt := (hconsumes state).length_lt hmid
      exact ih (by omega) h

theorem rest_eq_nil_of_loop {step : σ → Reader ε σ}
    (hconsumes : ∀ state, Consumes (step state))
    {state state' : σ} {bytes rest : List UInt8}
    (h : loop step state bytes = .ok (state', rest)) : rest = [] :=
  rest_eq_nil_of_whileNonempty hconsumes (Nat.le_refl _) h

/-- Some rounds of a loop, from a state and what is left there to another state and what is left. -/
inductive Rounds (step : σ → Reader ε σ) : σ → List UInt8 → σ → List UInt8 → Prop where
  | refl (state : σ) (bytes : List UInt8) : Rounds step state bytes state bytes
  | next {state mid state' : σ} {bytes t rest : List UInt8} (hne : bytes ≠ [])
      (hstep : step state bytes = .ok (mid, t)) (hrounds : Rounds step mid t state' rest) :
      Rounds step state bytes state' rest

namespace Rounds

variable {step : σ → Reader ε σ} {state state' : σ} {bytes rest : List UInt8}

/-- What every round preserves holds of every state of the loop. -/
theorem invariant {P : σ → Prop}
    (hstep : ∀ {state state' bytes rest}, P state → step state bytes = .ok (state', rest) →
      P state')
    (h : Rounds step state bytes state' rest) (hP : P state) : P state' := by
  induction h with
  | refl => exact hP
  | next _ hmid _ ih => exact ih (hstep hP hmid)

/-- A round that fails makes the loop fail, when there is fuel for each byte. -/
theorem whileNonempty_error (hconsumes : ∀ state, Consumes (step state))
    (h : Rounds step state bytes state' rest) {e : ε} (hne : rest ≠ [])
    (herror : step state' rest = .error e) {fuel : Nat} (hfuel : bytes.length ≤ fuel) :
    whileNonempty step fuel state bytes = .error e := by
  induction h generalizing fuel with
  | refl state bytes =>
    have hpos : 0 < bytes.length := List.length_pos_iff.2 hne
    obtain ⟨fuel, rfl⟩ := Nat.exists_eq_succ_of_ne_zero (by omega : fuel ≠ 0)
    rw [whileNonempty_succ hne, herror]
    rfl
  | @next state mid state' bytes t rest hbytes hstep _ ih =>
    have hlt := (hconsumes state).length_lt hstep
    obtain ⟨fuel, rfl⟩ := Nat.exists_eq_succ_of_ne_zero (by omega : fuel ≠ 0)
    rw [whileNonempty_succ hbytes, hstep]
    exact ih hne herror (by omega)

/-- The loop fails where one of its rounds does. -/
theorem loop_error (hconsumes : ∀ state, Consumes (step state))
    (h : Rounds step state bytes state' rest) {e : ε} (hne : rest ≠ [])
    (herror : step state' rest = .error e) : loop step state bytes = .error e :=
  h.whileNonempty_error hconsumes hne herror (Nat.le_refl _)

end Rounds

/-- From a state with the property `P`, a loop with enough fuel reads the whole of `bytes` and ends
in a state with the property `Q`, or it fails with an error in `E`. -/
def LoopFinishes (E : ε → Prop) (step : σ → Reader ε σ) (bytes : List UInt8) (P Q : σ → Prop) :
    Prop :=
  ∀ fuel state, bytes.length ≤ fuel → P state → Finishes E (whileNonempty step fuel state) bytes Q

namespace LoopFinishes

variable {E : ε → Prop} {step : σ → Reader ε σ} {P Q R : σ → Prop} {bytes rest : List UInt8}

theorem nil (himp : ∀ state, P state → Q state) : LoopFinishes E step [] P Q :=
  fun fuel state _ hP => .inl ⟨state, whileNonempty_nil step fuel state, himp state hP⟩

/-- One round, if there is anything for it to read. -/
theorem append (hnil : bytes = [] → ∀ state, P state → Q state)
    (hstep : bytes ≠ [] → ∀ state, P state → Parses E (step state) bytes Q)
    (hrest : LoopFinishes E step rest Q R) : LoopFinishes E step (bytes ++ rest) P R := by
  intro fuel state hfuel hP
  by_cases hempty : bytes = []
  · subst hempty
    exact hrest fuel state hfuel (hnil rfl state hP)
  · have hinput : bytes ++ rest ≠ [] := fun h => hempty (List.append_eq_nil_iff.1 h).1
    have hpos : 0 < bytes.length := List.length_pos_iff.2 hempty
    rw [List.length_append] at hfuel
    cases fuel with
    | zero => omega
    | succ fuel =>
      rcases (hstep hempty state hP).outcome rest with ⟨mid, hread, hQ⟩ | ⟨e, herror, he⟩
      · rcases hrest fuel mid (by omega) hQ with ⟨final, hfinal, hR⟩ | ⟨e, herror, he⟩
        · exact .inl ⟨final, (whileNonempty_succ_eq_ok hinput).2 ⟨mid, rest, hread, hfinal⟩, hR⟩
        · refine .inr ⟨e, ?_, he⟩
          rw [whileNonempty_succ hinput, hread]
          exact herror
      · refine .inr ⟨e, ?_, he⟩
        rw [whileNonempty_succ hinput, herror]
        rfl

/-- What the rounds establish from the end of the input backwards, the loop does. -/
theorem loop (h : LoopFinishes E step bytes P Q) {state : σ} (hP : P state) :
    Finishes E (Reader.loop step state) bytes Q :=
  h bytes.length state (Nat.le_refl _) hP

end LoopFinishes

section Chunks

variable {enc : α → List UInt8} {step : σ → Reader ε σ} (hne : ∀ a, enc a ≠ [])

include hne

/-- A loop over encoded elements is a fold over the elements. -/
theorem whileNonempty_foldlM {g : σ → α → Except ε σ}
    (hstep : ∀ state a rest, step state (enc a ++ rest) = (g state a).map (·, rest))
    {as : List α} {fuel : Nat} (hfuel : as.length ≤ fuel) (state : σ) :
    whileNonempty step fuel state (as.flatMap enc) = (as.foldlM g state).map (·, []) := by
  induction as generalizing fuel state with
  | nil => exact whileNonempty_nil step fuel state
  | cons a as ih =>
    cases fuel with
    | zero => exact absurd hfuel (Nat.not_succ_le_zero _)
    | succ fuel =>
      have hbytes : enc a ++ as.flatMap enc ≠ [] :=
        fun h => absurd (List.append_eq_nil_iff.1 h).1 (hne a)
      rw [List.flatMap_cons, List.foldlM_cons, whileNonempty_succ hbytes, hstep]
      cases g state a with
      | error e => rfl
      | ok next => exact ih (Nat.le_of_succ_le_succ hfuel) next

theorem length_le_length_flatMap (as : List α) : as.length ≤ (as.flatMap enc).length := by
  induction as with
  | nil => exact Nat.zero_le _
  | cons a as ih =>
    have hpos : 0 < (enc a).length := List.length_pos_iff.2 (hne a)
    simp only [List.flatMap_cons, List.length_append, List.length_cons]
    omega

/-- A loop over a concatenation of chunks, one chunk a round, is a fold over the chunks. -/
theorem loop_foldlM {g : σ → α → Except ε σ}
    (hstep : ∀ state a rest, step state (enc a ++ rest) = (g state a).map (·, rest))
    (as : List α) (state : σ) :
    loop step state (as.flatMap enc) = (as.foldlM g state).map (·, []) :=
  whileNonempty_foldlM hne hstep (length_le_length_flatMap hne as) state

/-- The same for rounds that cannot fail. -/
theorem loop_flatMap {f : σ → α → σ}
    (hstep : ∀ state a rest, step state (enc a ++ rest) = .ok (f state a, rest))
    (as : List α) (state : σ) :
    loop step state (as.flatMap enc) = .ok (as.foldl f state, []) := by
  have hloop := loop_foldlM (g := fun state a => pure (f state a)) hne hstep as state
  rw [List.foldlM_pure] at hloop
  exact hloop

end Chunks

end Loop

end Reader

end Codec
