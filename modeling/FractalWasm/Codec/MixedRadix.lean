import Mathlib.Algebra.Order.Ring.Nat
import Mathlib.Data.Nat.Basic

/-!
# Mixed radix numbers

Numbers written with a radix for each place, the most significant place first: `value` is the number
that digits stand for, `digits` the digits of a number.

**Bijection** (`Fits`): digits that fit their radices and numbers below the product of the radices
(`capacity`) correspond to each other.

**Order** (`value_lt_value_iff`): numbers are ordered as their digit strings are, lexicographically.
So are strings whose trailing zeros have been left out (`Trimmed`), since zeros put back at the end
do not change the order of two of them (`lex_append_zeros`).
-/

namespace Codec.MixedRadix

/-- How many numbers the places can write. -/
def capacity : List Nat → Nat
  | [] => 1
  | radix :: radices => radix * capacity radices

/-- The number the digits stand for. -/
def value : List Nat → List Nat → Nat
  | _ :: radices, digit :: digits => digit * capacity radices + value radices digits
  | _, _ => 0

/-- The digits of a number. -/
def digits : List Nat → Nat → List Nat
  | [], _ => []
  | radix :: radices, n => n / capacity radices % radix :: digits radices (n % capacity radices)

/-- One digit for each place, below its radix. -/
inductive Fits : List Nat → List Nat → Prop where
  | nil : Fits [] []
  | cons {radix digit : Nat} {radices digits : List Nat} (hdigit : digit < radix)
      (hrest : Fits radices digits) : Fits (radix :: radices) (digit :: digits)

variable {radices ds es : List Nat}

theorem Fits.length_eq (h : Fits radices ds) : radices.length = ds.length := by
  induction h with
  | nil => rfl
  | cons _ _ ih => simp [ih]

theorem Fits.concat (h : Fits radices ds) {radix digit : Nat} (hdigit : digit < radix) :
    Fits (radices ++ [radix]) (ds ++ [digit]) := by
  induction h with
  | nil => exact .cons hdigit .nil
  | cons hhead _ ih => exact .cons hhead ih

theorem Fits.lt_of_le (h : Fits radices ds) {bound : Nat}
    (hbound : ∀ radix ∈ radices, radix ≤ bound) : ∀ d ∈ ds, d < bound := by
  induction h with
  | nil => exact fun d hd => absurd hd List.not_mem_nil
  | cons hdigit _ ih =>
    intro d hd
    rcases List.mem_cons.1 hd with rfl | hd
    · exact Nat.lt_of_lt_of_le hdigit (hbound _ List.mem_cons_self)
    · exact ih (fun radix hr => hbound radix (List.mem_cons_of_mem _ hr)) d hd

theorem fits_replicate {count radix : Nat} (hlen : ds.length = count) (h : ∀ d ∈ ds, d < radix) :
    Fits (List.replicate count radix) ds := by
  induction ds generalizing count with
  | nil =>
    subst hlen
    exact .nil
  | cons d ds ih =>
    subst hlen
    exact .cons (h d List.mem_cons_self) (ih rfl fun e he => h e (List.mem_cons_of_mem d he))

/-! ## Digits and numbers -/

theorem value_lt_capacity (h : Fits radices ds) : value radices ds < capacity radices := by
  induction h with
  | nil => exact Nat.one_pos
  | @cons radix digit radices ds hdigit _ ih =>
    calc digit * capacity radices + value radices ds
      _ < digit * capacity radices + capacity radices := Nat.add_lt_add_left ih _
      _ = (digit + 1) * capacity radices := (Nat.succ_mul _ _).symm
      _ ≤ radix * capacity radices := Nat.mul_le_mul_right _ hdigit

theorem digits_value (h : Fits radices ds) : digits radices (value radices ds) = ds := by
  induction h with
  | nil => rfl
  | @cons radix digit radices ds hdigit hrest ih =>
    have hlt := value_lt_capacity hrest
    have hpos : 0 < capacity radices := Nat.zero_lt_of_lt hlt
    have hdiv : (digit * capacity radices + value radices ds) / capacity radices = digit := by
      rw [Nat.mul_comm, Nat.mul_add_div hpos, Nat.div_eq_of_lt hlt, Nat.add_zero]
    have hmod : (digit * capacity radices + value radices ds) % capacity radices =
        value radices ds := by
      rw [Nat.mul_comm, Nat.mul_add_mod, Nat.mod_eq_of_lt hlt]
    rw [value, digits, hdiv, hmod, ih, Nat.mod_eq_of_lt hdigit]

theorem fits_digits (hpos : ∀ radix ∈ radices, 0 < radix) (n : Nat) :
    Fits radices (digits radices n) := by
  induction radices generalizing n with
  | nil => exact .nil
  | cons radix radices ih =>
    exact .cons (Nat.mod_lt _ (hpos radix List.mem_cons_self))
      (ih (fun r hr => hpos r (List.mem_cons_of_mem radix hr)) _)

theorem value_digits {n : Nat} (h : n < capacity radices) :
    value radices (digits radices n) = n := by
  induction radices generalizing n with
  | nil => exact (Nat.lt_one_iff.1 h).symm
  | cons radix radices ih =>
    rw [capacity] at h
    have hpos : 0 < capacity radices := by
      refine Nat.pos_of_ne_zero fun hzero => ?_
      rw [hzero, Nat.mul_zero] at h
      exact Nat.not_lt_zero _ h
    have hdiv : n / capacity radices < radix := Nat.div_lt_of_lt_mul (by rwa [Nat.mul_comm])
    rw [digits, value, ih (Nat.mod_lt _ hpos), Nat.mod_eq_of_lt hdiv]
    exact Nat.div_add_mod' _ _

/-! ## More places -/

theorem capacity_append (radices radices' : List Nat) :
    capacity (radices ++ radices') = capacity radices * capacity radices' := by
  induction radices with
  | nil => simp [capacity]
  | cons radix radices ih => rw [List.cons_append, capacity, ih, capacity, Nat.mul_assoc]

theorem capacity_replicate (count radix : Nat) :
    capacity (List.replicate count radix) = radix ^ count := by
  induction count with
  | zero => rfl
  | succ count ih => rw [List.replicate_succ, capacity, ih, Nat.pow_succ']

theorem value_append (h : radices.length = ds.length) (radices' es : List Nat) :
    value (radices ++ radices') (ds ++ es) =
      value radices ds * capacity radices' + value radices' es := by
  induction radices generalizing ds with
  | nil =>
    obtain rfl := List.length_eq_zero_iff.1 h.symm
    simp [value]
  | cons radix radices ih =>
    cases ds with
    | nil => cases h
    | cons d ds =>
      rw [List.cons_append, List.cons_append, value, ih (Nat.succ.inj h), capacity_append, value,
        Nat.add_mul, Nat.mul_assoc, Nat.add_assoc]

theorem value_zeros (radices : List Nat) (count : Nat) :
    value radices (List.replicate count 0) = 0 := by
  induction radices generalizing count with
  | nil => rfl
  | cons radix radices ih =>
    cases count with
    | zero => rfl
    | succ count => rw [List.replicate_succ, value, Nat.zero_mul, Nat.zero_add, ih]

theorem digits_concat (radices : List Nat) (radix n : Nat) :
    digits (radices ++ [radix]) n = digits radices (n / radix) ++ [n % radix] := by
  induction radices generalizing n with
  | nil => simp [digits, capacity]
  | cons first radices ih =>
    have hmod : n % (capacity radices * radix) % radix = n % radix :=
      Nat.mod_mod_of_dvd _ (Nat.dvd_mul_left _ _)
    have hdiv : n % (capacity radices * radix) / radix = n / radix % capacity radices :=
      Nat.mod_mul_left_div_self _ _ _
    have hhead : n / (capacity radices * radix) = n / radix / capacity radices := by
      rw [Nat.div_div_eq_div_mul, Nat.mul_comm]
    have hcapacity : capacity (radices ++ [radix]) = capacity radices * radix := by
      rw [capacity_append, capacity, capacity, Nat.mul_one]
    rw [List.cons_append, digits, ih, hcapacity, hmod, hdiv, hhead, digits, List.cons_append]

/-! ## Order -/

theorem value_lt_value_iff (hds : Fits radices ds) (hes : Fits radices es) :
    value radices ds < value radices es ↔ List.Lex (· < ·) ds es := by
  induction hds generalizing es with
  | nil =>
    cases hes
    exact iff_of_false (Nat.lt_irrefl _) List.not_lex_nil
  | @cons radix d radices ds _ hrest ih =>
    cases hes with
    | @cons _ e _ es _ hrest' =>
      have hd := value_lt_capacity hrest
      have he := value_lt_capacity hrest'
      rw [value, value]
      rcases Nat.lt_trichotomy d e with hlt | rfl | hgt
      · have := Nat.mul_le_mul_right (capacity radices) (Nat.succ_le_of_lt hlt)
        rw [Nat.succ_mul] at this
        exact iff_of_true (by omega) (.rel hlt)
      · rw [Nat.add_lt_add_iff_left, ih hrest']
        exact ⟨.cons, fun hlex => by
          cases hlex with
          | rel hself => exact absurd hself (Nat.lt_irrefl _)
          | cons hlex => exact hlex⟩
      · have := Nat.mul_le_mul_right (capacity radices) (Nat.succ_le_of_lt hgt)
        rw [Nat.succ_mul] at this
        refine iff_of_false (by omega) fun hlex => ?_
        cases hlex with
        | rel hself => exact Nat.lt_asymm hgt hself
        | cons _ => exact Nat.lt_irrefl _ hgt

/-- No zero at the end. -/
def Trimmed (ds : List Nat) : Prop := ds.getLast? ≠ some 0

theorem Trimmed.tail {d : Nat} (h : Trimmed (d :: ds)) : Trimmed ds := by
  cases ds with
  | nil => simp [Trimmed]
  | cons e es => simpa [Trimmed, List.getLast?_cons_cons] using h

/-- A trimmed string with a digit is above all zeros. -/
theorem lex_replicate_zero {count : Nat} (htrimmed : Trimmed ds) (hne : ds ≠ [])
    (rest : List Nat) : List.Lex (· < ·) (List.replicate count 0) (ds ++ rest) := by
  induction ds generalizing count with
  | nil => exact absurd rfl hne
  | cons d ds ih =>
    cases count with
    | zero => exact .nil
    | succ count =>
      rcases Nat.eq_zero_or_pos d with rfl | hpos
      · have hds : ds ≠ [] := by
          rintro rfl
          exact htrimmed rfl
        exact .cons (ih htrimmed.tail hds)
      · exact .rel hpos

theorem not_lex_replicate_zero (ds : List Nat) {count : Nat} (hlen : ds.length = count) :
    ¬ List.Lex (· < ·) ds (List.replicate count 0) := by
  induction ds generalizing count with
  | nil =>
    subst hlen
    exact List.not_lex_nil
  | cons d ds ih =>
    subst hlen
    intro hlex
    cases hlex with
    | rel hlt => exact Nat.not_lt_zero _ hlt
    | cons hlex => exact ih rfl hlex

/-- Zeros put back at the end do not change the order of trimmed strings. -/
theorem lex_append_zeros {count count' : Nat} (hds : Trimmed ds) (hes : Trimmed es)
    (hlen : ds.length + count = es.length + count') :
    List.Lex (· < ·) (ds ++ List.replicate count 0) (es ++ List.replicate count' 0) ↔
      List.Lex (· < ·) ds es := by
  induction ds generalizing es with
  | nil =>
    cases es with
    | nil =>
      have hcount : count = count' := by simpa using hlen
      subst hcount
      exact iff_of_false (not_lex_replicate_zero _ (by simp)) List.not_lex_nil
    | cons e es =>
      exact iff_of_true (lex_replicate_zero hes (List.cons_ne_nil _ _) _) .nil
  | cons d ds ih =>
    cases es with
    | nil =>
      refine iff_of_false (not_lex_replicate_zero _ ?_) List.not_lex_nil
      simp only [List.length_append, List.length_replicate, List.length_nil] at hlen ⊢
      omega
    | cons e es =>
      have hrest := ih hds.tail hes.tail (by
        simp only [List.length_cons] at hlen
        omega)
      constructor
      · intro hlex
        cases hlex with
        | rel hlt => exact .rel hlt
        | cons hlex => exact .cons (hrest.1 hlex)
      · intro hlex
        cases hlex with
        | rel hlt => exact .rel hlt
        | cons hlex => exact .cons (hrest.2 hlex)

end Codec.MixedRadix
