import FractalWasm.IR.Types
import Mathlib.Data.List.Nodup

/-!
# Interned function types

`IR/Types.cpp`. A function type is known by its address, and all addresses come from
`FunctionType::get`, which makes an object for a type that its map does not have yet. Whatever is
asked for, two addresses are the same exactly if the types are.

**The map** (`findExistingOrCreateNew`): a lookup by an order on types, which is where two types
could be taken for one; that the order tells them apart is `eq_of_not_less`.

**Interning** (`Interned`): no two types have one address and no address is null, in every map that
calls of `get` have led to (`interned_of_gets`, by induction over the calls).
-/

namespace FractalWasm.IR

/-! ## Maps -/

section Map

variable {Key Value : Type}

/-- `std::map::find`: two keys of which neither is less are one. -/
def find (less : Key → Key → Bool) (map : List (Key × Value)) (key : Key) : Option Value :=
  (map.find? fun entry => !less entry.1 key && !less key entry.1).map Prod.snd

/-- `findExistingOrCreateNew`, where `created` is what the thunk returns. -/
def findExistingOrCreateNew (less : Key → Key → Bool) (map : List (Key × Value)) (key : Key)
    (created : Value) : Value × List (Key × Value) :=
  match find less map key with
  | some value => (value, map)
  | none => (created, map ++ [(key, created)])

variable [DecidableEq Key] {less : Key → Key → Bool}
  (hless : ∀ {key key' : Key}, less key key' = false → less key' key = false → key = key')
  (hirrefl : ∀ key, less key key = false)

include hless hirrefl

theorem find_eq_lookup (map : List (Key × Value)) (key : Key) :
    find less map key = map.lookup key := by
  induction map with
  | nil => rfl
  | cons entry map ih =>
    unfold find at ih ⊢
    rw [List.find?_cons, List.lookup_cons]
    by_cases h : key = entry.1
    · subst h
      simp [hirrefl]
    · have hordered : (!less entry.1 key && !less key entry.1) = false := by
        rw [Bool.and_eq_false_iff, Bool.not_eq_false', Bool.not_eq_false']
        by_contra hnot
        rw [not_or, Bool.not_eq_true, Bool.not_eq_true] at hnot
        exact h (hless hnot.2 hnot.1)
      rw [hordered, beq_false_of_ne h]
      exact ih

/-- What is found afterwards: the value for the key, and for other keys what was there. -/
theorem lookup_findExistingOrCreateNew (map : List (Key × Value)) (key : Key) (created : Value)
    (key' : Key) :
    (findExistingOrCreateNew less map key created).2.lookup key' =
      if key' = key then some (findExistingOrCreateNew less map key created).1
      else map.lookup key' := by
  unfold findExistingOrCreateNew
  rw [find_eq_lookup hless hirrefl]
  split
  · next value hvalue =>
    split
    · next heq => rw [heq, hvalue]
    · rfl
  · next hnone =>
    dsimp only
    rw [List.lookup_append, List.lookup_cons, List.lookup_nil]
    by_cases heq : key' = key
    · rw [if_pos heq, heq, hnone, BEq.rfl]
      rfl
    · rw [if_neg heq, beq_false_of_ne heq, Option.or_none]

end Map

/-! ## Function types -/

namespace FunctionTypeMap

/-- `operator<` of the keys. -/
def less (left right : FunctionType) : Bool :=
  left.ret.toByte < right.ret.toByte ||
    left.ret == right.ret &&
      decide (left.parameters.map ValueType.toByte < right.parameters.map ValueType.toByte)

theorem less_irrefl (type : FunctionType) : less type type = false := by
  simp [less]

theorem eq_of_not_less {left right : FunctionType} (h : less left right = false)
    (h' : less right left = false) : left = right := by
  obtain ⟨ret, parameters⟩ := left
  obtain ⟨ret', parameters'⟩ := right
  obtain ⟨hret, hparameters⟩ := Bool.or_eq_false_iff.1 h
  obtain ⟨hret', hparameters'⟩ := Bool.or_eq_false_iff.1 h'
  rw [decide_eq_false_iff_not, UInt8.lt_iff_toNat_lt] at hret hret'
  obtain rfl : ret = ret' := ResultType.toByte_injective (UInt8.toNat_inj.1 (by
    dsimp only at hret hret'
    omega))
  rw [BEq.rfl, Bool.true_and, decide_eq_false_iff_not] at hparameters hparameters'
  have hbytes := List.le_antisymm (List.not_lt.1 hparameters') (List.not_lt.1 hparameters)
  have hinjective : Function.Injective ValueType.toByte := fun _ _ => ValueType.toByte_injective
  exact congrArg _ (hinjective.list_map hbytes)

end FunctionTypeMap

/-- The map of the types and their addresses. -/
abbrev FunctionTypeMap := List (FunctionType × UInt64)

namespace FunctionTypeMap

/-- `FunctionType::get`, where `new` returns `address`. -/
def get (map : FunctionTypeMap) (type : FunctionType) (address : UInt64) :
    UInt64 × FunctionTypeMap :=
  findExistingOrCreateNew less map type address

/-- What `new` returns: no null pointer, and no address that is taken. Types are never deleted. -/
def Fresh (map : FunctionTypeMap) (address : UInt64) : Prop :=
  address ≠ 0 ∧ ∀ type, map.lookup type ≠ some address

/-- What becomes of a map while types are asked for. -/
inductive Gets (map : FunctionTypeMap) : FunctionTypeMap → Prop
  | refl : Gets map map
  | get {map' : FunctionTypeMap} (h : Gets map map') (type : FunctionType) {address : UInt64}
      (hnew : Fresh map' address) : Gets map (map'.get type address).2

/-- Addresses are types. -/
structure Interned (map : FunctionTypeMap) : Prop where
  injective : ∀ type type' address, map.lookup type = some address →
    map.lookup type' = some address → type = type'
  nonnull : ∀ type, map.lookup type ≠ some 0

theorem lookup_get (map : FunctionTypeMap) (type : FunctionType) (address : UInt64)
    (type' : FunctionType) :
    (map.get type address).2.lookup type' =
      if type' = type then some (map.get type address).1 else map.lookup type' :=
  lookup_findExistingOrCreateNew eq_of_not_less less_irrefl map type address type'

/-- Either the type is there already, or the new object is what is returned. -/
theorem get_cases (map : FunctionTypeMap) (type : FunctionType) (address : UInt64) :
    map.lookup type = some (map.get type address).1 ∨
      map.lookup type = none ∧ (map.get type address).1 = address := by
  unfold get findExistingOrCreateNew
  rw [find_eq_lookup eq_of_not_less less_irrefl]
  split
  · next value hvalue => exact .inl hvalue
  · next hnone => exact .inr ⟨hnone, rfl⟩

theorem interned_get {map : FunctionTypeMap} {address : UInt64} (h : Interned map)
    (type : FunctionType) (hnew : Fresh map address) : Interned (map.get type address).2 := by
  obtain ⟨hinjective, hnonnull⟩ := h
  rcases get_cases map type address with hold | ⟨-, hcreated⟩
  · have hsame : ∀ type', (map.get type address).2.lookup type' = map.lookup type' := by
      intro type'
      rw [lookup_get]
      split
      · next heq => rw [heq, hold]
      · rfl
    refine ⟨fun type' type'' => ?_, fun type' => ?_⟩
    · rw [hsame, hsame]
      exact hinjective type' type''
    · rw [hsame]
      exact hnonnull type'
  · refine ⟨fun type' type'' address' h' h'' => ?_, fun type' h' => ?_⟩
    · rw [lookup_get, hcreated] at h' h''
      split at h' <;> split at h''
      · next heq' heq'' => rw [heq', heq'']
      · cases h'
        exact absurd h'' (hnew.2 type'')
      · cases h''
        exact absurd h' (hnew.2 type')
      · exact hinjective type' type'' address' h' h''
    · rw [lookup_get, hcreated] at h'
      split at h'
      · exact hnew.1 (Option.some.inj h')
      · exact hnonnull type' h'

/-- Pointers that were returned stay. -/
theorem Gets.lookup {map map' : FunctionTypeMap} (h : Gets map map') {type : FunctionType}
    {address : UInt64} (htype : map.lookup type = some address) :
    map'.lookup type = some address := by
  induction h with
  | refl => exact htype
  | @get map' h type' address' hnew ih =>
    rw [lookup_get]
    split
    · next heq =>
      subst heq
      rcases get_cases map' type address' with hold | ⟨hnone, -⟩
      · rw [← hold, ih]
      · rw [hnone] at ih
        cases ih
    · exact ih

/-- **Interned types.** Of all types that were ever asked for the addresses are the same exactly if
the types are, and none is null. -/
theorem interned_of_gets {map : FunctionTypeMap} (h : Gets [] map) : Interned map := by
  induction h with
  | refl =>
    constructor
    · intro _ _ _ h
      cases h
    · intro _ h
      cases h
  | get h type hnew ih => exact interned_get ih type hnew

end FunctionTypeMap

end FractalWasm.IR
