import Mathlib.Data.List.Dedup
import FractalWasm.Wasmlib.IndexRemapping

/-!
# The types an injection adds

`add_type_slot` appends a function type only if the module has none like it. So an injection adds
one type for each signature of an intrinsic in use that the module lacks, and no more. This is an
invariant of `add_import`, and `add_import` is all that the passes do to the types of a module.

**The invariant** (`TypesAdded`): the types of the module, and behind them those that were missing, of
the intrinsics so far. It is kept by each step of `add_import`, and by every pass that has it do its
imports (`Injector.Keeps`).

**How many** (`length_types`): the signatures in use that the module lacks, each once (`newTypes`).
-/

namespace FractalWasm

open Codec Control IR WASM

namespace WasmInjections

open WasmOps

/-! ## Invariants of an injection -/

section Invariant

variable {P : Injection → Prop}

/-- An injector whose runs keep `P`. -/
def Injector.Keeps (P : Injection → Prop) (injector : Injector) : Prop :=
  ∀ {state state' : VisitState}, injector.accept state = .ok state' →
    P state.injection → P state'.injection

theorem keeps_passInjector : passInjector.Keeps P := by
  intro state state' haccept hP
  cases haccept
  exact hP

theorem keeps_softfloatInjector
    (hadd : ∀ {injection type name}, P injection → P (addImport type name injection).2)
    (type : FunctionType) (funcName : Except Exception Bytes) :
    (softfloatInjector type funcName).Keeps P := by
  intro state state' haccept hP
  obtain ⟨name, -, hrun⟩ := Except.bind_eq_ok.1 haccept
  cases hrun
  exact hadd hP

theorem keeps_fixCallIndex : fixCallIndex.Keeps P := by
  intro state state' haccept hP
  simp only [fixCallIndex] at haccept
  split at haccept
  · cases haccept
    exact hP
  · cases haccept
    exact hP

theorem keeps_preOpInjectors
    (hadd : ∀ {injection type name}, P injection → P (addImport type name injection).2)
    (slot : Slot) : (preOpInjectors slot).Keeps P := by
  cases slot with
  | none => exact keeps_passInjector
  | some opcode =>
    cases opcode with
    | numeric op =>
      rw [preOpInjectors_numeric]
      split
      · exact keeps_softfloatInjector hadd _ _
      · exact keeps_passInjector
    | _ => exact keeps_passInjector

theorem keeps_postOpInjectors (slot : Slot) : (postOpInjectors slot).Keeps P := by
  cases slot with
  | none => exact keeps_passInjector
  | some opcode =>
    cases opcode with
    | call => exact keeps_fixCallIndex
    | _ => exact keeps_passInjector

theorem visitStep_invariant {injectors : Slot → Injector} (hkeeps : ∀ slot, (injectors slot).Keeps P)
    {state state' : VisitState} {bytes rest : Bytes}
    (h : visitStep injectors state bytes = .ok (state', rest)) (hP : P state.injection) :
    P state'.injection := by
  obtain ⟨⟨slot, cached⟩, t, -, h⟩ := bind_eq_ok.1 h
  dsimp only at h
  split at h
  · obtain ⟨haccept, -⟩ := lift_eq_ok.1 h
    exact hkeeps slot haccept hP
  · obtain ⟨next, t', hlift, h⟩ := bind_eq_ok.1 h
    obtain ⟨haccept, rfl⟩ := lift_eq_ok.1 hlift
    have hnext : P next.injection := hkeeps slot haccept hP
    split at h
    · obtain ⟨rfl, -⟩ := pure_eq_ok.1 h
      exact hnext
    · obtain ⟨rfl, -⟩ := pure_eq_ok.1 h
      exact hnext

theorem visitPass_invariant {injectors : Slot → Injector} (hkeeps : ∀ slot, (injectors slot).Keeps P)
    {state state' : Injection × CachedOps} {code code' : Bytes}
    (h : visitPass injectors state code = .ok (state', code')) (hP : P state.1) : P state'.1 := by
  obtain ⟨⟨final, rest⟩, hloop, h⟩ := Except.bind_eq_ok.1 h
  cases h
  exact Reader.loop_invariant (P := fun (state : VisitState) _ => P state.injection)
    (fun hstate hstep => visitStep_invariant hkeeps hstep hstate) hP hloop

theorem forEachBody_invariant {σ : Type} {Q : σ → Prop}
    {pass : σ → Bytes → Except Exception (σ × Bytes)}
    (hpass : ∀ {state state' code code'}, pass state code = .ok (state', code') → Q state → Q state')
    {defs defs' : List FunctionDef} {state state' : σ}
    (h : forEachBody pass state defs = .ok (state', defs')) (hQ : Q state) : Q state' := by
  induction defs generalizing state defs' with
  | nil =>
    cases h
    exact hQ
  | cons fd defs ih =>
    obtain ⟨⟨mid, code⟩, hfd, h⟩ := Except.bind_eq_ok.1 h
    obtain ⟨⟨final, defs''⟩, hdefs, h⟩ := Except.bind_eq_ok.1 h
    cases h
    exact ih hdefs (hpass hfd hQ)

/-- What `add_import` keeps, and the exchange of bodies, is kept by the whole injection. -/
theorem inject_invariant
    (hadd : ∀ {injection type name}, P injection → P (addImport type name injection).2)
    (hdefs : ∀ {injection defs}, P injection →
      P { injection with module := withDefs injection.module defs })
    {m : Module} {caches caches' : Caches} {injection : Injection}
    (h : inject caches m = .ok (injection, caches'))
    (hinit : P ⟨maxMemoryInject m, (Injection.init m).utils⟩) : P injection := by
  have hvisit : ∀ {injectors : Slot → Injector} {cached cached' : CachedOps}
      {injection injection' : Injection}, (∀ slot, (injectors slot).Keeps P) →
      injectVisit injectors cached injection = .ok (injection', cached') →
      P injection → P injection' := by
    intro injectors cached cached' injection injection' hkeeps hrun hP
    obtain ⟨⟨⟨mid, midCached⟩, defs⟩, hpass, hrun⟩ := Except.bind_eq_ok.1 hrun
    cases hrun
    exact hdefs (forEachBody_invariant (Q := fun state : Injection × CachedOps => P state.1)
      (visitPass_invariant hkeeps) hpass hP)
  obtain ⟨⟨metered, usegas⟩, hmetered, h⟩ := Except.bind_eq_ok.1 h
  obtain ⟨⟨replaced, pre⟩, hreplaced, h⟩ := Except.bind_eq_ok.1 h
  obtain ⟨⟨injected, post⟩, hinjected, h⟩ := Except.bind_eq_ok.1 h
  cases h
  have hP : P metered := by
    obtain ⟨⟨cached, defs⟩, -, hrun⟩ := Except.bind_eq_ok.1 hmetered
    cases hrun
    exact hdefs (hadd hinit)
  exact hvisit keeps_postOpInjectors hinjected
    (hvisit (keeps_preOpInjectors hadd) hreplaced hP)

end Invariant

/-! ## The types added -/

/-- The types of an injection into a module with the types `types`: each added type is new and the
type of an import. -/
structure TypesAdded (types : List FunctionType) (injection : Injection) : Prop where
  slots : SlotsOk injection.utils.typeSlots injection.module.types
  complete : ∀ type ∈ injection.module.types,
    ∃ index, find injection.utils.typeSlots (typeSlot type) = some index
  room : injection.utils.registeredInjected.length ≤ injection.module.functions.imports.length
  added : ∃ more, injection.module.types = types ++ more ∧ more.Nodup ∧
    ∀ type ∈ more, type ∉ types ∧ ∃ imp ∈ injection.module.functions.imports,
      injection.module.types[imp.type]? = some type

theorem find_emplace_of_find {K V : Type} [DecidableEq K] {map : List (K × V)} {key key' : K}
    {value value' : V} (h : find map key = some value) :
    find (emplace map key' value') key = some value := by
  unfold emplace
  split
  · exact h
  · have hlookup : map.lookup key = some value := h
    rw [find, List.lookup_append, hlookup]
    rfl

theorem length_emplace_le {K V : Type} [DecidableEq K] (map : List (K × V)) (key : K) (value : V) :
    (emplace map key value).length ≤ map.length + 1 := by
  unfold emplace
  split
  · exact Nat.le_succ _
  · simp

/-- Every type of a module has a slot at first. -/
theorem complete_buildTypeSlots {types : List FunctionType} {type : FunctionType}
    (hmem : type ∈ types) : ∃ index, find (buildTypeSlots types) (typeSlot type) = some index := by
  have hfold : ∀ (pairs : List (FunctionType × Nat)) (slots : List (List Nat × Nat)),
      (∃ index, (type, index) ∈ pairs) ∨ (∃ index, find slots (typeSlot type) = some index) →
      ∃ index, find (pairs.foldl (fun slots type => emplace slots (typeSlot type.1) type.2) slots)
        (typeSlot type) = some index := by
    intro pairs
    induction pairs with
    | nil =>
      rintro slots (⟨index, hpair⟩ | hslot)
      · exact absurd hpair List.not_mem_nil
      · exact hslot
    | cons pair pairs ih =>
      intro slots h
      apply ih
      rcases h with ⟨index, hpair⟩ | ⟨index, hslot⟩
      · rcases List.mem_cons.1 hpair with rfl | hpair
        · cases hfind : find slots (typeSlot type) with
          | some old => exact .inr ⟨old, find_emplace_of_find hfind⟩
          | none => exact .inr ⟨index, find_emplace_self hfind⟩
        · exact .inl ⟨index, hpair⟩
      · exact .inr ⟨index, find_emplace_of_find hslot⟩
  obtain ⟨index, hlt, hget⟩ := List.mem_iff_getElem.1 hmem
  apply hfold
  refine .inl ⟨index, List.mem_zipIdx_iff_getElem?.2 ?_⟩
  rw [List.getElem?_eq_getElem hlt, hget]

namespace TypesAdded

variable {types : List FunctionType} {injection : Injection}

theorem init (m : Module) : TypesAdded m.types ⟨maxMemoryInject m, (Injection.init m).utils⟩ where
  slots := by
    rw [types_maxMemoryInject]
    exact .buildTypeSlots m.types
  complete := by
    rw [types_maxMemoryInject]
    exact fun type hmem => complete_buildTypeSlots hmem
  room := Nat.zero_le _
  added := by
    rw [types_maxMemoryInject]
    exact ⟨[], (List.append_nil _).symm, List.nodup_nil, fun _ hmem => absurd hmem List.not_mem_nil⟩

theorem withDefs (h : TypesAdded types injection) (defs : List FunctionDef) :
    TypesAdded types { injection with module := withDefs injection.module defs } :=
  ⟨h.slots, h.complete, h.room, h.added⟩

/-- The type of the next import: it is there already, or `add_type_slot` appends it. -/
theorem addTypeSlot (h : TypesAdded types injection) (type : FunctionType) :
    (∃ index, addTypeSlot type injection = injection ∧
        find injection.utils.typeSlots (typeSlot type) = some index ∧
        injection.module.types[index]? = some type) ∨
      (find injection.utils.typeSlots (typeSlot type) = none ∧ type ∉ injection.module.types) := by
  cases hfind : find injection.utils.typeSlots (typeSlot type) with
  | some index =>
    obtain ⟨type', htype, hslot⟩ := h.slots.type_eq hfind
    obtain rfl := typeSlot_injective hslot
    refine .inl ⟨index, ?_, rfl, htype⟩
    simp only [WasmInjections.addTypeSlot, hfind]
  | none =>
    refine .inr ⟨rfl, fun hmem => ?_⟩
    obtain ⟨index, hindex⟩ := h.complete type hmem
    rw [hfind] at hindex
    cases hindex

/-- One more import, of a type the module has by now. -/
theorem insertImport (hslots : SlotsOk injection.utils.typeSlots injection.module.types)
    (hcomplete : ∀ type ∈ injection.module.types,
      ∃ index, find injection.utils.typeSlots (typeSlot type) = some index)
    (hroom : injection.utils.registeredInjected.length ≤ injection.module.functions.imports.length)
    {index : Nat} (funcName : Bytes)
    (hadded : ∃ more, injection.module.types = types ++ more ∧ more.Nodup ∧
      ∀ type ∈ more, type ∉ types ∧ (injection.module.types[index]? = some type ∨
        ∃ imp ∈ injection.module.functions.imports,
          injection.module.types[imp.type]? = some type)) :
    TypesAdded types (insertImport index funcName injection).2 := by
  have hlength := length_emplace_le injection.utils.registeredInjected funcName
    (getNextIndices injection).1
  have hplace : (emplace injection.utils.registeredInjected funcName
      (getNextIndices injection).1).length - 1 ≤ injection.module.functions.imports.length := by
    omega
  obtain ⟨more, htypes, hnodup, hmore⟩ := hadded
  refine ⟨hslots, hcomplete, ?_, more, htypes, hnodup, fun type hmem => ?_⟩
  · have hinserted := List.length_insertIdx_of_le_length hplace
      (⟨index, injectedModuleName, funcName⟩ : Import Nat)
    exact Nat.le_trans hlength (Nat.le_trans (Nat.succ_le_succ hroom) (Nat.le_of_eq hinserted.symm))
  · obtain ⟨hnew, hindex | ⟨imp, himp, htype⟩⟩ := hmore type hmem
    · exact ⟨hnew, _, (List.mem_insertIdx hplace).2 (.inl rfl), hindex⟩
    · exact ⟨hnew, imp, (List.mem_insertIdx hplace).2 (.inr himp), htype⟩

theorem addImport (h : TypesAdded types injection) (type : FunctionType) (funcName : Bytes) :
    TypesAdded types (addImport type funcName injection).2 := by
  obtain ⟨more, htypes, hnodup, hmore⟩ := h.added
  unfold WasmInjections.addImport
  split
  · exact h
  · rcases h.addTypeSlot type with ⟨index, hsame, -, -⟩ | ⟨hfind, hnew⟩
    · simp only [hsame]
      apply insertImport h.slots h.complete h.room
      exact ⟨more, htypes, hnodup, fun type hmem => ⟨(hmore type hmem).1, .inr (hmore type hmem).2⟩⟩
    · have hext := List.prefix_append injection.module.types [type]
      have htype : (injection.module.types ++ [type])[injection.module.types.length]? =
          some type := by simp
      have hself : find (emplace injection.utils.typeSlots (typeSlot type)
          injection.module.types.length) (typeSlot type) = some injection.module.types.length :=
        find_emplace_self hfind
      simp only [WasmInjections.addTypeSlot, hfind, hself, Option.getD_some]
      apply insertImport
      · exact (h.slots.extend hext).emplace htype
      · intro type' hmem
        rcases List.mem_append.1 hmem with hmem | hmem
        · obtain ⟨index, hindex⟩ := h.complete type' hmem
          exact ⟨index, find_emplace_of_find hindex⟩
        · rw [List.mem_singleton.1 hmem]
          exact ⟨_, hself⟩
      · exact h.room
      · rw [htypes, List.mem_append, not_or] at hnew
        refine ⟨more ++ [type], by rw [htypes, List.append_assoc], ?_, fun type' hmem => ?_⟩
        · exact hnodup.append (List.nodup_singleton type) (by simpa using hnew.2)
        · rcases List.mem_append.1 hmem with hmem | hmem
          · obtain ⟨hother, imp, himp, hget⟩ := hmore type' hmem
            obtain ⟨hlt, -⟩ := List.getElem?_eq_some_iff.1 hget
            refine ⟨hother, .inr ⟨imp, himp, ?_⟩⟩
            rw [List.getElem?_append_left hlt, hget]
          · rw [List.mem_singleton.1 hmem]
            exact ⟨hnew.1, .inl htype⟩

end TypesAdded

/-- The signatures of the intrinsics in use that the module lacks. -/
def newTypes (m : Module) : List FunctionType :=
  ((firstUses m).map Intrinsic.type).dedup.filter (· ∉ m.types)

/-- What is behind the module's types, in some order. -/
theorem exists_perm_newTypes {m : Module} {caches caches' : Caches} {injection : Injection}
    (hinject : inject caches m = .ok (injection, caches')) (h : Injected m injection)
    (hvalid : ValidDefinitions m) :
    ∃ more, injection.module.types = m.types ++ more ∧ more.Perm (newTypes m) := by
  have hadded : TypesAdded m.types injection :=
    inject_invariant (fun h => h.addImport _ _) (fun h => h.withDefs _) hinject (.init m)
  obtain ⟨more, htypes, hnodup, hmore⟩ := hadded.added
  refine ⟨more, htypes, ?_⟩
  have hnodup' : (newTypes m).Nodup := (List.nodup_dedup _).filter _
  rw [List.perm_ext_iff_of_nodup hnodup hnodup']
  intro type
  simp only [newTypes, ← usedIntrinsics_eq, List.mem_filter, List.mem_dedup, List.mem_map,
    decide_eq_true_eq]
  constructor
  · intro hmem
    obtain ⟨hnew, imp, himp, hget⟩ := hmore type hmem
    refine ⟨?_, hnew⟩
    obtain ⟨injected, himports, hall⟩ := h.registered.imports
    rw [himports, functions_maxMemoryInject] at himp
    rcases List.mem_append.1 himp with hmem | hmem
    · obtain ⟨i, hi, rfl⟩ := List.mem_iff_getElem.1 hmem
      have hi' : i < (usedIntrinsics m).length := hall.length_eq ▸ hi
      have himport := (hall.get hi hi').type
      refine ⟨_, List.getElem_mem hi', ?_⟩
      exact Option.some.inj (himport.symm.trans hget)
    · have hlt := hvalid.importTypes imp hmem
      rw [htypes, List.getElem?_append_left hlt] at hget
      exact absurd (List.mem_of_getElem? hget) hnew
  · rintro ⟨⟨x, hx, rfl⟩, hnew⟩
    obtain ⟨i, hi, rfl⟩ := List.mem_iff_getElem.1 hx
    obtain ⟨imp, -, himport⟩ := h.importOf_used (List.getElem?_eq_getElem hi)
    have hmem := List.mem_of_getElem? himport.type
    rw [htypes] at hmem
    exact (List.mem_append.1 hmem).resolve_left hnew

/-- The number of types after the injection. -/
theorem length_types {m : Module} {caches caches' : Caches} {injection : Injection}
    (hinject : inject caches m = .ok (injection, caches')) (h : Injected m injection)
    (hvalid : ValidDefinitions m) :
    injection.module.types.length = m.types.length + (newTypes m).length := by
  obtain ⟨more, htypes, hperm⟩ := exists_perm_newTypes hinject h hvalid
  rw [htypes, List.length_append, hperm.length_eq]

end WasmInjections

end FractalWasm
