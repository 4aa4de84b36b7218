import FractalWasm.WASM.Decoded

/-!
# The sections of a binary

The decoder counts the bodies of the code section against the declared functions when it reads that
section, which a binary may leave out. What a binary declares and which sections it has is read off
its bytes here without decoding their contents.

**Frames** (`serializeFrames`): a section by its type and its bytes. Decoding a section reads its
frame, whatever is inside.

**Counts** (`declaredFunctions`, `functionBodies`): the numbers in front of the function section and
the code section. Every declared function has a validated body exactly when there is a code section
or nothing is declared.
-/

namespace FractalWasm.WASM

open Codec IR Serialization

/-- The type and the contents of the next section. -/
def serializeFrame : InputReader (UInt8 × Bytes) := do
  let sectionType := (← advance 1).headD 0
  let numSectionBytes ← serializeVarUInt32
  let sectionBytes ← advance numSectionBytes
  return (sectionType, sectionBytes)

def serializeNextFrame (sections : List (UInt8 × Bytes)) : InputReader (List (UInt8 × Bytes)) := do
  return sections ++ [← serializeFrame]

def serializeFrames : InputReader (List (UInt8 × Bytes)) := do
  serializeConstantU32 "magic number" magicNumber
  serializeConstantU32 "version" currentVersion
  Reader.loop serializeNextFrame []

/-- The sections behind the header of a binary; none if they do not fill it. -/
def sections (bytes : Bytes) : List (UInt8 × Bytes) :=
  match serializeFrames bytes with
  | .ok (sections, _) => sections
  | .error _ => []

/-- The number at the start of a section of the given type, which counts the section's items. -/
def itemCount (sectionType : UInt8) (sections : List (UInt8 × Bytes)) : Nat :=
  match sections.lookup sectionType with
  | none => 0
  | some sectionBytes =>
    match serializeVarUInt32 sectionBytes with
    | .ok (numItems, _) => numItems
    | .error _ => 0

/-- The number of functions the function section declares. -/
def declaredFunctions : List (UInt8 × Bytes) → Nat := itemCount 3

/-- The number of bodies the code section announces. -/
def functionBodies : List (UInt8 × Bytes) → Nat := itemCount 10

def HasCodeSection (sections : List (UInt8 × Bytes)) : Prop :=
  10 ∈ sections.map Prod.fst

instance (sections : List (UInt8 × Bytes)) : Decidable (HasCodeSection sections) :=
  inferInstanceAs (Decidable (10 ∈ sections.map Prod.fst))

/-! ## Decoding a section reads its frame -/

theorem serializeSection_frame {α : Type} {sectionBody : InputReader α} {a : α}
    {sectionType : UInt8} {tail rest : Bytes}
    (h : serializeSection sectionBody (sectionType :: tail) = .ok (a, rest)) :
    ∃ sectionBytes, serializeFrame (sectionType :: tail) = .ok ((sectionType, sectionBytes), rest) ∧
      sectionBody sectionBytes = .ok (a, []) := by
  obtain ⟨taken, t₁, htype, h⟩ := bind_eq_ok.1 h
  obtain ⟨numSectionBytes, t₂, hnum, h⟩ := bind_eq_ok.1 h
  obtain ⟨sectionBytes, t₃, hbytes, h⟩ := bind_eq_ok.1 h
  obtain ⟨⟨b, left⟩, t₄, hlift, h⟩ := bind_eq_ok.1 h
  obtain ⟨hbody, rfl⟩ := lift_eq_ok.1 hlift
  obtain ⟨u, t₅, hthrow, h⟩ := bind_eq_ok.1 h
  obtain ⟨hleft, rfl⟩ := throwIf_eq_ok.1 hthrow
  obtain ⟨rfl, rfl⟩ := pure_eq_ok.1 h
  have hnil : left = [] := by simpa using hleft
  have htaken : taken.headD 0 = sectionType := by
    obtain ⟨happend, hlen⟩ := advance_eq_ok.1 htype
    obtain ⟨byte, rfl⟩ := List.length_eq_one_iff.1 hlen
    exact (List.cons_eq_cons.1 happend).1.symm
  refine ⟨sectionBytes, ?_, by rw [hbody, hnil]⟩
  refine bind_eq_ok.2 ⟨taken, t₁, htype, bind_eq_ok.2 ⟨numSectionBytes, t₂, hnum, ?_⟩⟩
  exact bind_eq_ok.2 ⟨sectionBytes, _, hbytes, pure_eq_ok.2 ⟨by rw [htaken], rfl⟩⟩

theorem serializeFrame_inj {bytes rest sectionBytes sectionBytes' : Bytes} {sectionType : UInt8}
    (h : serializeFrame bytes = .ok ((sectionType, sectionBytes), rest))
    (h' : serializeFrame bytes = .ok ((sectionType, sectionBytes'), rest)) :
    sectionBytes = sectionBytes' := by
  have heq := h.symm.trans h'
  simp only [Except.ok.injEq, Prod.mk.injEq, true_and, and_true] at heq
  exact heq

theorem serializeKnownSection_cases (sectionType : UInt8) (module : Module) :
    (∃ sectionBody, serializeKnownSection sectionType module = serializeSection sectionBody) ∨
      serializeKnownSection sectionType module = throwFatal "unknown section ID" := by
  unfold serializeKnownSection
  split
  all_goals first
    | exact .inl ⟨_, rfl⟩
    | exact .inr rfl

/-- Every known section is read as a frame. -/
theorem serializeKnownSection_frame {sectionType : UInt8} {module module' : Module}
    {tail rest : Bytes}
    (h : serializeKnownSection sectionType module (sectionType :: tail) = .ok (module', rest)) :
    ∃ sectionBytes, serializeFrame (sectionType :: tail) =
      .ok ((sectionType, sectionBytes), rest) := by
  rcases serializeKnownSection_cases sectionType module with ⟨sectionBody, hbody⟩ | hthrow
  · rw [hbody] at h
    obtain ⟨sectionBytes, hread, -⟩ := serializeSection_frame h
    exact ⟨sectionBytes, hread⟩
  · rw [hthrow] at h
    exact (throwFatal_eq_ok.1 h).elim

theorem serializeUserSection_frame {module module' : Module} {tail rest : Bytes}
    (h : serializeUserSection module (0 :: tail) = .ok (module', rest)) :
    ∃ sectionBytes, serializeFrame (0 :: tail) = .ok ((0, sectionBytes), rest) := by
  obtain ⟨u, t₁, hconstant, h⟩ := bind_eq_ok.1 h
  obtain ⟨numSectionBytes, t₂, hnum, h⟩ := bind_eq_ok.1 h
  obtain ⟨sectionBytes, t₃, hbytes, h⟩ := bind_eq_ok.1 h
  obtain ⟨p, t₄, hlift, h⟩ := bind_eq_ok.1 h
  obtain ⟨-, rfl⟩ := lift_eq_ok.1 hlift
  obtain ⟨u, t₅, hassert, h⟩ := bind_eq_ok.1 h
  obtain ⟨-, rfl⟩ := lift_eq_ok.1 hassert
  obtain ⟨-, rfl⟩ := pure_eq_ok.1 h
  obtain ⟨byte, t, hbyte, hthrow⟩ := bind_eq_ok.1 hconstant
  obtain ⟨-, rfl⟩ := throwIf_eq_ok.1 hthrow
  obtain ⟨taken, t', htaken, hpure⟩ := bind_eq_ok.1 hbyte
  obtain ⟨-, rfl⟩ := pure_eq_ok.1 hpure
  obtain ⟨-, happend, hlen⟩ := serializeBytes_eq_ok.1 htaken
  have hadvance : advance 1 (0 :: tail) = .ok (taken, t') := advance_eq_ok.2 ⟨happend, hlen⟩
  have hzero : taken.headD 0 = 0 := by
    obtain ⟨byte, rfl⟩ := List.length_eq_one_iff.1 hlen
    exact (List.cons_eq_cons.1 happend).1.symm
  refine ⟨sectionBytes, bind_eq_ok.2 ⟨taken, t', hadvance, ?_⟩⟩
  refine bind_eq_ok.2 ⟨numSectionBytes, t₂, hnum, bind_eq_ok.2 ⟨sectionBytes, t₃, hbytes, ?_⟩⟩
  exact pure_eq_ok.2 ⟨by rw [hzero], rfl⟩

/-! ## Bodies and declarations -/

/-- The validator accepted the body of every function. -/
def AllBodies (module : Module) : Prop := ∀ functionDef ∈ module.functions.defs,
  HasBody module functionDef

/-- A function without code has no accepted body: its own frame is never closed. -/
theorem not_hasBody_of_code_eq_nil {module : Module} {functionDef : FunctionDef}
    (h : functionDef.code = []) : ¬ HasBody module functionDef := by
  rintro ⟨ops, hcode, -, context, hvisit, hdone⟩
  obtain rfl : ops = [] := encodeOps_injective (hcode.symm.trans h)
  obtain ⟨-, rfl⟩ := pure_eq_ok.1 hvisit
  cases hdone

theorem AllBodies.congr {m m' : Module} (hsame : SameSignatures m m')
    (hdefs : m'.functions.defs = m.functions.defs) (h : AllBodies m) : AllBodies m' := by
  unfold AllBodies
  rw [hdefs]
  exact fun functionDef hmem => (h functionDef hmem).congr hsame

/-- What the sections read so far say about the module so far. -/
structure ReadsSections (state : ModuleState) (sections : List (UInt8 × Bytes)) : Prop where
  invariant : SectionInvariant state.lastKnownSectionType state.module
  ordered : ∀ entry ∈ sections, entry.1 ≤ state.lastKnownSectionType
  bodies : HasCodeSection sections → AllBodies state.module
  noBodies : ¬ HasCodeSection sections → NoBodies state.module
  declared : state.module.functions.defs.length = declaredFunctions sections
  counted : HasCodeSection sections → functionBodies sections = declaredFunctions sections

theorem hasCodeSection_append {sections : List (UInt8 × Bytes)} {sectionType : UInt8}
    {sectionBytes : Bytes} (hne : sectionType ≠ 10) :
    HasCodeSection (sections ++ [(sectionType, sectionBytes)]) ↔ HasCodeSection sections := by
  unfold HasCodeSection
  rw [List.map_append, List.mem_append, List.map_singleton, List.mem_singleton]
  exact ⟨fun h => h.resolve_right fun heq => hne heq.symm, .inl⟩

theorem itemCount_append {sections : List (UInt8 × Bytes)} {sectionType other : UInt8}
    {sectionBytes : Bytes} (hne : other ≠ sectionType) :
    itemCount sectionType (sections ++ [(other, sectionBytes)]) =
      itemCount sectionType sections := by
  have hbeq : (sectionType == other) = false := by simpa using Ne.symm hne
  have hlookup : (sections ++ [(other, sectionBytes)]).lookup sectionType =
      sections.lookup sectionType := by
    rw [List.lookup_append, List.lookup_cons, hbeq, List.lookup_nil, Option.or_none]
  rw [itemCount, hlookup, itemCount]

theorem itemCount_append_self {sections : List (UInt8 × Bytes)} {sectionType : UInt8}
    {sectionBytes left : Bytes} {numItems : Nat}
    (hnew : ∀ entry ∈ sections, entry.1 ≠ sectionType)
    (hnum : serializeVarUInt32 sectionBytes = .ok (numItems, left)) :
    itemCount sectionType (sections ++ [(sectionType, sectionBytes)]) = numItems := by
  have hlookup : (sections ++ [(sectionType, sectionBytes)]).lookup sectionType =
      some sectionBytes := by
    induction sections with
    | nil => simp
    | cons entry sections ih =>
      obtain ⟨sectionType', bytes⟩ := entry
      have hne : (sectionType == sectionType') = false := by
        simpa using Ne.symm (hnew (sectionType', bytes) List.mem_cons_self)
      rw [List.cons_append, List.lookup_cons, hne]
      exact ih fun entry hmem => hnew entry (List.mem_cons_of_mem _ hmem)
  simp only [itemCount, hlookup, hnum]

theorem itemCount_of_not_mem {sections : List (UInt8 × Bytes)} {sectionType : UInt8}
    (h : sectionType ∉ sections.map Prod.fst) : itemCount sectionType sections = 0 := by
  have hlookup : sections.lookup sectionType = none := by
    rw [List.lookup_eq_none_iff]
    intro entry hmem
    have hne : sectionType ≠ entry.1 := fun heq => h (heq ▸ List.mem_map_of_mem hmem)
    simpa using hne
  rw [itemCount, hlookup]

/-- Only the function section and the code section write definitions. -/
theorem returns_defs {sectionType : UInt8} {module : Module}
    (hlt : module.functions.imports.length < maximumSectionElements) (hdecl : sectionType ≠ 3)
    (hcode : sectionType ≠ 10) :
    Reader.Returns (fun module' : Module => module'.functions.defs = module.functions.defs)
      (serializeKnownSection sectionType module) := by
  unfold serializeKnownSection
  split
  · exact returns_serializeSection (.bind fun _ => .pure rfl)
  · exact returns_serializeSection (.bind fun size =>
      (returns_serializeImports size hlt).mono fun _ h => h.1)
  · next hn => exact absurd (UInt8.toNat_inj.1 hn) hdecl
  · exact returns_serializeSection (.bind fun _ => .pure rfl)
  · exact returns_serializeSection (.bind fun _ => .pure rfl)
  · exact returns_serializeSection (.bind fun _ => .pure rfl)
  · exact returns_serializeSection (.bind fun _ => .pure rfl)
  · exact returns_serializeSection (.bind fun _ => .pure rfl)
  · exact returns_serializeSection (.bind fun _ => .pure rfl)
  · next hn => exact absurd (UInt8.toNat_inj.1 hn) hcode
  · exact returns_serializeSection (.bind fun _ => .pure rfl)
  · exact .throw _

/-- Behind the code section only the data section is known. -/
theorem returns_sameSignatures {sectionType : UInt8} (module : Module) (hlt : 10 < sectionType) :
    Reader.Returns (SameSignatures module) (serializeKnownSection sectionType module) := by
  have hlt' : 10 < sectionType.toNat := UInt8.lt_iff_toNat_lt.1 hlt
  unfold serializeKnownSection
  split
  case h_11 => exact returns_serializeSection (.bind fun _ => .pure ⟨rfl, rfl, rfl, rfl, rfl, rfl⟩)
  case h_12 => exact .throw _
  all_goals
    next hn => omega

theorem returns_allBodies (module : Module) :
    Reader.Returns (fun module' : Module => AllBodies module' ∧
        module'.functions.defs.length = module.functions.defs.length)
      (serializeCodeSection module) := by
  refine returns_serializeSection (.bind fun _ => .bind fun _ => ?_)
  refine .bind_of (returns_serializeFunctionBodies module module.functions.defs) fun defs hdefs =>
    .pure ⟨fun functionDef hmem => ?_, ?_⟩
  · exact (hdefs.2 functionDef hmem).congr (sameSignatures_of_defs hdefs.1)
  · simpa using congrArg List.length hdefs.1

namespace ReadsSections

variable {state : ModuleState} {sections : List (UInt8 × Bytes)}

theorem initial : ReadsSections ⟨0, .empty⟩ [] where
  invariant := ⟨⟨by decide, by decide⟩, fun _ fd hfd => absurd hfd List.not_mem_nil,
    fun fd hfd => absurd hfd List.not_mem_nil⟩
  ordered := fun _ hmem => absurd hmem List.not_mem_nil
  bodies := fun h => absurd h (by decide)
  noBodies := fun _ fd hfd => absurd hfd List.not_mem_nil
  declared := rfl
  counted := fun h => absurd h (by decide)

theorem user (h : ReadsSections state sections) {module : Module} {sectionBytes : Bytes}
    (hfunctions : module.functions = state.module.functions)
    (hsame : SameSignatures state.module module) :
    ReadsSections { state with module } (sections ++ [(0, sectionBytes)]) := by
  have hcode : HasCodeSection (sections ++ [(0, sectionBytes)]) ↔ HasCodeSection sections :=
    hasCodeSection_append (by decide)
  have hdeclared : declaredFunctions (sections ++ [(0, sectionBytes)]) =
      declaredFunctions sections := itemCount_append (by decide)
  have hbodies : functionBodies (sections ++ [(0, sectionBytes)]) = functionBodies sections :=
    itemCount_append (by decide)
  refine ⟨h.invariant.of_same (UInt8.le_refl _) hfunctions hsame, ?_, ?_, ?_, ?_, ?_⟩
  · intro entry hmem
    rcases List.mem_append.1 hmem with hmem | hmem
    · exact h.ordered entry hmem
    · rw [List.mem_singleton.1 hmem]
      exact UInt8.zero_le
  · intro hhas
    exact (h.bodies (hcode.1 hhas)).congr hsame (by rw [hfunctions])
  · intro hnot
    unfold NoBodies
    rw [hfunctions]
    exact h.noBodies fun hhas => hnot (hcode.2 hhas)
  · rw [hfunctions, h.declared, hdeclared]
  · intro hhas
    rw [hbodies, hdeclared]
    exact h.counted (hcode.1 hhas)

/-- The part of the invariant that looks at types only. -/
theorem ordered_append (h : ReadsSections state sections) {sectionType : UInt8}
    {sectionBytes : Bytes} (hlt : state.lastKnownSectionType < sectionType) :
    ∀ entry ∈ sections ++ [(sectionType, sectionBytes)], entry.1 ≤ sectionType := by
  intro entry hmem
  rcases List.mem_append.1 hmem with hmem | hmem
  · exact UInt8.le_of_lt (UInt8.lt_of_le_of_lt (h.ordered entry hmem) hlt)
  · rw [List.mem_singleton.1 hmem]
    exact UInt8.le_refl _

theorem lt_of_hasCodeSection (h : ReadsSections state sections) {sectionType : UInt8}
    (hlt : state.lastKnownSectionType < sectionType) (hhas : HasCodeSection sections) :
    10 < sectionType := by
  obtain ⟨entry, hmem, htype⟩ := List.mem_map.1 hhas
  rw [← htype]
  exact UInt8.lt_of_le_of_lt (h.ordered entry hmem) hlt

/-- No section of the type that comes next was read yet. -/
theorem new (h : ReadsSections state sections) {sectionType : UInt8}
    (hlt : state.lastKnownSectionType < sectionType) :
    ∀ entry ∈ sections, entry.1 ≠ sectionType := by
  intro entry hmem heq
  have hle := h.ordered entry hmem
  rw [heq] at hle
  exact absurd hlt (UInt8.not_lt.2 hle)

theorem function (h : ReadsSections state sections) {module : Module}
    {sectionBytes tail rest : Bytes} (hlt : state.lastKnownSectionType < 3)
    (hframe : serializeFrame (3 :: tail) = .ok ((3, sectionBytes), rest))
    (hread : serializeFunctionSection state.module (3 :: tail) = .ok (module, rest)) :
    ReadsSections ⟨3, module⟩ (sections ++ [(3, sectionBytes)]) := by
  have hinvariant := (returns_serializeFunctionSection h.invariant).holds hread
  obtain ⟨sectionBytes', hframe', hbody⟩ := serializeSection_frame hread
  obtain rfl := serializeFrame_inj hframe hframe'
  obtain ⟨numFunctions, t, hnum, hbody⟩ := bind_eq_ok.1 hbody
  obtain ⟨u, t, -, hbody⟩ := bind_eq_ok.1 hbody
  obtain ⟨defs, t, hdefs, hbody⟩ := bind_eq_ok.1 hbody
  obtain ⟨rfl, -⟩ := pure_eq_ok.1 hbody
  have hnone : ¬ HasCodeSection (sections ++ [(3, sectionBytes)]) := by
    intro hhas
    have hten := h.lt_of_hasCodeSection hlt ((hasCodeSection_append (by decide)).1 hhas)
    exact absurd hten (by decide)
  refine ⟨hinvariant, h.ordered_append hlt, fun hhas => absurd hhas hnone, fun _ => ?_, ?_,
    fun hhas => absurd hhas hnone⟩
  · exact hinvariant.noBodies (by decide)
  · rw [declaredFunctions, itemCount_append_self (h.new hlt) hnum]
    exact Reader.length_of_many hdefs

theorem code (h : ReadsSections state sections) {module : Module}
    {sectionBytes tail rest : Bytes} (hlt : state.lastKnownSectionType < 10)
    (hframe : serializeFrame (10 :: tail) = .ok ((10, sectionBytes), rest))
    (hread : serializeCodeSection state.module (10 :: tail) = .ok (module, rest)) :
    ReadsSections ⟨10, module⟩ (sections ++ [(10, sectionBytes)]) := by
  have hinvariant := (returns_serializeCodeSection h.invariant).holds hread
  obtain ⟨hbodies, hlength⟩ := (returns_allBodies state.module).holds hread
  obtain ⟨sectionBytes', hframe', hbody⟩ := serializeSection_frame hread
  obtain rfl := serializeFrame_inj hframe hframe'
  obtain ⟨numFunctionBodies, t, hnum, hbody⟩ := bind_eq_ok.1 hbody
  obtain ⟨u, t, hthrow, -⟩ := bind_eq_ok.1 hbody
  obtain ⟨hcount, rfl⟩ := throwIf_eq_ok.1 hthrow
  have hdeclared : declaredFunctions (sections ++ [(10, sectionBytes)]) =
      declaredFunctions sections := itemCount_append (by decide)
  refine ⟨hinvariant, h.ordered_append hlt, fun _ => hbodies, fun hnot => ?_, ?_, fun _ => ?_⟩
  · exact absurd (by simp [HasCodeSection]) hnot
  · rw [hdeclared, ← h.declared]
    exact hlength
  · rw [functionBodies, itemCount_append_self (h.new hlt) hnum, hdeclared, ← h.declared]
    simpa using hcount

theorem other (h : ReadsSections state sections) {sectionType : UInt8} {module : Module}
    {sectionBytes bytes rest : Bytes} (hlt : state.lastKnownSectionType < sectionType)
    (hdecl : sectionType ≠ 3) (hcode : sectionType ≠ 10)
    (hread : serializeKnownSection sectionType state.module bytes = .ok (module, rest)) :
    ReadsSections ⟨sectionType, module⟩ (sections ++ [(sectionType, sectionBytes)]) := by
  have hinvariant := (returns_serializeKnownSection h.invariant hlt).holds hread
  have hdefs := (returns_defs h.invariant.bounded.imports_lt hdecl hcode).holds hread
  have hhas : HasCodeSection (sections ++ [(sectionType, sectionBytes)]) ↔
      HasCodeSection sections := hasCodeSection_append hcode
  have hdeclared : declaredFunctions (sections ++ [(sectionType, sectionBytes)]) =
      declaredFunctions sections := itemCount_append hdecl
  have hbodies : functionBodies (sections ++ [(sectionType, sectionBytes)]) =
      functionBodies sections := itemCount_append hcode
  refine ⟨hinvariant, h.ordered_append hlt, fun hsections => ?_, fun hnot => ?_, ?_, ?_⟩
  · have hten := h.lt_of_hasCodeSection hlt (hhas.1 hsections)
    have hsame := (returns_sameSignatures state.module hten).holds hread
    exact (h.bodies (hhas.1 hsections)).congr hsame hdefs
  · unfold NoBodies
    rw [hdefs]
    exact h.noBodies fun hsections => hnot (hhas.2 hsections)
  · rw [hdefs, h.declared, hdeclared]
  · intro hsections
    rw [hbodies, hdeclared]
    exact h.counted (hhas.1 hsections)

/-- One round of the section loop reads one section. -/
theorem step (h : ReadsSections state sections) {state' : ModuleState} {bytes rest : Bytes}
    (hstep : serializeNextSection state bytes = .ok (state', rest)) :
    ∃ sections', serializeNextFrame sections bytes = .ok (sections', rest) ∧
      ReadsSections state' sections' := by
  have hframe : ∀ {entry : UInt8 × Bytes}, serializeFrame bytes = .ok (entry, rest) →
      serializeNextFrame sections bytes = .ok (sections ++ [entry], rest) :=
    fun hread => bind_eq_ok.2 ⟨_, rest, hread, pure_eq_ok.2 ⟨rfl, rfl⟩⟩
  obtain ⟨sectionType, tail, module, rfl, ⟨rfl, rfl, hread⟩ | ⟨hlt, rfl, hread⟩⟩ :=
    serializeNextSection_cases hstep
  · obtain ⟨sectionBytes, hentry⟩ := serializeUserSection_frame hread
    obtain ⟨userSection, rfl⟩ := of_serializeUserSection hread
    exact ⟨_, hframe hentry, h.user rfl ⟨rfl, rfl, rfl, rfl, rfl, rfl⟩⟩
  · obtain ⟨sectionBytes, hentry⟩ := serializeKnownSection_frame hread
    refine ⟨_, hframe hentry, ?_⟩
    by_cases hdecl : sectionType = 3
    · subst hdecl
      exact h.function hlt hentry hread
    by_cases hcode : sectionType = 10
    · subst hcode
      exact h.code hlt hentry hread
    · exact h.other hlt hdecl hcode hread

end ReadsSections

/-- The sections of an accepted binary, and what they say about the module. -/
theorem readsSections_of_decode {bytes : Bytes} {module : Module}
    (h : decode bytes = .ok module) :
    ∃ last, ReadsSections ⟨last, module⟩ (sections bytes) := by
  obtain ⟨⟨m, rest⟩, hmodule, h⟩ := Except.bind_eq_ok.1 h
  obtain ⟨u, -, h⟩ := Except.bind_eq_ok.1 h
  cases h
  obtain ⟨u, t, hmagic, hmodule⟩ := bind_eq_ok.1 hmodule
  obtain ⟨u, t', hversion, hmodule⟩ := bind_eq_ok.1 hmodule
  obtain ⟨state, t'', hloop, hmodule⟩ := bind_eq_ok.1 hmodule
  obtain ⟨rfl, rfl⟩ := pure_eq_ok.1 hmodule
  obtain ⟨read, hread, hreads⟩ : ∃ read, Reader.loop serializeNextFrame [] t' = .ok (read, t'') ∧
      ReadsSections state read :=
    Reader.loop_simulation (fun h hstep => h.step hstep) ReadsSections.initial hloop
  have hframes : serializeFrames bytes = .ok (read, t'') :=
    bind_eq_ok.2 ⟨_, t, hmagic, bind_eq_ok.2 ⟨_, t', hversion, hread⟩⟩
  refine ⟨state.lastKnownSectionType, ?_⟩
  simp only [sections, hframes]
  exact hreads

/-- The functions of a decoded binary, each with its own body of the code section, which the
validator accepted. -/
structure Validated (bytes : Bytes) (module : Module) : Prop where
  bodies : AllBodies module
  count : functionBodies (sections bytes) = module.functions.defs.length

/-- **Every function has a validated body** exactly when the binary has a code section or declares
no function. -/
theorem validated_iff_sections {bytes : Bytes} {module : Module}
    (h : decode bytes = .ok module) :
    Validated bytes module ↔
      HasCodeSection (sections bytes) ∨ declaredFunctions (sections bytes) = 0 := by
  obtain ⟨last, hreads⟩ := readsSections_of_decode h
  have hdeclared : module.functions.defs.length = declaredFunctions (sections bytes) :=
    hreads.declared
  constructor
  · intro hvalidated
    by_cases hcode : HasCodeSection (sections bytes)
    · exact .inl hcode
    · refine .inr ?_
      rw [← hdeclared, List.length_eq_zero_iff]
      refine List.eq_nil_iff_forall_not_mem.2 fun functionDef hmem => ?_
      have hnil := hreads.noBodies hcode functionDef hmem
      exact not_hasBody_of_code_eq_nil hnil (hvalidated.bodies functionDef hmem)
  · intro hcondition
    by_cases hcode : HasCodeSection (sections bytes)
    · exact ⟨hreads.bodies hcode, by rw [hreads.counted hcode, hdeclared]⟩
    · have hzero := hcondition.resolve_left hcode
      rw [hzero, List.length_eq_zero_iff] at hdeclared
      refine ⟨fun functionDef hmem => ?_, ?_⟩
      · rw [hdeclared] at hmem
        exact absurd hmem List.not_mem_nil
      · rw [hdeclared, functionBodies, itemCount_of_not_mem hcode, List.length_nil]

theorem validated_iff_sections_sample : Validated sampleBytes sampleModule :=
  (validated_iff_sections decode_sampleBytes).2 (.inl (by decide +kernel))

/-- A type section and a function section, and nothing else. -/
def undefinedBytes : Bytes :=
  [0x00, 0x61, 0x73, 0x6d, 1, 0, 0, 0, 1, 4, 1, 0x60, 0, 0, 3, 2, 1, 0]

theorem validated_of_every_binary_false :
    ¬ ∀ bytes module, decode bytes = .ok module → Validated bytes module := by
  intro hall
  have hdecode : (decode undefinedBytes).toOption =
      some { Module.empty with
        types := [⟨.none, []⟩]
        functions := ⟨[], [⟨0, [], [], []⟩]⟩ } := by decide +kernel
  have hvalidated := hall _ _ (Except.toOption_eq_some.1 hdecode)
  exact not_hasBody_of_code_eq_nil rfl (hvalidated.bodies _ List.mem_cons_self)

end FractalWasm.WASM
