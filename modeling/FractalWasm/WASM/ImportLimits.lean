import FractalWasm.Codec.Errors
import FractalWasm.Serialization.Output
import FractalWasm.WASM.Decoded

/-!
# The limits on imports

The loop of `serializeImportSection` with the modules its `push_back`s leave. The limit is meant for
each of the four vectors, but behind every `push_back` it is the function imports that are counted:
the others may pass it.

**The loop** (`ImportRun`): the modules behind each `push_back` and how the loop ends, so that a
limit that is passed and only then noticed is seen.

**The limits** (`ImportRun.Capped`): none of the four vectors grows beyond its limit without the
error of that limit. It is kept exactly when the function imports run out first (`FunctionsFirst`).

The errors of the limits are told from all others by their texts (`IsOther`).
-/

namespace FractalWasm.WASM

open Codec IR Serialization

/-! ## One import -/

/-- The kinds `serializeImportSection` accepts. -/
inductive ImportKind where
  | function | table | memory | global
  deriving DecidableEq, Repr

/-- The message of the exception behind a kind's `push_back`. -/
def ImportKind.tooMany : ImportKind → String
  | function => "Too many function imports"
  | table => "Too many table imports"
  | memory => "Too many memory imports"
  | global => "Too many global imports"

def tooManyImports (kind : ImportKind) : Exception := .fatalSerialization kind.tooMany

/-- The four limits throw different texts. -/
theorem tooManyImports_inj {kind kind' : ImportKind}
    (h : tooManyImports kind = tooManyImports kind') : kind = kind' := by
  have hall : ∀ kind kind' : ImportKind, kind.tooMany = kind'.tooMany → kind = kind' := by
    intro kind kind'
    cases kind <;> cases kind' <;> decide
  exact hall kind kind' (Exception.fatalSerialization.inj h)

/-- An import that was read. -/
inductive ReadImport where
  | function (functionImport : Import Nat)
  | table (tableImport : Import TableType)
  | memory (memoryImport : Import MemoryType)
  | global (globalImport : Import GlobalType)

namespace ReadImport

def kind : ReadImport → ImportKind
  | function _ => .function
  | table _ => .table
  | memory _ => .memory
  | global _ => .global

/-- `module.functions.imports.push_back(...)` and so on. -/
def pushBack (module : Module) : ReadImport → Module
  | function imp =>
    { module with
      functions := { module.functions with imports := module.functions.imports ++ [imp] } }
  | table imp =>
    { module with tables := { module.tables with imports := module.tables.imports ++ [imp] } }
  | memory imp =>
    { module with
      memories := { module.memories with imports := module.memories.imports ++ [imp] } }
  | global imp =>
    { module with globals := { module.globals with imports := module.globals.imports ++ [imp] } }

end ReadImport

/-- The part of an import's round in front of its `push_back`. -/
def readImport (numTypes : Nat) : InputReader ReadImport := do
  let moduleName ← serializeString
  let exportName ← serializeString
  throwIfNotValidUTF8 moduleName
  throwIfNotValidUTF8 exportName
  match ← serializeObjectKind with
  | .function =>
    let functionTypeIndex ← serializeVarUInt32
    throwIf (functionTypeIndex ≥ numTypes) "invalid import function type index"
    return .function ⟨functionTypeIndex, moduleName, exportName⟩
  | .table => return .table ⟨← serializeTableType, moduleName, exportName⟩
  | .memory => return .memory ⟨← serializeMemoryType, moduleName, exportName⟩
  | .global => return .global ⟨← serializeGlobalType, moduleName, exportName⟩
  | _ => throwFatal "invalid ObjectKind"

/-- The round: the import is read, pushed back, and the function imports are counted. -/
theorem serializeImport_eq (module : Module) :
    serializeImport module = (do
      let imp ← readImport module.types.length
      let module := imp.pushBack module
      throwIf (module.functions.imports.length ≥ maximumSectionElements) imp.kind.tooMany
      return module) := by
  unfold serializeImport readImport
  simp only [bind_assoc]
  refine bind_congr fun moduleName => bind_congr fun exportName => ?_
  refine bind_congr fun _ => bind_congr fun _ => bind_congr fun kind => ?_
  cases kind with
  | function | table | memory | global =>
    simp only [bind_assoc, pure_bind]
    rfl
  | _ => rfl

section Round

variable {module : Module} {bytes rest : Bytes}

/-- An import that cannot be read is refused before anything is counted. -/
theorem serializeImport_of_error {e : Exception}
    (h : readImport module.types.length bytes = .error e) :
    serializeImport module bytes = .error e := by
  rw [serializeImport_eq]
  exact Reader.bind_eq_error h

/-- One that was read is appended, and then the function imports are counted. -/
theorem serializeImport_of_read {imp : ReadImport}
    (h : readImport module.types.length bytes = .ok (imp, rest)) :
    serializeImport module bytes =
      if (imp.pushBack module).functions.imports.length ≥ maximumSectionElements then
        .error (tooManyImports imp.kind)
      else .ok (imp.pushBack module, rest) := by
  rw [serializeImport_eq]
  change (readImport module.types.length bytes).bind _ = _
  rw [h]
  change (throwIf (decide ((imp.pushBack module).functions.imports.length ≥
    maximumSectionElements)) imp.kind.tooMany >>= fun _ => pure (imp.pushBack module)) rest = _
  by_cases hlimit : (imp.pushBack module).functions.imports.length ≥ maximumSectionElements
  · rw [decide_eq_true hlimit, if_pos hlimit]
    rfl
  · rw [decide_eq_false hlimit, if_neg hlimit]
    rfl

end Round

/-! ## The loop -/

/-- What the loop leaves: each `push_back`, by its kind and the module behind it, and how the loop
ends. -/
structure ImportRun where
  pushes : List (ImportKind × Module)
  result : Except Exception (Module × Bytes)

/-- The loop of `serializeImportSection`. -/
def runImports : Nat → Module → Bytes → ImportRun
  | 0, module, bytes => ⟨[], .ok (module, bytes)⟩
  | size + 1, module, bytes =>
    match readImport module.types.length bytes with
    | .error e => ⟨[], .error e⟩
    | .ok (imp, rest) =>
      let module := imp.pushBack module
      if module.functions.imports.length ≥ maximumSectionElements then
        ⟨[(imp.kind, module)], .error (tooManyImports imp.kind)⟩
      else
        let run := runImports size module rest
        ⟨(imp.kind, module) :: run.pushes, run.result⟩

/-- It is the loop of the decoder. -/
theorem runImports_result (size : Nat) (module : Module) (bytes : Bytes) :
    (runImports size module bytes).result = serializeImports size module bytes := by
  induction size generalizing module bytes with
  | zero => rfl
  | succ size ih =>
    change _ = (serializeImport module bytes).bind fun round =>
      serializeImports size round.1 round.2
    rw [runImports]
    cases hread : readImport module.types.length bytes with
    | error e =>
      rw [serializeImport_of_error hread]
      rfl
    | ok read =>
      rw [serializeImport_of_read hread]
      dsimp only
      split
      · rfl
      · exact ih _ _

/-! ## The counts -/

/-- The size of a kind's vector. -/
def numImports (module : Module) : ImportKind → Nat
  | .function => module.functions.imports.length
  | .table => module.tables.imports.length
  | .memory => module.memories.imports.length
  | .global => module.globals.imports.length

/-- A `push_back` grows the vector of its kind. -/
theorem numImports_pushBack (module : Module) (imp : ReadImport) (kind : ImportKind) :
    numImports (imp.pushBack module) kind =
      numImports module kind + if imp.kind = kind then 1 else 0 := by
  cases imp <;> cases kind <;> simp [numImports, ReadImport.pushBack, ReadImport.kind]

theorem types_pushBack (module : Module) (imp : ReadImport) :
    (imp.pushBack module).types = module.types := by
  cases imp <;> rfl

/-! ## The errors of one import -/

/-- An error that no limit on imports raises. -/
def IsOther (e : Exception) : Prop := ∀ kind, e ≠ tooManyImports kind

/-- A text that does not start like those of the limits. -/
def OtherText (message : String) : Prop :=
  ∃ first second rest, message.toList = first :: second :: rest ∧ (first, second) ≠ ('T', 'o')

theorem OtherText.append {message : String} (h : OtherText message) (more : String) :
    OtherText (message ++ more) := by
  obtain ⟨first, second, rest, htext, hne⟩ := h
  exact ⟨first, second, rest ++ more.toList, by rw [String.toList_append, htext]; rfl, hne⟩

theorem OtherText.isOther {message : String} (h : OtherText message) :
    IsOther (.fatalSerialization message) := by
  obtain ⟨first, second, rest, htext, hne⟩ := h
  intro kind heq
  obtain rfl := Exception.fatalSerialization.inj heq
  have hlimit : ∃ rest, kind.tooMany.toList = 'T' :: 'o' :: rest := by
    cases kind <;> exact ⟨_, rfl⟩
  obtain ⟨rest', hrest⟩ := hlimit
  rw [hrest] at htext
  cases htext
  exact hne rfl

theorem raisesOther_throwFatal {α : Type} {message : String} (h : OtherText message) :
    RaisesIn IsOther (throwFatal message : InputReader α) :=
  .throw h.isOther

theorem raisesOther_throwIf (failed : Bool) {message : String} (h : OtherText message) :
    RaisesIn IsOther (throwIf failed message) :=
  .ite (raisesOther_throwFatal h) (.pure _)

/-- The texts of all other errors are not those of the limits. -/
theorem otherText_outOfRange (value min max : Int) : OtherText (outOfRange value min max) := by
  have hstart : OtherText "out-of-range value: " := ⟨_, _, _, rfl, by decide⟩
  exact ((((hstart.append _).append _).append _).append _).append _

theorem raisesOther_advance (numBytes : Nat) : RaisesIn IsOther (advance numBytes) :=
  .bind .get fun _ => .bind (raisesOther_throwIf _ ⟨_, _, _, rfl, by decide⟩) fun _ =>
    .bind (.set _) fun _ => .pure _

theorem raisesOther_varIntBytes (maxBytes : Nat) : RaisesIn IsOther (varIntBytes maxBytes) := by
  induction maxBytes with
  | zero => exact .pure _
  | succ maxBytes ih =>
    exact .bind (raisesOther_advance 1) fun _ => .ite (.pure _) (.bind ih fun _ => .pure _)

theorem raisesOther_serializeVarUInt (maxBits : Nat) :
    RaisesIn IsOther (serializeVarUInt maxBits) :=
  .bind (raisesOther_varIntBytes _) fun _ =>
    .bind (raisesOther_throwIf _ ⟨_, _, _, rfl, by decide⟩) fun _ =>
      .bind (raisesOther_throwIf _ (otherText_outOfRange _ _ _)) fun _ => .pure _

theorem raisesOther_serializeVarInt (width maxBits : Nat) :
    RaisesIn IsOther (serializeVarInt width maxBits) :=
  .bind (raisesOther_varIntBytes _) fun _ =>
    .bind (raisesOther_throwIf _ ⟨_, _, _, rfl, by decide⟩) fun _ =>
      .bind (raisesOther_throwIf _ (otherText_outOfRange _ _ _)) fun _ => .pure _

theorem raisesOther_serializeU8 : RaisesIn IsOther serializeU8 := by
  have hpage : OtherText ("Trying to deserialize bytes of size : " ++ toString 1) :=
    .append ⟨_, _, _, rfl, by decide⟩ _
  exact .bind (.ite (raisesOther_advance _) (raisesOther_throwFatal hpage)) fun _ => .pure _

theorem raisesOther_serializeString : RaisesIn IsOther serializeString := by
  have hsize : ∀ size, OtherText (sizeMessage "string" size) := fun size =>
    .append (.append (.append (.append ⟨_, _, _, rfl, by decide⟩ _) _) _) _
  exact .bind (raisesOther_serializeVarUInt _) fun _ => .bind (raisesOther_advance _) fun _ =>
    .bind (raisesOther_throwIf _ (hsize _)) fun _ => .pure _

theorem raisesOther_serializeSizeConstraints (hasMax : Bool) :
    RaisesIn IsOther (serializeSizeConstraints hasMax) :=
  .bind (raisesOther_serializeVarUInt _) fun _ =>
    .ite (.bind (raisesOther_serializeVarUInt _) fun _ => .pure _) (.pure _)

/-- Reading an import fails with other texts only, so that the texts tell a limit from the rest. -/
theorem raisesOther_readImport (numTypes : Nat) : RaisesIn IsOther (readImport numTypes) := by
  refine .bind raisesOther_serializeString fun _ => .bind raisesOther_serializeString fun _ => ?_
  refine .bind (raisesOther_throwIf _ ⟨_, _, _, rfl, by decide⟩) fun _ => ?_
  refine .bind (raisesOther_throwIf _ ⟨_, _, _, rfl, by decide⟩) fun _ => ?_
  refine .bind (.bind raisesOther_serializeU8 fun _ => .pure _) fun kind => ?_
  cases kind with
  | function =>
    exact .bind (raisesOther_serializeVarUInt _) fun _ =>
      .bind (raisesOther_throwIf _ ⟨_, _, _, rfl, by decide⟩) fun _ => .pure _
  | table =>
    exact .bind (.bind raisesOther_serializeU8 fun _ => .bind (raisesOther_serializeVarUInt _)
      fun _ => .bind (raisesOther_serializeSizeConstraints _) fun _ => .pure _) fun _ => .pure _
  | memory =>
    exact .bind (.bind (raisesOther_serializeVarUInt _) fun _ =>
      .bind (raisesOther_serializeSizeConstraints _) fun _ => .pure _) fun _ => .pure _
  | global =>
    exact .bind (.bind (.bind (raisesOther_serializeVarInt _ _) fun _ => .pure _) fun _ =>
      .bind (raisesOther_serializeVarUInt _) fun _ => .pure _) fun _ => .pure _
  | module | invalid => exact raisesOther_throwFatal ⟨_, _, _, rfl, by decide⟩

/-! ## The limits on a run -/

/-- What the limits are for: no vector grows past the cap, the loop ends as soon as one reaches it,
with the error for its kind, and with none of these errors otherwise. -/
structure ImportRun.Capped (run : ImportRun) : Prop where
  bounded : ∀ push ∈ run.pushes, ∀ kind, numImports push.2 kind ≤ maximumSectionElements
  stops : ∀ before push after, run.pushes = before ++ push :: after → ∀ kind,
    maximumSectionElements ≤ numImports push.2 kind →
      after = [] ∧ run.result = .error (tooManyImports kind)
  own : ∀ kind, run.result = .error (tooManyImports kind) →
    ∃ push, run.pushes.getLast? = some push ∧ maximumSectionElements ≤ numImports push.2 kind

/-- The kinds of the imports a section encodes, up to the first one that is malformed. -/
def importKinds (numTypes : Nat) : Nat → Bytes → List ImportKind
  | 0, _ => []
  | size + 1, bytes =>
    match readImport numTypes bytes with
    | .error _ => []
    | .ok (imp, rest) => imp.kind :: importKinds numTypes size rest

/-- Behind the imports counted so far, every table, memory and global that is imported before the
functions reach the cap leaves its own kind below it. -/
def FunctionsFirst (counts : ImportKind → Nat) (kinds : List ImportKind) : Prop :=
  ∀ before kind after, kinds = before ++ kind :: after → kind ≠ .function →
    counts .function + before.count .function < maximumSectionElements →
      counts kind + before.count kind + 1 < maximumSectionElements

theorem functionsFirst_nil (counts : ImportKind → Nat) : FunctionsFirst counts [] :=
  fun _ _ _ h => absurd h.symm (List.append_ne_nil_of_right_ne_nil _ (List.cons_ne_nil _ _))

/-- Nothing counts once the functions have reached the cap. -/
theorem functionsFirst_of_le {counts : ImportKind → Nat} {kinds : List ImportKind}
    (h : maximumSectionElements ≤ counts .function) : FunctionsFirst counts kinds :=
  fun _ _ _ _ _ hlt => absurd (Nat.le_trans h (Nat.le_add_right _ _)) (Nat.not_le.2 hlt)

/-- The first import, and the counts behind it. -/
theorem functionsFirst_cons {counts counts' : ImportKind → Nat} {kind : ImportKind}
    {kinds : List ImportKind} (hcounts : ∀ k, counts' k = counts k + if kind = k then 1 else 0) :
    FunctionsFirst counts (kind :: kinds) ↔
      (kind ≠ .function → counts .function < maximumSectionElements →
        counts kind + 1 < maximumSectionElements) ∧ FunctionsFirst counts' kinds := by
  have hcount : ∀ (before : List ImportKind) k,
      counts k + (kind :: before).count k = counts' k + before.count k := by
    intro before k
    rw [hcounts, List.count_cons]
    simp only [beq_iff_eq]
    omega
  constructor
  · intro h
    refine ⟨fun hne hlt => ?_, fun before k after hsplit hne hlt => ?_⟩
    · exact h [] kind kinds rfl hne hlt
    · have hnext := h (kind :: before) k after (congrArg _ hsplit) hne
      rw [hcount, hcount] at hnext
      exact hnext hlt
  · rintro ⟨hhead, htail⟩ before k after hsplit hne hlt
    cases before with
    | nil =>
      obtain ⟨rfl, -⟩ := List.cons.inj hsplit
      exact hhead hne hlt
    | cons first before =>
      obtain ⟨rfl, hkinds⟩ := List.cons.inj hsplit
      rw [hcount] at hlt ⊢
      exact htail before k after hkinds hne hlt

theorem ImportRun.Capped.of_nil {result : Except Exception (Module × Bytes)}
    (h : ∀ kind, result ≠ .error (tooManyImports kind)) : Capped ⟨[], result⟩ where
  bounded := fun _ hnone => absurd hnone List.not_mem_nil
  stops := fun _ _ _ hsplit =>
    absurd hsplit.symm (List.append_ne_nil_of_right_ne_nil _ (List.cons_ne_nil _ _))
  own := fun kind hresult => absurd hresult (h kind)

/-- The `push_back` of the function import that reaches the cap. -/
theorem ImportRun.Capped.of_functions {module : Module}
    (hreached : maximumSectionElements ≤ numImports module .function)
    (hle : numImports module .function ≤ maximumSectionElements)
    (hbelow : ∀ kind, kind ≠ .function → numImports module kind < maximumSectionElements) :
    Capped ⟨[(.function, module)], .error (tooManyImports .function)⟩ := by
  refine ⟨fun push hmem kind => ?_, fun before push after hsplit kind hkind => ?_, ?_⟩
  · obtain rfl := List.mem_singleton.1 hmem
    by_cases hfunction : kind = .function
    · exact hfunction ▸ hle
    · exact Nat.le_of_lt (hbelow kind hfunction)
  · have hlength := congrArg List.length hsplit
    simp only [List.length_append, List.length_cons, List.length_nil] at hlength
    obtain rfl : before = [] := List.length_eq_zero_iff.1 (by omega)
    obtain rfl : after = [] := List.length_eq_zero_iff.1 (by omega)
    obtain rfl := List.singleton_inj.1 hsplit
    have hfunction : kind = .function :=
      Decidable.byContradiction fun hne => absurd hkind (Nat.not_le.2 (hbelow kind hne))
    exact ⟨rfl, hfunction ▸ rfl⟩
  · intro kind hresult
    obtain rfl := tooManyImports_inj (Except.error.inj hresult)
    exact ⟨_, rfl, hreached⟩

/-- The run behind a `push_back` that reaches no cap. -/
theorem ImportRun.capped_cons {run : ImportRun} {push : ImportKind × Module}
    (hbelow : ∀ kind, numImports push.2 kind < maximumSectionElements)
    (hne : ∀ kind, run.result = .error (tooManyImports kind) → run.pushes ≠ []) :
    Capped ⟨push :: run.pushes, run.result⟩ ↔ run.Capped := by
  have hlast : ∀ kind, run.result = .error (tooManyImports kind) →
      (push :: run.pushes).getLast? = run.pushes.getLast? := fun kind hresult => by
    obtain ⟨first, rest, hpushes⟩ := List.exists_cons_of_ne_nil (hne kind hresult)
    rw [hpushes, List.getLast?_cons_cons]
  constructor
  · intro h
    refine ⟨fun p hp => h.bounded p (List.mem_cons_of_mem _ hp), ?_, fun kind hresult => ?_⟩
    · intro before p after hsplit
      exact h.stops (push :: before) p after (congrArg _ hsplit)
    · rw [← hlast kind hresult]
      exact h.own kind hresult
  · intro h
    refine ⟨List.forall_mem_cons.2 ⟨fun kind => Nat.le_of_lt (hbelow kind), h.bounded⟩, ?_, ?_⟩
    · intro before p after hsplit kind hreached
      cases before with
      | nil =>
        obtain ⟨rfl, -⟩ := List.cons.inj hsplit
        exact absurd hreached (Nat.not_le.2 (hbelow kind))
      | cons first before =>
        exact h.stops before p after (List.cons.inj hsplit).2 kind hreached
    · intro kind hresult
      obtain ⟨p, hp, hreached⟩ := h.own kind hresult
      exact ⟨p, (hlast kind hresult).trans hp, hreached⟩

/-- An error of the limits comes from a `push_back`. -/
theorem pushes_ne_nil {size : Nat} {module : Module} {bytes : Bytes} {kind : ImportKind}
    (h : (runImports size module bytes).result = .error (tooManyImports kind)) :
    (runImports size module bytes).pushes ≠ [] := by
  cases size with
  | zero => cases h
  | succ size =>
    rw [runImports] at h ⊢
    cases hread : readImport module.types.length bytes with
    | error e =>
      rw [hread] at h
      obtain rfl := Except.error.inj h
      exact absurd rfl (((raisesOther_readImport _).errors _).holds hread kind)
    | ok read =>
      dsimp only
      split <;> exact List.cons_ne_nil _ _

/-- **The limits on a run** hold if and only if the functions come first. -/
theorem capped_runImports_iff {size : Nat} {module : Module} {bytes : Bytes}
    (hbelow : ∀ kind, numImports module kind < maximumSectionElements) :
    (runImports size module bytes).Capped ↔
      FunctionsFirst (numImports module) (importKinds module.types.length size bytes) := by
  induction size generalizing module bytes with
  | zero => exact iff_of_true (.of_nil fun _ h => by cases h) (functionsFirst_nil _)
  | succ size ih =>
    rw [runImports, importKinds]
    cases hread : readImport module.types.length bytes with
    | error e =>
      refine iff_of_true (.of_nil fun kind h => ?_) (functionsFirst_nil _)
      exact ((raisesOther_readImport _).errors _).holds hread kind (Except.error.inj h)
    | ok read =>
      obtain ⟨imp, rest⟩ := read
      dsimp only
      have hcounts := numImports_pushBack module imp
      rw [functionsFirst_cons hcounts]
      have hpushed : numImports (imp.pushBack module) .function ≤ maximumSectionElements := by
        have hfunctions := hbelow .function
        rw [hcounts]
        split <;> omega
      by_cases hlimit : (imp.pushBack module).functions.imports.length ≥ maximumSectionElements
      · -- The cap is reached by a function import, and no other import counts from there on.
        have hfunction : imp.kind = .function := by
          refine Decidable.byContradiction fun hne => ?_
          have hsame := hcounts .function
          rw [if_neg hne, Nat.add_zero] at hsame
          have hlt := hbelow .function
          rw [← hsame] at hlt
          exact absurd hlt (Nat.not_lt.2 hlimit)
        rw [if_pos hlimit, hfunction]
        refine iff_of_true (.of_functions hlimit hpushed fun kind hne => ?_)
          ⟨fun hne => absurd rfl hne, functionsFirst_of_le hlimit⟩
        rw [hcounts, if_neg (hfunction ▸ hne.symm)]
        exact hbelow kind
      rw [if_neg hlimit]
      have hfunctions : numImports (imp.pushBack module) .function < maximumSectionElements :=
        Nat.not_le.1 hlimit
      by_cases hreached : maximumSectionElements ≤ numImports (imp.pushBack module) imp.kind
      · -- Another kind reaches the cap: the loop goes on.
        refine iff_of_false (fun hcapped => ?_) (fun hfirst => ?_)
        · obtain ⟨hnil, herror⟩ := hcapped.stops [] _ _ rfl imp.kind hreached
          exact pushes_ne_nil herror hnil
        · have hkind : imp.kind ≠ .function :=
            fun heq => absurd (heq ▸ hreached) (Nat.not_le.2 hfunctions)
          have hnext := hfirst.1 hkind (hbelow .function)
          rw [hcounts, if_pos rfl] at hreached
          exact absurd hnext (Nat.not_lt.2 hreached)
      · have hbelow' : ∀ kind, numImports (imp.pushBack module) kind < maximumSectionElements := by
          intro kind
          by_cases hkind : imp.kind = kind
          · exact hkind ▸ Nat.not_le.1 hreached
          · rw [hcounts, if_neg hkind]
            exact hbelow kind
        rw [ImportRun.capped_cons hbelow' fun _ => pushes_ne_nil, ih hbelow', types_pushBack]
        refine (and_iff_right fun _ _ => ?_).symm
        have hkind := hbelow' imp.kind
        rwa [hcounts, if_pos rfl] at hkind

/-! ## The runs of the decoder -/

/-- The section loop of `serializeModule` gets to `state`, with `rest` left to read. -/
def Reaches (bytes : Bytes) (state : ModuleState) (rest : Bytes) : Prop :=
  ∃ version sections, serializeConstantU32 "magic number" magicNumber bytes = .ok ((), version) ∧
    serializeConstantU32 "version" currentVersion version = .ok ((), sections) ∧
    Reader.Rounds serializeNextSection ⟨0, .empty⟩ sections state rest

/-- The decoder gets to an import section that says it has `size` imports, which start at
`imports`. -/
structure StartsImports (bytes : Bytes) (module : Module) (size : Nat) (imports : Bytes) :
    Prop where
  starts : ∃ lastKnownSectionType rest sectionBytes after,
    Reaches bytes ⟨lastKnownSectionType, module⟩ (2 :: rest) ∧ lastKnownSectionType < 2 ∧
      (serializeVarUInt32 >>= advance) rest = .ok (sectionBytes, after) ∧
      serializeVarUInt32 sectionBytes = .ok (size, imports)

/-- Up to the import section no vector has an import. -/
theorem numImports_of_reaches {bytes rest : Bytes} {state : ModuleState}
    (h : Reaches bytes state rest) (hlast : state.lastKnownSectionType < 2) (kind : ImportKind) :
    numImports state.module kind = 0 := by
  obtain ⟨version, sections, -, -, hrounds⟩ := h
  have hinv := hrounds.invariant
    (P := fun state => state.lastKnownSectionType < 2 → ∀ kind, numImports state.module kind = 0) ?_
    fun _ kind => by cases kind <;> rfl
  · exact hinv hlast kind
  intro state state' bytes rest hstate hstep hlast' kind
  obtain ⟨sectionType, tail, module, -, ⟨-, rfl, hread⟩ | ⟨hlt, rfl, hread⟩⟩ :=
    serializeNextSection_cases hstep
  · obtain ⟨userSection, rfl⟩ := of_serializeUserSection hread
    have hnone := hstate hlast' kind
    cases kind <;> exact hnone
  · -- Only the type section comes in front of the imports.
    obtain rfl : sectionType = 1 := by
      rw [← UInt8.toNat_inj]
      simp only [UInt8.lt_iff_toNat_lt, UInt8.reduceToNat] at hlt hlast' ⊢
      omega
    have hnone := hstate (UInt8.lt_trans hlt hlast') kind
    have hsame : Reader.Returns (fun module => numImports module kind = 0)
        (serializeTypeSection state.module) :=
      returns_serializeSection (.bind fun types => .pure (by cases kind <;> exact hnone))
    exact hsame.holds hread

theorem serializeSection_error {α : Type} {sectionBody : InputReader α} {byte : UInt8}
    {rest sectionBytes after : Bytes} {e : Exception}
    (hsection : (serializeVarUInt32 >>= advance) rest = .ok (sectionBytes, after))
    (herror : sectionBody sectionBytes = .error e) :
    serializeSection sectionBody (byte :: rest) = .error e := by
  obtain ⟨numSectionBytes, t, hnum, hbytes⟩ := bind_eq_ok.1 hsection
  change (serializeVarUInt32 rest).bind _ = _
  rw [hnum]
  change (advance numSectionBytes t).bind _ = _
  rw [hbytes]
  refine Reader.bind_eq_error ?_
  change (sectionBody sectionBytes).bind _ = _
  rw [herror]
  rfl

/-- An error in an import section is the decoder's. -/
theorem decode_error {bytes imports : Bytes} {module : Module} {size : Nat}
    (h : StartsImports bytes module size imports) {e : Exception}
    (herror : serializeImports size module imports = .error e) : decode bytes = .error e := by
  obtain ⟨last, rest, sectionBytes, after, hreaches, hlast, hsection, hsize⟩ := h.starts
  obtain ⟨version, sections, hmagic, hversion, hrounds⟩ := hreaches
  have himports : serializeImportSection module (2 :: rest) = .error e := by
    refine serializeSection_error hsection ?_
    change (serializeVarUInt32 sectionBytes).bind _ = _
    rw [hsize]
    exact herror
  have hround : serializeNextSection ⟨last, module⟩ (2 :: rest) = .error e := by
    change (throwIf (decide (2 ≤ last)) _ >>= fun _ => serializeImportSection module >>= _)
      (2 :: rest) = _
    rw [decide_eq_false (UInt8.not_le.2 hlast)]
    change (serializeImportSection module >>= fun module =>
      (pure ⟨2, module⟩ : InputReader ModuleState)) (2 :: rest) = _
    exact Reader.bind_eq_error himports
  have hloop := hrounds.loop_error consumes_serializeNextSection (List.cons_ne_nil _ _) hround
  have hmodule : serializeModule bytes = .error e := by
    change (serializeConstantU32 "magic number" magicNumber bytes).bind _ = _
    rw [hmagic]
    change (serializeConstantU32 "version" currentVersion version).bind _ = _
    rw [hversion]
    exact Reader.bind_eq_error hloop
  rw [decode, hmodule]
  rfl

/-- The imports of a binary are limited, wherever its import section starts; and what ends the loop
is what the decoder fails with. -/
structure CapsImports (bytes : Bytes) : Prop where
  capped : ∀ module size imports, StartsImports bytes module size imports →
    (runImports size module imports).Capped
  fails : ∀ module size imports e, StartsImports bytes module size imports →
    (runImports size module imports).result = .error e → decode bytes = .error e

/-- Where the import section starts, the limits are kept exactly when the function imports run out
first. -/
theorem capped_iff_of_startsImports {bytes imports : Bytes} {module : Module} {size : Nat}
    (h : StartsImports bytes module size imports) :
    (runImports size module imports).Capped ↔
      FunctionsFirst (fun _ => 0) (importKinds module.types.length size imports) := by
  obtain ⟨last, rest, sectionBytes, after, hreaches, hlast, -⟩ := h.starts
  have hnone := numImports_of_reaches hreaches hlast
  rw [capped_runImports_iff fun kind => by rw [hnone kind]; decide, funext hnone]

/-- The decoder limits the imports of the binaries that have fewer than `maximumSectionElements`
tables, memories and globals each before their function imports reach this limit. -/
theorem capsImports_iff (bytes : Bytes) :
    CapsImports bytes ↔ ∀ module size imports, StartsImports bytes module size imports →
      FunctionsFirst (fun _ => 0) (importKinds module.types.length size imports) := by
  constructor
  · intro h module size imports hstarts
    exact (capped_iff_of_startsImports hstarts).1 (h.capped module size imports hstarts)
  · refine fun h => ⟨fun module size imports hstarts => ?_,
      fun module size imports e hstarts hrun => ?_⟩
    · exact (capped_iff_of_startsImports hstarts).2 (h module size imports hstarts)
    · rw [runImports_result] at hrun
      exact decode_error hstarts hrun

/-! ## A binary with too many globals -/

/-- An unnamed import of an immutable `i32` global. -/
def globalImportBytes : Bytes := [0, 0, 3, 0x7f, 0]

/-- An import section with 1024 globals. -/
def manyGlobalsBytes : Bytes :=
  [0x00, 0x61, 0x73, 0x6d] ++ ([1, 0, 0, 0] ++ 2 :: ([0x82, 0x28] ++
    ([0x80, 0x08] ++ (List.replicate 1024 globalImportBytes).flatten)))

theorem readImport_global (numTypes : Nat) (rest : Bytes) :
    readImport numTypes (globalImportBytes ++ rest) =
      .ok (.global ⟨⟨.i32, false⟩, [], []⟩, rest) := by
  have hi32 : ∀ rest, serializeVarInt7 ([0x7f] ++ rest) = .ok (-1, rest) :=
    ((readsBack_serializeVarInt7 (-1)).parses (Except.toOption_eq_some.1 (by decide +kernel))).eq_ok
  have hglobal : serializeGlobalType (0x7f :: 0 :: rest) = .ok (⟨.i32, false⟩, rest) := by
    refine bind_eq_ok.2 ⟨.i32, 0 :: rest, ?_, rfl⟩
    exact bind_eq_ok.2 ⟨-1, _, hi32 _, rfl⟩
  refine bind_eq_ok.2 ⟨[], 0 :: 3 :: 0x7f :: 0 :: rest, rfl, ?_⟩
  refine bind_eq_ok.2 ⟨[], 3 :: 0x7f :: 0 :: rest, rfl, ?_⟩
  refine bind_eq_ok.2 ⟨(), _, rfl, bind_eq_ok.2 ⟨(), _, rfl, ?_⟩⟩
  refine bind_eq_ok.2 ⟨.global, 0x7f :: 0 :: rest, rfl, ?_⟩
  exact bind_eq_ok.2 ⟨_, _, hglobal, rfl⟩

/-- All imports are read, and all are globals. -/
theorem importKinds_replicate (numTypes n : Nat) :
    importKinds numTypes n (List.replicate n globalImportBytes).flatten =
      List.replicate n .global := by
  induction n with
  | zero => rfl
  | succ n ih =>
    rw [List.replicate_succ, List.flatten_cons, importKinds, readImport_global, List.replicate_succ]
    exact congrArg _ ih

/-- The binary has such an import section. -/
theorem startsImports_manyGlobals :
    StartsImports manyGlobalsBytes .empty 1024
      (List.replicate 1024 globalImportBytes).flatten := by
  have hconstant : ∀ (message : String) (constant : UInt32) (rest : Bytes),
      serializeConstantU32 message constant (u32Bytes constant ++ rest) = .ok ((), rest) :=
    fun message constant =>
      (((readsBack_serializeConstantU32 message constant).parses rfl).mono fun _ _ => rfl).eq_ok
  have hnum : ∀ (value : Nat) (bytes : Bytes),
      Serialization.Output.serializeVarUInt32 value = .ok bytes →
        ∀ rest, serializeVarUInt32 (bytes ++ rest) = .ok (value, rest) :=
    fun value bytes hw => ((readsBack_serializeVarUInt32 value).parses hw).eq_ok
  have hmagic : u32Bytes magicNumber = [0x00, 0x61, 0x73, 0x6d] := by decide
  have hversion : u32Bytes currentVersion = [1, 0, 0, 0] := by decide
  have hlength : ([0x80, 0x08] ++ (List.replicate 1024 globalImportBytes).flatten).length =
      5122 := by
    rw [List.length_append, List.length_flatten, List.map_replicate, List.sum_replicate_nat]
    rfl
  have hcount : serializeVarUInt32 ([0x80, 0x08] ++
      (List.replicate 1024 globalImportBytes).flatten) =
        .ok (1024, (List.replicate 1024 globalImportBytes).flatten) :=
    hnum 1024 [0x80, 0x08] (Except.toOption_eq_some.1 (by decide +kernel)) _
  generalize hsection : [0x80, 0x08] ++ (List.replicate 1024 globalImportBytes).flatten =
    sectionBytes at hlength hcount
  have hbytes : manyGlobalsBytes =
      u32Bytes magicNumber ++ (u32Bytes currentVersion ++ 2 :: ([0x82, 0x28] ++ sectionBytes)) := by
    rw [hmagic, hversion, ← hsection]
    rfl
  rw [hbytes]
  refine ⟨0, _, sectionBytes, [], ⟨_, _, hconstant _ _ _, hconstant _ _ _, .refl _ _⟩,
    by decide, ?_, hcount⟩
  have hsize := hnum 5122 [0x82, 0x28] (Except.toOption_eq_some.1 (by decide +kernel)) sectionBytes
  exact bind_eq_ok.2 ⟨_, _, hsize, advance_eq_ok.2 ⟨(List.append_nil _).symm, hlength⟩⟩

/-- All 1024 globals are imported. -/
theorem not_capsImports_manyGlobals : ¬ CapsImports manyGlobalsBytes := by
  intro h
  have hcapped := h.capped _ _ _ startsImports_manyGlobals
  have hfirst := (capped_iff_of_startsImports startsImports_manyGlobals).1 hcapped
  rw [importKinds_replicate] at hfirst
  have hlast := hfirst (List.replicate 1023 .global) .global [] List.replicate_succ'
    (by decide)
  rw [List.count_replicate, List.count_replicate] at hlast
  exact absurd (hlast (by decide)) (by decide)

end FractalWasm.WASM
