import FractalWasm.Codec.Reader

/-!
# Writers

A writer produces bytes or fails with an error. Two relations connect it to the reader of the same
format, and the rules for each follow the statements of the two halves.

**Reading back** (`ReadsBack E r w P`): what `w` wrote, with anything behind it, is read exactly, as
something with the property `P`, unless the reader fails with an error in `E`.

**Writing again** (`Reencodes pre r ws`): what `r` read can be written again, in no more bytes than
it was read from. The writers `pre` stand for what has been written before, so that a value read in
several steps may be written as a whole.
-/

namespace Codec

/-- The bytes written, unless writing them failed. -/
abbrev Writer (ε : Type) := Except ε (List UInt8)

namespace Writer

variable {ε : Type}

/-- One writer after the other. -/
def concat : List (Writer ε) → Except ε (List UInt8)
  | [] => .ok []
  | w :: ws => do
    let head ← w
    let tail ← concat ws
    return head ++ tail

theorem concat_cons_eq_ok {w : Writer ε} {ws : List (Writer ε)} {bytes : List UInt8} :
    concat (w :: ws) = .ok bytes ↔
      ∃ head tail, w = .ok head ∧ concat ws = .ok tail ∧ head ++ tail = bytes := by
  rw [concat, Except.bind_eq_ok]
  constructor
  · rintro ⟨head, hw, h⟩
    obtain ⟨tail, hws, h⟩ := Except.bind_eq_ok.1 h
    exact ⟨head, tail, hw, hws, Except.ok.inj h⟩
  · rintro ⟨head, tail, hw, hws, rfl⟩
    exact ⟨head, hw, Except.bind_eq_ok.2 ⟨tail, hws, rfl⟩⟩

theorem concat_append {ws ws' : List (Writer ε)} {head tail : List UInt8}
    (hws : concat ws = .ok head) (hws' : concat ws' = .ok tail) :
    concat (ws ++ ws') = .ok (head ++ tail) := by
  induction ws generalizing head with
  | nil =>
    obtain rfl := Except.ok.inj hws
    exact hws'
  | cons w ws ih =>
    obtain ⟨first, rest, hw, hrest, rfl⟩ := concat_cons_eq_ok.1 hws
    refine concat_cons_eq_ok.2 ⟨first, rest ++ tail, hw, ih hrest, ?_⟩
    rw [List.append_assoc]

/-- The number of bytes written, taken as zero if writing fails. -/
def size : Writer ε → Nat
  | .ok bytes => bytes.length
  | .error _ => 0

theorem length_of_concat {ws : List (Writer ε)} {bytes : List UInt8} (h : concat ws = .ok bytes) :
    bytes.length = (ws.map size).sum := by
  induction ws generalizing bytes with
  | nil =>
    obtain rfl := Except.ok.inj h
    rfl
  | cons w ws ih =>
    obtain ⟨head, tail, rfl, hws, rfl⟩ := concat_cons_eq_ok.1 h
    rw [List.length_append, ih hws, List.map_cons, List.sum_cons, size]

/-- Every writer of a sequence that writes has written. -/
theorem mem_of_concat {ws : List (Writer ε)} {bytes : List UInt8} (h : concat ws = .ok bytes)
    {w : Writer ε} (hw : w ∈ ws) : ∃ head, w = .ok head := by
  induction ws generalizing bytes with
  | nil => exact absurd hw List.not_mem_nil
  | cons w' ws ih =>
    obtain ⟨head, tail, hhead, htail, -⟩ := concat_cons_eq_ok.1 h
    rcases List.mem_cons.1 hw with rfl | hw
    · exact ⟨head, hhead⟩
    · exact ih htail hw

theorem concat_singleton (w : Writer ε) : concat [w] = w := by
  rw [concat, concat]
  cases w with
  | error e => rfl
  | ok bytes => exact congrArg Except.ok (List.append_nil bytes)

theorem concat_replicate (n : Nat) (bytes : List UInt8) :
    concat (List.replicate n (.ok bytes : Writer ε)) = .ok (List.replicate n bytes).flatten := by
  induction n with
  | zero => rfl
  | succ n ih =>
    rw [List.replicate_succ, List.replicate_succ]
    exact concat_cons_eq_ok.2 ⟨_, _, rfl, ih, rfl⟩

/-- A sequence of writers in place of the last one. -/
theorem concat_singleton_concat (w : Writer ε) (ws : List (Writer ε)) :
    concat [w, concat ws] = concat (w :: ws) := by
  rw [concat, concat_singleton, concat]

end Writer

/-! ## Reading back -/

variable {ε α β : Type}

/-- What `w` writes, `r` reads as something with the property `P`, or fails with an error in `E`. -/
structure ReadsBack (E : ε → Prop) (r : Reader ε α) (w : Writer ε) (P : α → Prop) : Prop where
  parses : ∀ {bytes}, w = .ok bytes → Reader.Parses E r bytes P

namespace ReadsBack

open Writer

variable {E : ε → Prop} {P : α → Prop} {Q : β → Prop} {r : Reader ε α} {w : Writer ε}
  {ws : List (Writer ε)}

theorem pure {a : α} (h : P a) : ReadsBack E (Pure.pure a : Reader ε α) (concat []) P := by
  refine ⟨fun {bytes} hw => ?_⟩
  obtain rfl := Except.ok.inj hw
  exact .pure h

/-- What is read back has the properties of all that the reader returns. -/
theorem and_returns {Q : α → Prop} (h : ReadsBack E r w P) (hr : Reader.Returns Q r) :
    ReadsBack E r w fun a => P a ∧ Q a := by
  refine ⟨fun hw => ⟨fun rest => ?_⟩⟩
  rcases (h.parses hw).outcome rest with ⟨a, hread, ha⟩ | herror
  · exact .inl ⟨a, hread, ha, hr.holds hread⟩
  · exact .inr herror

theorem bind {next : α → Reader ε β} (hr : ReadsBack E r w P)
    (hnext : ∀ a, P a → ReadsBack E (next a) (concat ws) Q) :
    ReadsBack E (r >>= next) (concat (w :: ws)) Q := by
  refine ⟨fun {bytes} h => ?_⟩
  obtain ⟨head, tail, hw, hws, rfl⟩ := concat_cons_eq_ok.1 h
  exact (hr.parses hw).bind fun a ha => (hnext a ha).parses hws

/-- The writer's sequence ends where the reader does: both have one statement left. -/
theorem last (hr : ReadsBack E r w P) : ReadsBack E r (concat [w]) P := by
  refine ⟨fun {bytes} h => ?_⟩
  obtain ⟨head, tail, hw, hnil, rfl⟩ := concat_cons_eq_ok.1 h
  obtain rfl := Except.ok.inj hnil
  rw [List.append_nil]
  exact hr.parses hw

/-- The reader checks something that the writer does not: nothing is written for it. -/
theorem check {check : Reader ε α} {next : α → Reader ε β}
    (hcheck : Reader.Parses E check [] P) (hnext : ∀ a, P a → ReadsBack E (next a) w Q) :
    ReadsBack E (check >>= next) w Q :=
  ⟨fun hw => hcheck.check fun a ha => (hnext a ha).parses hw⟩

theorem map {f : α → β} (hr : ReadsBack E r w P) (hf : ∀ a, P a → Q (f a)) :
    ReadsBack E (r >>= fun a => Pure.pure (f a)) w Q :=
  ⟨fun hw => (hr.parses hw).map hf⟩

theorem mono {P' : α → Prop} (h : ReadsBack E r w P) (himp : ∀ a, P a → P' a) :
    ReadsBack E r w P' :=
  ⟨fun hw => (h.parses hw).mono himp⟩

/-- Nothing is read back from a writer that fails. -/
theorem error (r : Reader ε α) (e : ε) (P : α → Prop) : ReadsBack E r (.error e) P :=
  ⟨nofun⟩

/-- Elements that read back as themselves do so in sequence. -/
theorem many {enc : α → Writer ε} {as : List α} (h : ∀ a ∈ as, ReadsBack E r (enc a) (· = a)) :
    ReadsBack E (r.many as.length) (concat (as.map enc)) (· = as) := by
  induction as with
  | nil => exact .pure rfl
  | cons a as ih =>
    refine .bind (h a List.mem_cons_self) fun b hb => ?_
    refine .map (ih fun a' ha' => h a' (List.mem_cons_of_mem a ha')) fun bs hbs => ?_
    rw [hb, hbs]

/-- A loop with a round for each element, whose state depends on the elements before it. -/
theorem loopFinishes {σ : Type} {step : σ → Reader ε σ} {enc : α → Writer ε} {I : List α → σ → Prop}
    {as : List α} {bytes : List UInt8} (hw : concat (as.map enc) = .ok bytes)
    (hne : ∀ a ∈ as, enc a ≠ .ok [])
    (hstep : ∀ {before a after}, as = before ++ a :: after → ∀ state, I before state →
      ReadsBack E (step state) (enc a) (I (before ++ [a]))) :
    Reader.LoopFinishes E step bytes (I []) (I as) := by
  have hsplit : ∀ after before bytes, as = before ++ after →
      concat (after.map enc) = .ok bytes → Reader.LoopFinishes E step bytes (I before) (I as) := by
    intro after
    induction after with
    | nil =>
      intro before bytes has hnil
      obtain rfl := Except.ok.inj hnil
      rw [List.append_nil] at has
      rw [has]
      exact .nil fun _ h => h
    | cons a after ih =>
      intro before bytes has hcons
      obtain ⟨head, tail, ha, hafter, rfl⟩ := concat_cons_eq_ok.1 hcons
      have hmem : a ∈ as := by simp [has]
      refine .append (fun hnil => absurd (hnil ▸ ha) (hne a hmem))
        (fun _ state hI => (hstep has state hI).parses ha) ?_
      exact ih (before ++ [a]) tail (by rw [has, List.append_assoc, List.singleton_append]) hafter
  exact hsplit as [] bytes rfl hw

end ReadsBack

/-! ## Writing again -/

/-- What `r` reads can be written again, and not in more bytes: behind `pre`, which is known to fit
into the bytes before, the writers `ws` of the value read fit into these and the bytes read. -/
structure Reencodes (pre : List (Writer ε)) (r : Reader ε α) (ws : α → List (Writer ε)) : Prop where
  fits : ∀ {bytes rest : List UInt8} {a : α} {out : List UInt8}, r bytes = .ok (a, rest) →
    Writer.concat pre = .ok out → ∃ out', Writer.concat (ws a) = .ok out' ∧
      out'.length + rest.length ≤ out.length + bytes.length

namespace Reencodes

open Writer

variable {pre : List (Writer ε)} {r : Reader ε α} {ws : β → List (Writer ε)} {enc : α → Writer ε}

theorem pure {a : α} {ws : α → List (Writer ε)} (h : ws a = pre) :
    Reencodes pre (Pure.pure a : Reader ε α) ws := by
  refine ⟨fun {bytes rest b out} hread hpre => ?_⟩
  obtain ⟨rfl, rfl⟩ := pure_eq_ok.1 hread
  exact ⟨out, by rw [h, hpre], Nat.le_refl _⟩

/-- What was written piece by piece is written as a whole. -/
theorem pure_of_concat {a : α} {ws : α → List (Writer ε)} (h : concat (ws a) = concat pre) :
    Reencodes pre (Pure.pure a : Reader ε α) ws := by
  refine ⟨fun {bytes rest b out} hread hpre => ?_⟩
  obtain ⟨rfl, rfl⟩ := pure_eq_ok.1 hread
  exact ⟨out, by rw [h, hpre], Nat.le_refl _⟩

theorem throw (e : ε) (ws : α → List (Writer ε)) :
    Reencodes pre (throwThe ε e : Reader ε α) ws :=
  ⟨fun hread => (throw_eq_ok.1 hread).elim⟩

/-- The reader reads `a` and the writer writes it again, before both go on; what is known of `a` may
be used behind it. -/
theorem bind_of {P : α → Prop} {next : α → Reader ε β} (hr : Reencodes [] r fun a => [enc a])
    (hreturns : Reader.Returns P r)
    (hnext : ∀ a, P a → Reencodes (pre ++ [enc a]) (next a) ws) :
    Reencodes pre (r >>= next) ws := by
  refine ⟨fun {bytes rest b out} hread hpre => ?_⟩
  obtain ⟨a, mid, ha, hb⟩ := bind_eq_ok.1 hread
  obtain ⟨outA, hA, hlenA⟩ := hr.fits ha rfl
  have hpre' : concat (pre ++ [enc a]) = .ok (out ++ outA) := concat_append hpre hA
  obtain ⟨out', hout', hlen⟩ := (hnext a (hreturns.holds ha)).fits hb hpre'
  refine ⟨out', hout', ?_⟩
  rw [List.length_append] at hlen
  simp only [List.length_nil] at hlenA
  omega

/-- The reader reads `a` and the writer writes it again, before both go on. -/
theorem bind {next : α → Reader ε β} (hr : Reencodes [] r fun a => [enc a])
    (hnext : ∀ a, Reencodes (pre ++ [enc a]) (next a) ws) : Reencodes pre (r >>= next) ws :=
  bind_of (P := fun _ => True) hr ⟨fun _ => trivial⟩ fun a _ => hnext a

/-- Several writers taken as one. -/
theorem single {ws : α → List (Writer ε)} (h : Reencodes [] r ws) :
    Reencodes [] r fun a => [concat (ws a)] := by
  refine ⟨fun {bytes rest a out} hread hpre => ?_⟩
  obtain ⟨out', hout', hlen⟩ := h.fits hread hpre
  refine ⟨out' ++ [], concat_cons_eq_ok.2 ⟨out', [], hout', rfl, rfl⟩, ?_⟩
  rwa [List.append_nil]

/-- The reader checks something, which may be used behind it; the writer does nothing. -/
theorem check {P : α → Prop} {next : α → Reader ε β} (hshrinks : Reader.Shrinks r)
    (hreturns : Reader.Returns P r) (hnext : ∀ a, P a → Reencodes pre (next a) ws) :
    Reencodes pre (r >>= next) ws := by
  refine ⟨fun {bytes rest b out} hread hpre => ?_⟩
  obtain ⟨a, mid, ha, hb⟩ := bind_eq_ok.1 hread
  obtain ⟨out', hout', hlen⟩ := (hnext a (hreturns.holds ha)).fits hb hpre
  have hmid := hshrinks.length_le ha
  exact ⟨out', hout', by omega⟩

/-- The writer checks something that succeeds on what was read; the reader does nothing. -/
theorem skip {w : Writer ε} {ws : α → List (Writer ε)} (hw : w = .ok [])
    (h : Reencodes (pre ++ [w]) r ws) : Reencodes pre r ws := by
  refine ⟨fun {bytes rest b out} hread hpre => ?_⟩
  have hone : concat [w] = .ok [] := concat_cons_eq_ok.2 ⟨[], [], hw, rfl, rfl⟩
  obtain ⟨out', hout', hlen⟩ := h.fits hread (concat_append hpre hone)
  exact ⟨out', hout', by simpa using hlen⟩

theorem many (hr : Reencodes [] r fun a => [enc a]) (n : Nat) :
    Reencodes [] (r.many n) fun as => as.map enc := by
  induction n with
  | zero => exact pure rfl
  | succ n ih =>
    refine ⟨fun {bytes rest as out} hread hpre => ?_⟩
    obtain ⟨a, mid, ha, hread⟩ := bind_eq_ok.1 hread
    obtain ⟨as', mid', has, hread⟩ := bind_eq_ok.1 hread
    obtain ⟨rfl, rfl⟩ := pure_eq_ok.1 hread
    obtain rfl := Except.ok.inj hpre
    obtain ⟨outA, hA, hlenA⟩ := hr.fits ha rfl
    obtain ⟨outAs, hAs, hlenAs⟩ := ih.fits has rfl
    refine ⟨outA ++ outAs, concat_append hA hAs, ?_⟩
    rw [List.length_append]
    simp only [List.length_nil] at hlenA hlenAs ⊢
    omega

end Reencodes

end Codec
