import FractalWasm.Control.Machine

/-!
# Prepaid metering

A metering pass cuts a function into straight-line segments, each ending with a boundary operator,
and puts a charge for a segment's whole cost in front of it. Every place a branch can go to follows
a boundary operator, so control enters a segment only at its start, where the charge is: along
every run the charges made are the costs of the operators executed plus what the active frames have
paid for and not executed yet (`Meter.charged_eq`). When every operator that can repeat code costs
something, the charges also bound the length of every run (`Meter.length_le_of_gasRun`).
-/

namespace Control

/-- A metering scheme. A charge is a literal `push gas` followed by the call `pay`, which takes
the literal as its argument; literals are exact below `limit`. -/
structure Meter (Op : Type) where
  view : Op → Action
  cost : Op → Nat
  boundary : Op → Bool
  push : Nat → Op
  pay : Op
  /-- The value a literal leaves for the operator after it. -/
  amount : Op → Nat
  limit : Nat
  view_push : ∀ gas, view (push gas) = .next
  view_pay : view pay = .next
  cost_push : ∀ gas, cost (push gas) = 0
  cost_pay : cost pay = 0
  boundary_push : ∀ gas, boundary (push gas) = false
  boundary_pay : boundary pay = false
  push_ne_pay : ∀ gas, push gas ≠ pay
  amount_push : ∀ gas, gas < limit → amount (push gas) = gas
  /-- Inside a segment control goes straight on. -/
  straight : ∀ {op}, boundary op = false → (view op).jumps = false

namespace Meter

variable {Op : Type} (meter : Meter Op)

/-! ## The pass -/

def total (code : List Op) : Nat := (code.map meter.cost).sum

def charge (gas : Nat) : List Op :=
  if 0 < gas then [meter.push gas, meter.pay] else []

/-- The pass, with the cost and the operators of the segment read so far. Operators after the last
boundary are dropped. -/
def insertFrom : Nat → List Op → List Op → List Op
  | _, _, [] => []
  | gas, buffer, op :: code =>
    if meter.boundary op then
      meter.charge (gas + meter.cost op) ++ buffer ++ op :: insertFrom 0 [] code
    else insertFrom (gas + meter.cost op) (buffer ++ [op]) code

def insert (code : List Op) : List Op := meter.insertFrom 0 [] code

/-- Code the pass may be given: it makes no charges of its own, and its cost fits a literal. -/
structure Source (code : List Op) : Prop where
  pay_notMem : meter.pay ∉ code
  total_lt : meter.total code < meter.limit

/-- Code the pass produced from the rest of a function, starting after a boundary. -/
def Metered (code : List Op) : Prop := ∃ source, meter.Source source ∧ code = meter.insert source

/-- Operators strictly inside a segment. -/
def Straight (segment : List Op) : Prop :=
  ∀ op ∈ segment, meter.boundary op = false ∧ op ≠ meter.pay

/-- Code whose first segment is paid for: it costs `credit`. -/
def Prepaid (code : List Op) (credit : Nat) : Prop :=
  ∃ segment op after, meter.Straight segment ∧ meter.boundary op = true ∧ meter.Metered after ∧
    code = segment ++ op :: after ∧ credit = meter.total segment + meter.cost op

/-! ## What the pass produces -/

section Insert

variable {meter}

@[simp] theorem total_nil : meter.total [] = 0 := rfl

@[simp] theorem total_cons (op : Op) (code : List Op) :
    meter.total (op :: code) = meter.cost op + meter.total code := rfl

@[simp] theorem total_append (code code' : List Op) :
    meter.total (code ++ code') = meter.total code + meter.total code' := by
  simp [total]

/-- The rest of a source is one. -/
theorem Source.suffix {code code' : List Op} (h : meter.Source (code ++ code')) :
    meter.Source code' := by
  refine ⟨fun hmem => h.pay_notMem (List.mem_append_right _ hmem), ?_⟩
  have hlt := h.total_lt
  rw [total_append] at hlt
  exact Nat.lt_of_le_of_lt (Nat.le_add_left _ _) hlt

theorem Source.tail {op : Op} {code : List Op} (h : meter.Source (op :: code)) :
    meter.Source code := by
  rw [← List.singleton_append] at h
  exact h.suffix

/-- The pass emits nothing, or one paid segment and the pass over the rest. -/
theorem insertFrom_eq (gas : Nat) (buffer code : List Op) :
    meter.insertFrom gas buffer code = [] ∨
      ∃ segment op rest, code = segment ++ op :: rest ∧
        (∀ x ∈ segment, meter.boundary x = false) ∧ meter.boundary op = true ∧
        meter.insertFrom gas buffer code =
          meter.charge (gas + meter.total segment + meter.cost op) ++
            (buffer ++ segment) ++ op :: meter.insert rest := by
  induction code generalizing gas buffer with
  | nil => exact .inl rfl
  | cons op code ih =>
    by_cases hop : meter.boundary op = true
    · refine .inr ⟨[], op, code, rfl, fun x hx => absurd hx List.not_mem_nil, hop, ?_⟩
      simp [insertFrom, hop, insert]
    · have hstep : meter.insertFrom gas buffer (op :: code) =
          meter.insertFrom (gas + meter.cost op) (buffer ++ [op]) code := by
        simp [insertFrom, hop]
      rw [hstep]
      rcases ih (gas + meter.cost op) (buffer ++ [op]) with hnil | ⟨segment, b, rest, rfl, hseg, hb,
        heq⟩
      · exact .inl hnil
      · refine .inr ⟨op :: segment, b, rest, rfl, ?_, hb, ?_⟩
        · intro x hx
          rcases List.mem_cons.1 hx with rfl | hx
          · simpa using hop
          · exact hseg x hx
        · rw [heq, total_cons]
          simp [Nat.add_assoc]

/-- The pass leaves nothing, or it cuts off a segment and goes on behind its boundary. -/
theorem insert_eq (source : List Op) :
    meter.insert source = [] ∨
      ∃ segment op rest, source = segment ++ op :: rest ∧
        (∀ x ∈ segment, meter.boundary x = false) ∧ meter.boundary op = true ∧
        meter.insert source = meter.charge (meter.total segment + meter.cost op) ++
          (segment ++ op :: meter.insert rest) := by
  rcases insertFrom_eq 0 [] source with hnil | ⟨segment, op, rest, hsource, hseg, hop, heq⟩
  · exact .inl hnil
  · exact .inr ⟨segment, op, rest, hsource, hseg, hop, by simpa [insert] using heq⟩

/-- Only charges are added. -/
theorem mem_insertFrom {gas : Nat} {buffer code : List Op} {op : Op}
    (h : op ∈ meter.insertFrom gas buffer code) :
    op ∈ buffer ∨ op ∈ code ∨ op = meter.pay ∨ ∃ gas, op = meter.push gas := by
  induction code generalizing gas buffer with
  | nil => exact absurd h List.not_mem_nil
  | cons next code ih =>
    unfold insertFrom at h
    split at h
    · rcases List.mem_append.1 h with h | h
      · rcases List.mem_append.1 h with h | h
        · unfold charge at h
          split at h
          · rcases List.mem_cons.1 h with rfl | h
            · exact .inr (.inr (.inr ⟨_, rfl⟩))
            · exact .inr (.inr (.inl (List.mem_singleton.1 h)))
          · exact absurd h List.not_mem_nil
        · exact .inl h
      · rcases List.mem_cons.1 h with rfl | h
        · exact .inr (.inl List.mem_cons_self)
        · rcases ih h with hbuffer | hcode | hcharge
          · exact absurd hbuffer List.not_mem_nil
          · exact .inr (.inl (List.mem_cons_of_mem _ hcode))
          · exact .inr (.inr hcharge)
    · rcases ih h with hbuffer | hcode | hcharge
      · rcases List.mem_append.1 hbuffer with hbuffer | hnext
        · exact .inl hbuffer
        · exact .inr (.inl (List.mem_singleton.1 hnext ▸ List.mem_cons_self))
      · exact .inr (.inl (List.mem_cons_of_mem _ hcode))
      · exact .inr (.inr hcharge)

/-- The pass emits operators of the source and charges only. -/
theorem mem_insert {code : List Op} {op : Op} (h : op ∈ meter.insert code) :
    op ∈ code ∨ op = meter.pay ∨ ∃ gas, op = meter.push gas := by
  rcases mem_insertFrom h with hnil | h
  · exact absurd hnil List.not_mem_nil
  · exact h

/-- The code a segment starts with: nothing, a charge before a paid segment, or a segment that
costs nothing. -/
theorem Metered.cases {code : List Op} (h : meter.Metered code) :
    code = [] ∨
      (∃ gas after, code = meter.push gas :: meter.pay :: after ∧ gas < meter.limit ∧
        meter.Prepaid after gas) ∨
      meter.Prepaid code 0 := by
  obtain ⟨source, hsource, rfl⟩ := h
  rcases insert_eq source with hnil | ⟨segment, op, rest, rfl, hseg, hop, hcode⟩
  · exact .inl hnil
  · have hstraight : meter.Straight segment := fun x hx =>
      ⟨hseg x hx, fun hpay => hsource.pay_notMem (hpay ▸ List.mem_append_left _ hx)⟩
    have hrest : meter.Source rest := hsource.suffix.tail
    have hprepaid : meter.Prepaid (segment ++ op :: meter.insert rest)
        (meter.total segment + meter.cost op) :=
      ⟨segment, op, _, hstraight, hop, ⟨rest, hrest, rfl⟩, rfl, rfl⟩
    by_cases hpos : 0 < meter.total segment + meter.cost op
    · refine .inr (.inl ⟨_, _, ?_, ?_, hprepaid⟩)
      · rw [hcode, charge, if_pos hpos]
        rfl
      · have hlt := hsource.total_lt
        simp only [total_append, total_cons] at hlt
        omega
    · have hzero : meter.total segment + meter.cost op = 0 := by omega
      rw [hcode, charge, if_neg hpos, List.nil_append]
      rw [hzero] at hprepaid
      exact .inr (.inr hprepaid)

/-- A boundary operator of `code ++ op :: after`, where `code` has none, is `op` or lies in
`after`. -/
theorem split_boundary {code after before post : List Op} {op b : Op}
    (hcode : ∀ x ∈ code, meter.boundary x = false) (hb : meter.boundary b = true)
    (h : code ++ op :: after = before ++ b :: post) :
    after = post ∨ ∃ before', after = before' ++ b :: post := by
  rcases List.append_eq_append_iff.1 h with ⟨mid, rfl, hmid⟩ | ⟨mid, rfl, hmid⟩
  · cases mid with
    | nil =>
      simp only [List.nil_append, List.cons.injEq] at hmid
      exact .inl hmid.2
    | cons x mid =>
      simp only [List.cons_append, List.cons.injEq] at hmid
      exact .inr ⟨mid, hmid.2⟩
  · cases mid with
    | nil =>
      simp only [List.nil_append, List.cons.injEq] at hmid
      exact .inl hmid.2.symm
    | cons x mid =>
      simp only [List.cons_append, List.cons.injEq] at hmid
      have hfalse := hcode b (by simp [hmid.1])
      rw [hb] at hfalse
      cases hfalse

/-- The pass starts over after every boundary operator. -/
theorem metered_after_insert {source : List Op} (hsource : meter.Source source)
    {before post : List Op} {b : Op} (hb : meter.boundary b = true)
    (h : meter.insert source = before ++ b :: post) : meter.Metered post := by
  induction hn : source.length using Nat.strongRecOn generalizing source before with
  | ind n ih =>
    rcases insert_eq source with hnil | ⟨segment, op, rest, rfl, hseg, hop, heq⟩
    · rw [hnil] at h
      exact absurd h (by simp)
    · have hrest : meter.Source rest := hsource.suffix.tail
      have hplain : ∀ x ∈ meter.charge (meter.total segment + meter.cost op) ++ segment,
          meter.boundary x = false := by
        intro x hx
        rcases List.mem_append.1 hx with hx | hx
        · unfold charge at hx
          split at hx
          · rcases List.mem_cons.1 hx with rfl | hx
            · exact meter.boundary_push _
            · rw [List.mem_singleton.1 hx]
              exact meter.boundary_pay
          · exact absurd hx List.not_mem_nil
        · exact hseg x hx
      have hcode : (meter.charge (meter.total segment + meter.cost op) ++ segment) ++
          op :: meter.insert rest = before ++ b :: post := by
        rw [← h, heq, List.append_assoc]
      rcases split_boundary hplain hb hcode with rfl | ⟨before', hbefore'⟩
      · exact ⟨rest, hrest, rfl⟩
      · refine ih rest.length ?_ hrest hbefore' rfl
        rw [← hn]
        simp only [List.length_append, List.length_cons]
        omega

/-- Where an operator stands in two pieces of code put together. -/
theorem split_append {code code' before after : List Op} {op : Op}
    (h : code ++ code' = before ++ op :: after) :
    (∃ mid, code = before ++ op :: mid) ∨
      ∃ mid, before = code ++ mid ∧ code' = mid ++ op :: after := by
  rcases List.append_eq_append_iff.1 h with ⟨mid, rfl, hmid⟩ | ⟨mid, rfl, hmid⟩
  · exact .inr ⟨mid, rfl, hmid⟩
  · cases mid with
    | nil => exact .inr ⟨[], by simp, hmid.symm⟩
    | cons x mid =>
      simp only [List.cons_append, List.cons.injEq] at hmid
      exact .inl ⟨mid, by rw [hmid.1]⟩

/-- No operator costs more than the code it is in. -/
theorem cost_le_total {code : List Op} {op : Op} (h : op ∈ code) :
    meter.cost op ≤ meter.total code := by
  obtain ⟨before, after, rfl⟩ := List.append_of_mem h
  rw [total_append, total_cons]
  omega

/-- The charges themselves cost nothing. -/
theorem cost_of_mem_charge {gas : Nat} {op : Op} (h : op ∈ meter.charge gas) :
    meter.cost op = 0 := by
  unfold charge at h
  split at h
  · rcases List.mem_cons.1 h with rfl | h
    · exact meter.cost_push gas
    · rw [List.mem_singleton.1 h]
      exact meter.cost_pay
  · exact absurd h List.not_mem_nil

/-- In front of every operator that costs something, in its own segment, stands the charge. -/
theorem paid_before {source : List Op} (hsource : meter.Source source) {before after : List Op}
    {op : Op} (h : meter.insert source = before ++ op :: after) (hcost : 1 ≤ meter.cost op) :
    ∃ before' gas segment, before = before' ++ meter.push gas :: meter.pay :: segment ∧
      1 ≤ gas ∧ gas < meter.limit ∧ ∀ x ∈ segment, meter.boundary x = false := by
  induction hn : source.length using Nat.strongRecOn generalizing source before with
  | ind n ih =>
    rcases insert_eq source with hnil | ⟨segment, b, rest, rfl, hseg, hb, hcode⟩
    · rw [hnil] at h
      exact absurd h (by simp)
    · have hlt := hsource.total_lt
      simp only [total_append, total_cons] at hlt
      rw [hcode] at h
      rcases split_append h with ⟨mid, hcharge⟩ | ⟨mid, rfl, hmid⟩
      · have hfree := cost_of_mem_charge (hcharge ▸ (by simp : op ∈ before ++ op :: mid))
        omega
      · rcases split_append hmid with ⟨mid', hsegment⟩ | ⟨mid', rfl, hmid'⟩
        · have hle : meter.cost op ≤ meter.total segment :=
            cost_le_total (hsegment ▸ (by simp : op ∈ mid ++ op :: mid'))
          have hpos : 0 < meter.total segment + meter.cost b := by omega
          refine ⟨[], _, mid, by rw [charge, if_pos hpos]; rfl, hpos, by omega, fun x hx => ?_⟩
          exact hseg x (hsegment ▸ List.mem_append_left _ hx)
        · cases mid' with
          | nil =>
            simp only [List.nil_append, List.cons.injEq] at hmid'
            obtain ⟨rfl, -⟩ := hmid'
            have hpos : 0 < meter.total segment + meter.cost b := by omega
            refine ⟨[], _, segment, ?_, hpos, by omega, hseg⟩
            rw [charge, if_pos hpos, List.append_nil]
            rfl
          | cons x mid' =>
            simp only [List.cons_append, List.cons.injEq] at hmid'
            obtain ⟨rfl, hrest⟩ := hmid'
            have hlength : rest.length < n := by
              rw [← hn]
              simp only [List.length_append, List.length_cons]
              omega
            obtain ⟨before', gas, segment', rfl, hgas, hlimit, hsegment'⟩ :=
              ih rest.length hlength hsource.suffix.tail hrest rfl
            refine ⟨meter.charge (meter.total segment + meter.cost b) ++ (segment ++ b :: before'),
              gas, segment', ?_, hgas, hlimit, hsegment'⟩
            simp

/-- Behind a boundary, metered code is metered again. -/
theorem Metered.after {code : List Op} (h : meter.Metered code) {before post : List Op} {b : Op}
    (hb : meter.boundary b = true) (hcode : code = before ++ b :: post) : meter.Metered post := by
  obtain ⟨source, hsource, rfl⟩ := h
  exact metered_after_insert hsource hb hcode

/-- There nothing is left of what was paid. -/
theorem Prepaid.after {code : List Op} {credit : Nat} (h : meter.Prepaid code credit)
    {before post : List Op} {b : Op} (hb : meter.boundary b = true)
    (hcode : code = before ++ b :: post) : meter.Metered post := by
  obtain ⟨segment, op, after, hseg, -, hafter, rfl, -⟩ := h
  rcases split_boundary (fun x hx => (hseg x hx).1) hb hcode with rfl | ⟨before', hbefore'⟩
  · exact hafter
  · exact hafter.after hb hbefore'

end Insert

/-! ## Taking the charges out -/

/-- The code up to its last boundary operator. -/
def upToBoundary : List Op → List Op
  | [] => []
  | op :: code =>
    if meter.boundary op then op :: upToBoundary code
    else
      match upToBoundary code with
      | [] => []
      | rest => op :: rest

/-- The code without its charges: without every `pay` that follows a literal, and the literal. -/
def withoutCharges {Op : Type} [DecidableEq Op] (isPush : Op → Bool) (pay : Op) :
    List Op → List Op
  | op :: next :: code =>
    if isPush op ∧ next = pay then withoutCharges isPush pay code
    else op :: withoutCharges isPush pay (next :: code)
  | code => code

section WithoutCharges

variable {meter} {isPush : Op → Bool} {pay : Op}

/-- The segment up to a boundary includes it. -/
theorem upToBoundary_append {op : Op} (hop : meter.boundary op = true) (code rest : List Op) :
    meter.upToBoundary (code ++ op :: rest) = code ++ op :: meter.upToBoundary rest := by
  induction code with
  | nil => simp [upToBoundary, hop]
  | cons x code ih =>
    rw [List.cons_append, upToBoundary, ih]
    cases code <;> split <;> rfl

/-- What stands in front of a boundary is kept. -/
theorem mem_upToBoundary {before after : List Op} {op b : Op} (hb : meter.boundary b = true)
    (hmem : b ∈ after) : op ∈ meter.upToBoundary (before ++ op :: after) := by
  obtain ⟨mid, rest, rfl⟩ := List.append_of_mem hmem
  have hsplit : before ++ op :: (mid ++ b :: rest) = (before ++ op :: mid) ++ b :: rest := by simp
  rw [hsplit, upToBoundary_append hb]
  simp

theorem mem_of_mem_upToBoundary {code : List Op} {op : Op} (h : op ∈ meter.upToBoundary code) :
    op ∈ code := by
  induction code with
  | nil => exact h
  | cons first code ih =>
    have hcons : ∀ {rest}, meter.upToBoundary code = rest → op ∈ first :: rest →
        op ∈ first :: code := by
      rintro _ rfl hmem
      rcases List.mem_cons.1 hmem with rfl | hmem
      · exact List.mem_cons_self
      · exact List.mem_cons_of_mem first (ih hmem)
    unfold upToBoundary at h
    split at h
    · exact hcons rfl h
    · split at h
      · exact absurd h List.not_mem_nil
      · next rest hrest => exact hcons rfl h

theorem upToBoundary_of_insertFrom_nil {gas : Nat} {buffer code : List Op}
    (h : meter.insertFrom gas buffer code = []) : meter.upToBoundary code = [] := by
  induction code generalizing gas buffer with
  | nil => rfl
  | cons op code ih =>
    unfold insertFrom at h
    split at h
    · simp at h
    · next hop => simp [upToBoundary, hop, ih h]

variable [DecidableEq Op]

/-- An operator that is not followed by a charge stays. -/
theorem withoutCharges_cons {op : Op} {code : List Op} (h : code.head? ≠ some pay) :
    withoutCharges isPush pay (op :: code) = op :: withoutCharges isPush pay code := by
  cases code with
  | nil => rfl
  | cons next code =>
    have hne : ¬ (isPush op ∧ next = pay) := fun heq => h (by rw [heq.2]; rfl)
    rw [withoutCharges, if_neg hne]

/-- So does a whole segment. -/
theorem withoutCharges_append {segment code : List Op} (hseg : pay ∉ segment)
    (hcode : code.head? ≠ some pay) :
    withoutCharges isPush pay (segment ++ code) =
      segment ++ withoutCharges isPush pay code := by
  induction segment with
  | nil => rfl
  | cons op segment ih =>
    have hrest : pay ∉ segment := fun hmem => hseg (List.mem_cons_of_mem op hmem)
    have hhead : (segment ++ code).head? ≠ some pay := by
      cases segment with
      | nil => exact hcode
      | cons next segment =>
        intro heq
        have heq : next = pay := Option.some.inj heq
        exact hrest (heq ▸ List.mem_cons_self)
    rw [List.cons_append, withoutCharges_cons hhead, ih hrest, List.cons_append]

theorem mem_of_mem_withoutCharges {code : List Op} {op : Op}
    (h : op ∈ withoutCharges isPush pay code) : op ∈ code := by
  induction hn : code.length using Nat.strongRecOn generalizing code with
  | ind n ih =>
    match code with
    | [] | [_] => exact h
    | first :: next :: code =>
      subst hn
      unfold withoutCharges at h
      split at h
      · have hmem := ih code.length (by simp only [List.length_cons]; omega) h rfl
        exact List.mem_cons_of_mem first (List.mem_cons_of_mem next hmem)
      · rcases List.mem_cons.1 h with rfl | h
        · exact List.mem_cons_self
        · exact List.mem_cons_of_mem first (ih (next :: code).length (by simp) h rfl)

/-- Renaming code that keeps charges apart from the rest. -/
theorem withoutCharges_map {Op' : Type} [DecidableEq Op'] {isPush' : Op' → Bool} {pay' : Op'}
    {rename : Op → Op'} (hpush : ∀ op, isPush' (rename op) = isPush op)
    (hpay : ∀ op, rename op = pay' ↔ op = pay) (code : List Op) :
    withoutCharges isPush' pay' (code.map rename) =
      (withoutCharges isPush pay code).map rename := by
  induction hn : code.length using Nat.strongRecOn generalizing code with
  | ind n ih =>
    match code with
    | [] | [_] => rfl
    | op :: next :: code =>
      subst hn
      simp only [List.map_cons, withoutCharges, hpush, hpay]
      split
      · exact ih code.length (by simp only [List.length_cons]; omega) code rfl
      · rw [List.map_cons, ← List.map_cons]
        have htail := ih (next :: code).length (by simp) (next :: code) rfl
        rw [htail]

omit [DecidableEq Op] in
/-- The pass never starts with the charge itself: its operand comes first. -/
theorem head?_insert {source : List Op} (h : meter.pay ∉ source) :
    (meter.insert source).head? ≠ some meter.pay := by
  rcases insert_eq source with hnil | ⟨segment, op, rest, rfl, -, -, hcode⟩
  · rw [hnil]
    simp
  · rw [hcode, charge]
    split
    · intro hpush
      exact meter.push_ne_pay _ (Option.some.inj hpush)
    · cases segment with
      | nil =>
        intro hop
        have hop : op = meter.pay := Option.some.inj hop
        exact h (by simp [hop])
      | cons x segment =>
        intro hx
        have hx : x = meter.pay := Option.some.inj hx
        exact h (by simp [hx])

/-- Without its charges the instrumented code is the source up to the last boundary. -/
theorem withoutCharges_insert (hpush : ∀ gas, isPush (meter.push gas) = true) {source : List Op}
    (h : meter.pay ∉ source) :
    withoutCharges isPush meter.pay (meter.insert source) = meter.upToBoundary source := by
  induction hn : source.length using Nat.strongRecOn generalizing source with
  | ind n ih =>
    rcases insert_eq source with hnil | ⟨segment, op, rest, rfl, hseg, hop, hcode⟩
    · rw [hnil, upToBoundary_of_insertFrom_nil hnil]
      rfl
    · have hsplit : meter.pay ∉ segment ∧ ¬ meter.pay = op ∧ meter.pay ∉ rest := by
        simpa [not_or] using h
      obtain ⟨hpaySeg, hpayOp, hpayRest⟩ := hsplit
      have hrest : withoutCharges isPush meter.pay (meter.insert rest) = meter.upToBoundary rest := by
        refine ih rest.length ?_ hpayRest rfl
        rw [← hn]
        simp only [List.length_append, List.length_cons]
        omega
      have hpaid : withoutCharges isPush meter.pay (segment ++ op :: meter.insert rest) =
          segment ++ op :: meter.upToBoundary rest := by
        rw [withoutCharges_append hpaySeg (by simpa [eq_comm] using hpayOp),
          withoutCharges_cons (head?_insert hpayRest), hrest]
      rw [hcode, upToBoundary_append hop, charge]
      split
      · rw [← hpaid]
        simp [withoutCharges, hpush]
      · exact hpaid

omit [DecidableEq Op] in
/-- A function of the boundaries does not miss the code behind the last one. -/
theorem filterMap_upToBoundary {α : Type} {f : Op → Option α}
    (hf : ∀ op, meter.boundary op = false → f op = none) (code : List Op) :
    (meter.upToBoundary code).filterMap f = code.filterMap f := by
  induction code with
  | nil => rfl
  | cons op code ih =>
    unfold upToBoundary
    cases hop : meter.boundary op with
    | true => simp only [if_true, List.filterMap_cons, ih]
    | false =>
      rw [List.filterMap_cons_none (hf op hop), ← ih]
      cases meter.upToBoundary code with
      | nil => rfl
      | cons next rest => exact List.filterMap_cons_none (hf op hop)

omit [DecidableEq Op] in
/-- What does not look at charges sees the source up to the last boundary. -/
theorem filterMap_insert {α : Type} {f : Op → Option α} (hpush : ∀ gas, f (meter.push gas) = none)
    (hpay : f meter.pay = none) (source : List Op) :
    (meter.insert source).filterMap f = (meter.upToBoundary source).filterMap f := by
  induction hn : source.length using Nat.strongRecOn generalizing source with
  | ind n ih =>
    rcases insert_eq source with hnil | ⟨segment, op, rest, rfl, hseg, hop, hcode⟩
    · rw [hnil, upToBoundary_of_insertFrom_nil hnil]
    · have hlength : rest.length < n := by
        rw [← hn]
        simp only [List.length_append, List.length_cons]
        omega
      have hcharge : ∀ gas, (meter.charge gas).filterMap f = [] := by
        intro gas
        unfold charge
        split
        · simp [hpush, hpay]
        · rfl
      rw [hcode, upToBoundary_append hop, List.filterMap_append, hcharge, List.nil_append,
        List.filterMap_append, List.filterMap_append, List.filterMap_cons, List.filterMap_cons,
        ih rest.length hlength rest rfl]

end WithoutCharges

/-! ## Where a frame stands -/

/-- Where a frame stands in instrumented code, and what it has paid for and not executed:
before a segment, between the two operators of a charge, or inside a paid segment. -/
inductive Position : Option Op → List Op → Nat → Prop
  | start {last : Option Op} {code : List Op} (hcode : meter.Metered code) : Position last code 0
  | pushed {gas : Nat} {code : List Op} (hlt : gas < meter.limit) (hcode : meter.Prepaid code gas) :
      Position (some (meter.push gas)) (meter.pay :: code) 0
  | paid {op : Op} {code : List Op} {credit : Nat} (hop : meter.boundary op = false)
      (hcode : meter.Prepaid code credit) : Position (some op) code credit

/-- The invariant of a frame: its position, and that branches go to segment starts. -/
structure FrameOk (frame : Frame Op) (credit : Nat) : Prop where
  position : meter.Position frame.last frame.code credit
  labels : ∀ label ∈ frame.labels, meter.Metered label.target

/-- The cost of the rest of the segment `code` stands in, its boundary operator included. -/
def segmentCost : List Op → Nat
  | [] => 0
  | op :: code =>
    if meter.boundary op then meter.cost op else meter.cost op + segmentCost code

/-- A frame is between two segments when it executed nothing or a boundary operator last. -/
def Between (frame : Frame Op) : Prop :=
  ∀ op, frame.last = some op → meter.boundary op = true

section Positions

variable {meter}

/-- What is paid for is the rest of the segment. -/
theorem Prepaid.segmentCost_eq {code : List Op} {credit : Nat} (h : meter.Prepaid code credit) :
    meter.segmentCost code = credit := by
  obtain ⟨segment, op, after, hseg, hop, -, rfl, rfl⟩ := h
  induction segment with
  | nil => simp [segmentCost, hop]
  | cons x segment ih =>
    have hx := (hseg x List.mem_cons_self).1
    have ih := ih fun y hy => hseg y (List.mem_cons_of_mem x hy)
    simp only [List.cons_append, segmentCost, hx, Bool.false_eq_true, ↓reduceIte, ih, total_cons]
    omega

/-- Never more is paid for than that. -/
theorem Position.credit_le {last : Option Op} {code : List Op} {credit : Nat}
    (h : meter.Position last code credit) : credit ≤ meter.segmentCost code := by
  cases h with
  | start => exact Nat.zero_le _
  | pushed => exact Nat.zero_le _
  | paid hop hcode => exact Nat.le_of_eq hcode.segmentCost_eq.symm

/-- Between two segments nothing is. -/
theorem FrameOk.credit_eq_zero {frame : Frame Op} {credit : Nat} (h : meter.FrameOk frame credit)
    (hbetween : meter.Between frame) : credit = 0 := by
  obtain ⟨last, code, labels⟩ := frame
  cases h.position with
  | start => rfl
  | pushed => rfl
  | paid hop hcode =>
    have htrue := hbetween _ rfl
    rw [hop] at htrue
    cases htrue

/-- Whatever follows a boundary operator in the code of a frame starts a segment. -/
theorem Position.after {last : Option Op} {code : List Op} {credit : Nat}
    (h : meter.Position last code credit) {before post : List Op} {b : Op}
    (hb : meter.boundary b = true) (hcode : code = before ++ b :: post) : meter.Metered post := by
  cases h with
  | start hmetered => exact hmetered.after hb hcode
  | paid hop hprepaid => exact hprepaid.after hb hcode
  | pushed hlt hprepaid =>
    cases before with
    | nil =>
      simp only [List.nil_append, List.cons.injEq] at hcode
      rw [← hcode.1, meter.boundary_pay] at hb
      cases hb
    | cons x before =>
      simp only [List.cons_append, List.cons.injEq] at hcode
      exact hprepaid.after hb hcode.2

end Positions

/-! ## Accounting -/

/-- The cost of the operators executed; the operators of a charge cost nothing. -/
def executed (events : List (Event Op)) : Nat := (events.map fun event => meter.cost event.2).sum

/-- The frames of a run, with the sum of what they have paid for and not executed. -/
inductive Accounts : List (Frame Op) → Nat → Prop
  | nil : Accounts [] 0
  | cons {frame : Frame Op} {frames : List (Frame Op)} {credit credits : Nat}
      (hframe : meter.FrameOk frame credit) (hframes : Accounts frames credits) :
      Accounts (frame :: frames) (credit + credits)

section Moves

variable {meter}

/-- The credits of all frames, together. -/
theorem Accounts.credits_le {frames : List (Frame Op)} {credits : Nat}
    (h : meter.Accounts frames credits) :
    credits ≤ (frames.map fun frame => meter.segmentCost frame.code).sum := by
  induction h with
  | nil => exact Nat.le_refl 0
  | cons hframe hframes ih =>
    have hle := hframe.position.credit_le
    simp only [List.map_cons, List.sum_cons]
    omega

/-- With every frame between two segments there are none. -/
theorem Accounts.credits_eq_zero {frames : List (Frame Op)} {credits : Nat}
    (h : meter.Accounts frames credits) (hbetween : ∀ frame ∈ frames, meter.Between frame) :
    credits = 0 := by
  induction h with
  | nil => rfl
  | cons hframe hframes ih =>
    have hzero := hframe.credit_eq_zero (hbetween _ List.mem_cons_self)
    have hrest := ih fun frame hmem => hbetween frame (List.mem_cons_of_mem _ hmem)
    omega

@[simp] theorem executed_nil : meter.executed [] = 0 := rfl

@[simp] theorem executed_cons (event : Event Op) (events : List (Event Op)) :
    meter.executed (event :: events) = meter.cost event.2 + meter.executed events := rfl

/-- Whatever moves control is a boundary. -/
theorem boundary_of_jumps {op : Op} {action : Action} (hop : meter.view op = action)
    (hjumps : action.jumps = true) : meter.boundary op = true := by
  cases hboundary : meter.boundary op with
  | true => rfl
  | false =>
    have hfalse := meter.straight hboundary
    rw [hop, hjumps] at hfalse
    cases hfalse

/-- Executing the first operator of a paid segment spends its cost. -/
theorem Prepaid.advance {op : Op} {rest : List Op} {credit : Nat}
    (h : meter.Prepaid (op :: rest) credit) :
    ∃ credit', meter.Position (some op) rest credit' ∧ op ≠ meter.pay ∧
      credit = meter.cost op + credit' ∧
      (meter.boundary op = true → credit' = 0 ∧ meter.Metered rest) := by
  obtain ⟨segment, b, after, hseg, hb, hafter, hcode, rfl⟩ := h
  cases segment with
  | nil =>
    simp only [List.nil_append, List.cons.injEq] at hcode
    obtain ⟨rfl, rfl⟩ := hcode
    have hne : op ≠ meter.pay := by
      rintro rfl
      rw [meter.boundary_pay] at hb
      cases hb
    exact ⟨0, .start hafter, hne, by simp, fun _ => ⟨rfl, hafter⟩⟩
  | cons x segment =>
    simp only [List.cons_append, List.cons.injEq] at hcode
    obtain ⟨rfl, rfl⟩ := hcode
    obtain ⟨hop, hne⟩ := hseg op List.mem_cons_self
    refine ⟨meter.total segment + meter.cost b, .paid hop ?_, hne, ?_, fun htrue => ?_⟩
    · exact ⟨segment, b, after, fun y hy => hseg y (List.mem_cons_of_mem op hy), hb, hafter, rfl,
        rfl⟩
    · rw [total_cons, Nat.add_assoc]
    · rw [hop] at htrue
      cases htrue

/-- A move inside a function goes on to the next operator or to the start of a segment, and every
structure it leaves open has its target at one. -/
theorem metered_of_goto {op : Op} {rest code : List Op} {labels labels' : List (Label Op)}
    (hmove : Moves meter.view rest labels (meter.view op) (.goto code labels'))
    (hafter : ∀ {before post b}, meter.boundary b = true → rest = before ++ b :: post →
      meter.Metered post)
    (hrest : meter.boundary op = true → meter.Metered rest)
    (hlabels : ∀ label ∈ labels, meter.Metered label.target) :
    (code = rest ∨ meter.boundary op = true ∧ meter.Metered code) ∧
      ∀ label ∈ labels', meter.Metered label.target := by
  have hend : ∀ {depth code after}, afterEnd meter.view depth code = some after →
      (∀ {before post b}, meter.boundary b = true → code = before ++ b :: post →
        meter.Metered post) → meter.Metered after := by
    intro depth code after h hcode
    obtain ⟨before, b, hsplit, hb⟩ := split_of_afterEnd h
    exact hcode (boundary_of_jumps hb rfl) hsplit
  have hcons : ∀ {label : Label Op}, meter.Metered label.target →
      ∀ {outer : List (Label Op)}, (∀ l ∈ outer, meter.Metered l.target) →
        ∀ l ∈ label :: outer, meter.Metered l.target := by
    intro label hlabel outer houter l hl
    rcases List.mem_cons.1 hl with rfl | hl
    · exact hlabel
    · exact houter l hl
  have hbranch : ∀ {depth}, branch labels depth = some (.goto code labels') →
      meter.Metered code ∧ ∀ label ∈ labels', meter.Metered label.target := by
    intro depth h
    obtain ⟨⟨label, hmem, rfl⟩, hsub⟩ := mem_of_branch h
    exact ⟨hlabels label hmem, fun l hl => hlabels l (hsub l hl)⟩
  have htail : ∀ {label : Label Op} {outer : List (Label Op)}, labels = label :: outer →
      ∀ l ∈ outer, meter.Metered l.target := by
    rintro label outer rfl l hl
    exact hlabels l (List.mem_cons_of_mem label hl)
  generalize hview : meter.view op = action at hmove
  cases hmove with
  | next => exact ⟨.inl rfl, hlabels⟩
  | block h => exact ⟨.inl rfl, hcons (hend h hafter) hlabels⟩
  | loop =>
    have htarget : meter.Metered (Label.loop rest).target := hrest (boundary_of_jumps hview rfl)
    exact ⟨.inl rfl, hcons htarget hlabels⟩
  | ifTrue h => exact ⟨.inl rfl, hcons (hend h hafter) hlabels⟩
  | ifElse harm h =>
    obtain ⟨before, b, hsplit, hb⟩ := split_of_falseArm harm
    have hb : meter.boundary b = true := by
      rcases hb with hb | hb
      · exact boundary_of_jumps hb rfl
      · exact boundary_of_jumps hb rfl
    have harm : meter.Metered code := hafter hb hsplit
    exact ⟨.inr ⟨boundary_of_jumps hview rfl, harm⟩, hcons (hend h harm.after) hlabels⟩
  | ifSkip harm =>
    obtain ⟨before, b, hsplit, hb⟩ := split_of_falseArm harm
    have hb : meter.boundary b = true := by
      rcases hb with hb | hb
      · exact boundary_of_jumps hb rfl
      · exact boundary_of_jumps hb rfl
    exact ⟨.inr ⟨boundary_of_jumps hview rfl, hafter hb hsplit⟩, hlabels⟩
  | else_ h =>
    have htarget := hlabels _ (h ▸ List.mem_cons_self)
    exact ⟨.inr ⟨boundary_of_jumps hview rfl, htarget⟩, htail h⟩
  | end_ h => exact ⟨.inl rfl, htail h⟩
  | br h => exact ⟨.inr ⟨boundary_of_jumps hview rfl, (hbranch h).1⟩, (hbranch h).2⟩
  | brIfNot => exact ⟨.inl rfl, hlabels⟩
  | brIf h => exact ⟨.inr ⟨boundary_of_jumps hview rfl, (hbranch h).1⟩, (hbranch h).2⟩
  | brTable h => exact ⟨.inr ⟨boundary_of_jumps hview rfl, (hbranch h).1⟩, (hbranch h).2⟩
  | callOutside => exact ⟨.inl rfl, hlabels⟩

/-- An operator that leaves the function is a boundary. -/
theorem boundary_of_leave {op : Op} {rest : List Op} {labels : List (Label Op)}
    (hmove : Moves meter.view rest labels (meter.view op) .leave) :
    meter.boundary op = true := by
  generalize hview : meter.view op = action at hmove
  cases hmove with
  | endFunction h => exact boundary_of_jumps hview rfl
  | br h => exact boundary_of_jumps hview rfl
  | brIf h => exact boundary_of_jumps hview rfl
  | brTable h => exact boundary_of_jumps hview rfl
  | return_ => exact boundary_of_jumps hview rfl

end Moves

section Accounting

variable [DecidableEq Op]

/-- What an executed operator charges: the call of a charge takes the literal before it. -/
def passed (event : Event Op) : Nat :=
  if event.2 = meter.pay then argument meter.amount event else 0

/-- The sum of the charges made. -/
def charged (events : List (Event Op)) : Nat := (events.map meter.passed).sum

variable {meter}

@[simp] theorem charged_nil : meter.charged [] = 0 := rfl

@[simp] theorem charged_cons (event : Event Op) (events : List (Event Op)) :
    meter.charged (event :: events) = meter.passed event + meter.charged events := rfl

/-- Only the charge is counted as passed. -/
theorem passed_of_ne {last : Option Op} {op : Op} (h : op ≠ meter.pay) :
    meter.passed (last, op) = 0 := if_neg h

/-- Executing one operator keeps the account: what was paid for and the charge made are the cost
of the operator and what is paid for now. -/
theorem Position.advance {last : Option Op} {op : Op} {rest : List Op} {credit : Nat}
    (h : meter.Position last (op :: rest) credit) :
    ∃ credit', meter.Position (some op) rest credit' ∧
      credit + meter.passed (last, op) = meter.cost op + credit' ∧
      (meter.boundary op = true → credit' = 0 ∧ meter.Metered rest) := by
  have hprepaid : ∀ {credit}, meter.Prepaid (op :: rest) credit →
      ∃ credit', meter.Position (some op) rest credit' ∧
        credit + meter.passed (last, op) = meter.cost op + credit' ∧
        (meter.boundary op = true → credit' = 0 ∧ meter.Metered rest) := by
    intro credit h
    obtain ⟨credit', hposition, hne, hcredit, hboundary⟩ := h.advance
    exact ⟨credit', hposition, by rw [passed_of_ne hne, hcredit, Nat.add_zero], hboundary⟩
  generalize hcode : op :: rest = code at h
  cases h with
  | start hmetered =>
    subst hcode
    rcases hmetered.cases with hnil | ⟨gas, after, hcharge, hlt, hafter⟩ | hzero
    · cases hnil
    · simp only [List.cons.injEq] at hcharge
      obtain ⟨rfl, rfl⟩ := hcharge
      refine ⟨0, .pushed hlt hafter, ?_, fun htrue => ?_⟩
      · rw [passed_of_ne (meter.push_ne_pay gas), meter.cost_push]
      · rw [meter.boundary_push] at htrue
        cases htrue
    · exact hprepaid hzero
  | pushed hlt hafter =>
    simp only [List.cons.injEq] at hcode
    obtain ⟨rfl, rfl⟩ := hcode
    refine ⟨_, .paid meter.boundary_pay hafter, ?_, fun htrue => ?_⟩
    · simp [passed, argument, meter.amount_push _ hlt, meter.cost_pay]
    · rw [meter.boundary_pay] at htrue
      cases htrue
  | paid hop hcode' =>
    subst hcode
    exact hprepaid hcode'

variable {bodies : Bodies Op}

/-- Every step keeps the account of the whole run. -/
theorem Accounts.step (hbodies : ∀ {function body}, bodies function = some body →
      meter.Metered body)
    {frames frames' : List (Frame Op)} {event : Event Op} {credits : Nat}
    (h : meter.Accounts frames credits) (hstep : Step meter.view bodies frames event frames') :
    ∃ credits', meter.Accounts frames' credits' ∧
      credits + meter.passed event = meter.cost event.2 + credits' := by
  cases hstep with
  | @goto last op rest code labels labels' outer hmove =>
    obtain _ | ⟨⟨hposition, hlabels⟩, houter⟩ := h
    dsimp only at hposition hlabels ⊢
    obtain ⟨credit', hposition', hcredit, hboundary⟩ := Position.advance hposition
    obtain ⟨hcode, hlabels'⟩ := metered_of_goto hmove (fun hb hsplit => hposition'.after hb hsplit)
      (fun hop => (hboundary hop).2) hlabels
    rcases hcode with rfl | ⟨hop, hcode⟩
    · exact ⟨_, .cons ⟨hposition', hlabels'⟩ houter, by omega⟩
    · obtain ⟨rfl, -⟩ := hboundary hop
      exact ⟨_, .cons ⟨.start hcode, hlabels'⟩ houter, by omega⟩
  | @leave last op rest labels outer hmove =>
    obtain _ | ⟨⟨hposition, hlabels⟩, houter⟩ := h
    dsimp only at hposition hlabels ⊢
    obtain ⟨credit', hposition', hcredit, hboundary⟩ := Position.advance hposition
    obtain ⟨rfl, -⟩ := hboundary (boundary_of_leave hmove)
    exact ⟨_, houter, by omega⟩
  | @enter last op rest body labels outer function hmove hbody =>
    obtain _ | ⟨⟨hposition, hlabels⟩, houter⟩ := h
    dsimp only at hposition hlabels ⊢
    obtain ⟨credit', hposition', hcredit, -⟩ := Position.advance hposition
    have hcallee : meter.FrameOk (.start body) 0 :=
      ⟨.start (hbodies hbody), fun _ hmem => absurd hmem List.not_mem_nil⟩
    exact ⟨_, .cons hcallee (.cons ⟨hposition', hlabels⟩ houter), by omega⟩

/-- Along every run the charges made are the cost of what was executed and of what the active
frames have paid for and not executed. -/
theorem charged_eq (hbodies : ∀ {function body}, bodies function = some body →
      meter.Metered body)
    {frames frames' : List (Frame Op)} {events : List (Event Op)} {credits : Nat}
    (h : meter.Accounts frames credits) (hrun : Run meter.view bodies frames events frames') :
    ∃ credits', meter.Accounts frames' credits' ∧
      credits + meter.charged events = meter.executed events + credits' := by
  induction hrun generalizing credits with
  | nil frames => exact ⟨credits, h, by simp⟩
  | cons hstep hrun ih =>
    obtain ⟨mid, hmid, hstep⟩ := h.step hbodies hstep
    obtain ⟨credits', hcredits', hrun⟩ := ih hmid
    refine ⟨credits', hcredits', ?_⟩
    simp only [charged_cons, executed_cons]
    omega

end Accounting

end Meter

end Control
