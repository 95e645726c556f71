import Mathlib.Data.List.Basic

/-!
# Runs of a state machine

A machine is a step function `step : σ → α → Option σ`; `none` means that the action is not possible in that state.
`run` performs a list of actions, `Always` says that a predicate holds in every state a run goes through, `StepsOk`
that every step a run completes meets a condition on the state before it and the action, and `EachStep` that every
action a run comes to meets it, also one that is not possible.

* The invariant rule (`always_of_step`).
* The conditional invariant rule (`always_of_stepsOk`): an invariant that steps meeting a condition keep holds
  throughout every run whose steps all meet it. When each other step breaks the property of interest, the condition is
  exact over runs (`always_iff_stepsOk`). A condition on a count is met by short runs (`stepsOk_of_count`).
* Two conditions on actions that agree under an invariant hold of the same runs (`eachStep_congr`).
* The simulation rule (`outs_simulates`), for machines that may fault and whose steps return a result: when a relation
  carries every step of a machine to a step of its specification with the same result, it carries whole runs.
-/

namespace Libcp2p

section Machine

variable {σ α : Type} (step : σ → α → Option σ)

/-- The state after the actions `as` from `s`. -/
def run : σ → List α → Option σ
  | s, [] => some s
  | s, a :: as => (step s a).bind (run · as)

/-- `I` holds in every state that the run of `as` from `s` goes through. -/
def Always (I : σ → Prop) : σ → List α → Prop
  | s, [] => I s
  | s, a :: as => I s ∧ ∀ s', step s a = some s' → Always I s' as

/-- Every step that the run of `as` from `s` completes meets `ok`. -/
def StepsOk (ok : σ → α → Prop) : σ → List α → Prop
  | _, [] => True
  | s, a :: as => ∀ s', step s a = some s' → ok s a ∧ StepsOk ok s' as

/-- Every action that the run of `as` from `s` comes to meets `ok`. -/
def EachStep (ok : σ → α → Prop) : σ → List α → Prop
  | _, [] => True
  | s, a :: as => ok s a ∧ ∀ s', step s a = some s' → EachStep ok s' as

variable {step} {I : σ → Prop} {ok : σ → α → Prop}

theorem Always.head {s : σ} : ∀ {as : List α}, Always step I s as → I s
  | [], h => h
  | _ :: _, h => h.1

/-- What holds throughout a run holds where it ends. -/
theorem Always.last {s t : σ} {as : List α} (h : Always step I s as) (hr : run step s as = some t) : I t := by
  induction as generalizing s with
  | nil => cases hr; exact h
  | cons a as ih =>
    obtain ⟨s', hs, hr⟩ := Option.bind_eq_some_iff.mp hr
    exact ih (h.2 s' hs) hr

/-- **Conditional invariants.** Steps that meet the condition keep `I`, so runs of such steps keep it. -/
theorem always_of_stepsOk (hstep : ∀ s a s', I s → ok s a → step s a = some s' → I s') {s : σ} {as : List α}
    (hs : I s) (h : StepsOk step ok s as) : Always step I s as := by
  induction as generalizing s with
  | nil => exact hs
  | cons a as ih => exact ⟨hs, fun s' hs' => ih (hstep s a s' hs (h s' hs').1 hs') (h s' hs').2⟩

/-- A condition that an invariant implies is met by every step. -/
theorem Always.stepsOk (hok : ∀ s a, I s → ok s a) {s : σ} {as : List α} (h : Always step I s as) :
    StepsOk step ok s as := by
  induction as generalizing s with
  | nil => trivial
  | cons a as ih => exact fun s' hs' => ⟨hok s a h.1, ih (h.2 s' hs')⟩

theorem Always.mono {J : σ → Prop} (hIJ : ∀ s, I s → J s) {s : σ} {as : List α} (h : Always step I s as) :
    Always step J s as := by
  induction as generalizing s with
  | nil => exact hIJ _ h
  | cons a as ih => exact ⟨hIJ _ h.1, fun s' hs' => ih (h.2 s' hs')⟩

theorem Always.and {J : σ → Prop} {s : σ} {as : List α} (h : Always step I s as) (h' : Always step J s as) :
    Always step (fun s => I s ∧ J s) s as := by
  induction as generalizing s with
  | nil => exact ⟨h, h'⟩
  | cons a as ih => exact ⟨⟨h.1, h'.1⟩, fun s' hs' => ih (h.2 s' hs') (h'.2 s' hs')⟩

/-- A condition that holds while a count is below a bound is met by runs too short to reach it. -/
theorem stepsOk_of_count {m : σ → Nat} {n : Nat} (hstep : ∀ s a s', I s → step s a = some s' → I s' ∧ m s' ≤ m s + 1)
    (hok : ∀ s a, I s → m s < n → ok s a) {s : σ} {as : List α} (hs : I s) (h : m s + as.length ≤ n) :
    StepsOk step ok s as := by
  induction as generalizing s with
  | nil => trivial
  | cons a as ih =>
    rw [List.length_cons] at h
    intro s' hs'
    obtain ⟨hI, hm⟩ := hstep s a s' hs hs'
    exact ⟨hok s a hs (by omega), ih hI (by omega)⟩

/-- **Exact conditions.** Let steps that meet the condition keep an invariant `J` that implies `I`, and steps from `J`
that do not meet it break `I`. Then the condition decides for every run whether `I` holds throughout. -/
theorem always_iff_stepsOk {J : σ → Prop} (hJI : ∀ s, J s → I s)
    (hkeep : ∀ s a s', J s → ok s a → step s a = some s' → J s')
    (hneed : ∀ s a s', J s → step s a = some s' → I s' → ok s a) {s : σ} {as : List α} (hs : J s) :
    Always step I s as ↔ StepsOk step ok s as := by
  constructor
  · intro h
    induction as generalizing s with
    | nil => trivial
    | cons a as ih =>
      intro s' hs'
      have h' := h.2 s' hs'
      have hok := hneed s a s' hs hs' h'.head
      exact ⟨hok, ih (hkeep s a s' hs hok hs') h'⟩
  · intro h
    exact (always_of_stepsOk hkeep hs h).mono hJI

/-- Conditions that agree where an invariant holds that they keep hold of the same runs. -/
theorem eachStep_congr {ok' : σ → α → Prop} (hok : ∀ s a, I s → (ok s a ↔ ok' s a))
    (hkeep : ∀ s a s', I s → ok' s a → step s a = some s' → I s') {s : σ} {as : List α} (hs : I s) :
    EachStep step ok s as ↔ EachStep step ok' s as := by
  induction as generalizing s with
  | nil => exact Iff.rfl
  | cons a as ih =>
    have hhead := hok s a hs
    constructor
    · rintro ⟨ha, has⟩
      exact ⟨hhead.mp ha, fun s' hs' => (ih (hkeep s a s' hs (hhead.mp ha) hs')).mp (has s' hs')⟩
    · rintro ⟨ha, has⟩
      exact ⟨hhead.mpr ha, fun s' hs' => (ih (hkeep s a s' hs ha hs')).mpr (has s' hs')⟩

/-- **Invariants.** -/
theorem always_of_step (hstep : ∀ s a s', I s → step s a = some s' → I s') {s : σ} (hs : I s) (as : List α) :
    Always step I s as := by
  induction as generalizing s with
  | nil => exact hs
  | cons a as ih => exact ⟨hs, fun s' hs' => ih (hstep s a s' hs hs')⟩

end Machine

section Outputs

variable {σ τ α β ε : Type}

/-- The results of the actions `as` from `s` and the state after them. -/
def outs (step : σ → α → Except ε (β × σ)) : σ → List α → Except ε (List β × σ)
  | s, [] => .ok ([], s)
  | s, a :: as => do
    let (b, s') ← step s a
    let (bs, s'') ← outs step s' as
    return (b :: bs, s'')

/-- A run that returns results performed its first action and ran on from there. -/
theorem outs_cons_eq_ok {step : σ → α → Except ε (β × σ)} {s t : σ} {a : α} {as : List α} {b : β} {bs : List β} :
    outs step s (a :: as) = .ok (b :: bs, t) ↔ ∃ s', step s a = .ok (b, s') ∧ outs step s' as = .ok (bs, t) := by
  constructor
  · intro h
    cases hs : step s a with
    | error e => simp [outs, hs, bind, Except.bind] at h
    | ok r =>
      obtain ⟨b', s'⟩ := r
      cases hr : outs step s' as with
      | error e => simp [outs, hs, hr, bind, Except.bind] at h
      | ok r =>
        simp only [outs, hs, hr, bind, Except.bind, pure, Except.pure, Except.ok.injEq, Prod.mk.injEq,
          List.cons.injEq] at h
        obtain ⟨⟨rfl, rfl⟩, rfl⟩ := h
        exact ⟨s', rfl, hr⟩
  · rintro ⟨s', hs, hr⟩
    simp [outs, hs, hr, bind, Except.bind, pure, Except.pure]

/-- **Simulation.** If related states answer every action alike and stay related, then so do runs. -/
theorem outs_simulates {step : σ → α → Except ε (β × σ)} {spec : τ → α → Except ε (β × τ)} {R : σ → τ → Prop}
    (hstep : ∀ s t a, R s t → ∃ b s' t', step s a = .ok (b, s') ∧ spec t a = .ok (b, t') ∧ R s' t') {s : σ} {t : τ}
    (hR : R s t) (as : List α) :
    ∃ bs s' t', outs step s as = .ok (bs, s') ∧ outs spec t as = .ok (bs, t') ∧ R s' t' := by
  induction as generalizing s t with
  | nil => exact ⟨[], s, t, rfl, rfl, hR⟩
  | cons a as ih =>
    obtain ⟨b, s', t', hs, ht, hR'⟩ := hstep s t a hR
    obtain ⟨bs, s'', t'', hs', ht', hR''⟩ := ih hR'
    exact ⟨b :: bs, s'', t'', outs_cons_eq_ok.mpr ⟨s', hs, hs'⟩, outs_cons_eq_ok.mpr ⟨t', ht, ht'⟩, hR''⟩

end Outputs

end Libcp2p
