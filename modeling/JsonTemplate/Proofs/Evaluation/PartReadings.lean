import JsonTemplate.Proofs.Evaluation.Visits

/-!
# Computations that read parts in turn

A node reads its parts in turn: a reading that fails ends the whole with its error, and after one
that has a result the computation depends on nothing but that result and the state that is left. So
the readings that the node calls are those that it comes to, what holds of all readings that it
comes to holds of all that are called, and its error is one of its own or that of a reading that it
calls.

The computations are those of one node, with the meanings of the parts left open.
-/

namespace JsonTemplate

/-- The outcome of a computation, with the meanings of the parts that it reads left open. -/
abbrev OpenOutcome (σ α : Type) := (Nat → Meaning) → Option (Except EvalError α × σ)

namespace OpenOutcome

variable {σ τ υ α β γ : Type}

/-- What follows a computation depends on its result and the state it leaves. An error is passed
on, with another state. -/
def andThen (outcome : OpenOutcome σ α) (next : α → σ → OpenOutcome τ β) (leave : σ → τ) :
    OpenOutcome τ β := fun part =>
  (outcome part).bind fun
    | (.ok result, after) => next result after part
    | (.error error, after) => some (.error error, leave after)

/-- The outcome of one reading of a part. -/
def reading (i : Nat) (task : Task) : OpenOutcome task.mode.State task.mode.Result :=
  fun part => (part i).perform task

/-- After a result, a computation with open parts goes on. -/
theorem andThen_of_ok {outcome : OpenOutcome σ α} {next : α → σ → OpenOutcome τ β} {leave : σ → τ}
    {part : Nat → Meaning} {result : α} {after : σ} (h : outcome part = some (.ok result, after)) :
    outcome.andThen next leave part = next result after part := by
  rw [andThen, h]
  rfl

/-- After an error, a computation with open parts stops. -/
theorem andThen_of_error {outcome : OpenOutcome σ α} {next : α → σ → OpenOutcome τ β}
    {leave : σ → τ} {part : Nat → Meaning} {error : EvalError} {after : σ}
    (h : outcome part = some (.error error, after)) :
    outcome.andThen next leave part = some (.error error, leave after) := by
  rw [andThen, h]
  rfl

/-- What does not end is not followed by anything. -/
theorem andThen_of_none {outcome : OpenOutcome σ α} {next : α → σ → OpenOutcome τ β}
    {leave : σ → τ} {part : Nat → Meaning} (h : outcome part = none) :
    outcome.andThen next leave part = none := by
  rw [andThen, h]
  rfl

/-- Three computations in a row are two and then one, or one and then two. -/
theorem andThen_assoc (outcome : OpenOutcome σ α) (next : α → σ → OpenOutcome τ β) (leave : σ → τ)
    (last : β → τ → OpenOutcome υ γ) (leaveLast : τ → υ) :
    (outcome.andThen next leave).andThen last leaveLast =
      outcome.andThen (fun result after => (next result after).andThen last leaveLast)
        (leaveLast ∘ leave) := by
  funext part
  cases h : outcome part with
  | none => rw [andThen_of_none (andThen_of_none h), andThen_of_none h]
  | some outcome =>
    obtain ⟨result, after⟩ := outcome
    cases result with
    | ok value =>
      rw [andThen_of_ok h, andThen, andThen_of_ok h]
      rfl
    | error error => rw [andThen_of_error (andThen_of_error h), andThen_of_error h]; rfl

/-- Nothing follows. -/
theorem andThen_ok (outcome : OpenOutcome σ α) :
    outcome.andThen (fun result after _ => some (.ok result, after)) id = outcome := by
  funext part
  cases hread : outcome part with
  | none => rw [andThen_of_none hread]
  | some outcome =>
    obtain ⟨result, after⟩ := outcome
    cases result with
    | ok value => rw [andThen_of_ok hread]
    | error error => rw [andThen_of_error hread]; rfl

/-- Computations in a row are one after the other, whatever the parts are. -/
theorem bind_eq_andThen (run : (Nat → Meaning) → Run σ α)
    (next : (Nat → Meaning) → α → Run σ β) (state : σ) :
    (fun other => (run other >>= next other) state) =
      andThen (fun other => run other state) (fun result after other => next other result after)
        id := by
  funext other
  rw [Run.bind_apply]
  rfl

/-- A computation on a part of the state is one followed by putting the part back. -/
theorem focus_eq_andThen (enter : σ → τ) (leave : τ → σ → σ) (run : (Nat → Meaning) → Run τ α)
    (state : σ) :
    (fun other => Run.focus enter leave (run other) state) =
      andThen (fun other => run other (enter state))
        (fun result inner _ => some (.ok result, leave inner state)) (leave · state) := by
  funext other
  rw [Run.focus, andThen]
  cases run other (enter state) with
  | none => rfl
  | some outcome =>
    obtain ⟨result, inner⟩ := outcome
    cases result <;> rfl

end OpenOutcome

open OpenOutcome

/-- A computation reads parts with the given meanings in turn. A condition holds of all readings
that it comes to, and another one of all errors that it raises itself. -/
inductive ReadsInTurn (part : Nat → Meaning) (G : Nat → Task → Prop) (E : EvalError → Prop)
    {σ α : Type} : OpenOutcome σ α → Prop
  | ends {outcome : Option (Except EvalError α × σ)} :
      (∀ error after, outcome = some (.error error, after) → E error) →
      ReadsInTurn part G E fun _ => outcome
  | reads {i : Nat} {task : Task} {next : task.mode.Result → task.mode.State → OpenOutcome σ α}
      {leave : task.mode.State → σ} :
      G i task →
      (∀ result after, (part i).perform task = some (.ok result, after) →
        ReadsInTurn part G E (next result after)) →
      ReadsInTurn part G E ((reading i task).andThen next leave)

namespace ReadsInTurn

variable {part : Nat → Meaning} {G : Nat → Task → Prop} {E : EvalError → Prop} {σ τ α β : Type}

/-- A result reads no parts. -/
theorem ok {result : α} {after : σ} : ReadsInTurn part G E fun _ => some (.ok result, after) :=
  .ends nofun

/-- A computation that goes on reads parts in turn if both of its parts do. -/
protected theorem andThen {outcome : OpenOutcome σ α} {next : α → σ → OpenOutcome τ β}
    {leave : σ → τ} (h : ReadsInTurn part G E outcome)
    (hnext : ∀ result after, outcome part = some (.ok result, after) →
      ReadsInTurn part G E (next result after)) :
    ReadsInTurn part G E (outcome.andThen next leave) := by
  induction h with
  | @ends outcome herror =>
    cases outcome with
    | none => exact .ends nofun
    | some outcome =>
      obtain ⟨result, after⟩ := outcome
      cases result with
      | ok value => exact hnext value after rfl
      | error error =>
        refine .ends ?_
        rintro _ _ ⟨⟩
        exact herror error after rfl
  | reads htask _ ih =>
    rw [andThen_assoc]
    refine .reads htask fun result after hresult => ih result after hresult ?_
    exact fun last state hlast => hnext last state ((andThen_of_ok hresult).trans hlast)

/-- Reading a part reads it in turn. -/
protected theorem reading {i : Nat} {task : Task} (h : G i task) :
    ReadsInTurn part G E (OpenOutcome.reading i task) := by
  rw [← andThen_ok (OpenOutcome.reading i task)]
  exact .reads h fun _ _ _ => .ok

/-- Computations in a row read parts in turn if each of them does. -/
protected theorem bind {run : (Nat → Meaning) → Run σ α} {next : (Nat → Meaning) → α → Run σ β}
    {state : σ} (h : ReadsInTurn part G E fun other => run other state)
    (hnext : ∀ result after, run part state = some (.ok result, after) →
      ReadsInTurn part G E fun other => next other result after) :
    ReadsInTurn part G E fun other => (run other >>= next other) state := by
  rw [bind_eq_andThen]
  exact h.andThen hnext

/-- A computation on a part of the state reads parts in turn if it does so there. -/
protected theorem focus {enter : σ → τ} {leave : τ → σ → σ} {run : (Nat → Meaning) → Run τ α}
    {state : σ} (h : ReadsInTurn part G E fun other => run other (enter state)) :
    ReadsInTurn part G E fun other => Run.focus enter leave (run other) state := by
  rw [focus_eq_andThen]
  exact h.andThen fun _ _ _ => .ok

/-- A fault in one reading is not seen in another one. -/
theorem reading_update_of_ne {i j : Nat} {task called : Task} {error : EvalError}
    {faulty : Meaning} (hfault : (part i).Fault faulty called error)
    (h : ¬(j = i ∧ task = called)) :
    OpenOutcome.reading j task (Function.update part i faulty) = (part j).perform task := by
  rw [OpenOutcome.reading]
  by_cases hj : j = i
  · obtain rfl := hj
    rw [Function.update_self]
    exact hfault.perform_eq task fun htask => h ⟨rfl, htask⟩
  · rw [Function.update_of_ne hj]

/-- An outcome that is the same for all faults in a reading is not the error of each of them. -/
theorem not_error_of_fault {meaning : Meaning} {called : Task}
    {outcome : Meaning → Option (Except EvalError α × σ)} {fixed : Option (Except EvalError α × σ)}
    (h : ∀ error faulty, meaning.Fault faulty called error → outcome faulty = fixed) :
    ¬∀ error faulty, meaning.Fault faulty called error →
      ∃ after, outcome faulty = some (.error error, after) := by
  intro herror
  have hfault := meaning.fault_failingAt called
  obtain ⟨_, hfirst⟩ := herror .divisionByZero _ (hfault _)
  obtain ⟨_, hsecond⟩ := herror .zeroStep _ (hfault _)
  rw [h _ _ (hfault _)] at hfirst hsecond
  cases hfirst.symm.trans hsecond

/-- What holds of all readings that the computation comes to holds of each reading that makes the
whole fail whenever it fails. -/
theorem of_called {outcome : OpenOutcome σ α} (h : ReadsInTurn part G E outcome) {i : Nat}
    {called : Task} (hcalled : ∀ error faulty, (part i).Fault faulty called error →
      ∃ after, outcome (Function.update part i faulty) = some (.error error, after)) :
    G i called := by
  induction h with
  | ends => exact absurd hcalled (not_error_of_fault fun _ _ _ => rfl)
  | @reads j task next leave htask _ ih =>
    by_cases hsame : j = i ∧ task = called
    · obtain ⟨rfl, rfl⟩ := hsame
      exact htask
    cases hperform : (part j).perform task with
    | none =>
      exact absurd hcalled (not_error_of_fault fun _ _ hfault =>
        andThen_of_none ((reading_update_of_ne hfault hsame).trans hperform))
    | some outcome =>
      obtain ⟨result, after⟩ := outcome
      cases result with
      | error first =>
        exact absurd hcalled (not_error_of_fault fun _ _ hfault =>
          andThen_of_error ((reading_update_of_ne hfault hsame).trans hperform))
      | ok value =>
        refine ih value after hperform fun error faulty hfault => ?_
        obtain ⟨last, hlast⟩ := hcalled error faulty hfault
        rw [andThen_of_ok ((reading_update_of_ne hfault hsame).trans hperform)] at hlast
        exact ⟨last, hlast⟩

/-- The error of the computation is one of its own or that of a reading that it comes to, which
makes the whole fail whenever it fails. -/
theorem error_cases {outcome : OpenOutcome σ α} (h : ReadsInTurn part G E outcome)
    {error : EvalError} {after : σ} (houtcome : outcome part = some (.error error, after)) :
    E error ∨ ∃ i called, G i called ∧ (part i).FailsWith called error ∧
      ∀ other faulty, (part i).Fault faulty called other →
        ∃ after, outcome (Function.update part i faulty) = some (.error other, after) := by
  induction h with
  | ends herror => exact Or.inl (herror error after houtcome)
  | @reads i task next leave htask _ ih =>
    have hstruck {other : EvalError} {faulty : Meaning}
        (hfault : (part i).Fault faulty task other) : ∃ after,
          (OpenOutcome.reading i task).andThen next leave (Function.update part i faulty) =
            some (.error other, after) := by
      obtain ⟨last, hlast⟩ := hfault.fails
      refine ⟨leave last, andThen_of_error ?_⟩
      rw [OpenOutcome.reading, Function.update_self, hlast]
    cases hperform : (part i).perform task with
    | none => cases (andThen_of_none hperform).symm.trans houtcome
    | some outcome =>
      obtain ⟨result, middle⟩ := outcome
      cases result with
      | error first =>
        cases (andThen_of_error hperform).symm.trans houtcome
        exact Or.inr ⟨i, task, htask, ⟨middle, hperform⟩, fun _ _ => hstruck⟩
      | ok value =>
        rw [andThen_of_ok hperform] at houtcome
        refine (ih value middle hperform houtcome).imp_right ?_
        rintro ⟨j, called, hcalled, hfails, hcalls⟩
        refine ⟨j, called, hcalled, hfails, fun other faulty hfault => ?_⟩
        by_cases hsame : i = j ∧ task = called
        · obtain ⟨rfl, rfl⟩ := hsame
          exact hstruck hfault
        · rw [andThen_of_ok ((reading_update_of_ne hfault hsame).trans hperform)]
          exact hcalls other faulty hfault

end ReadsInTurn

end JsonTemplate
