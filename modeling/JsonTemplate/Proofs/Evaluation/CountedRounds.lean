import JsonTemplate.Evaluation.Ending
import JsonTemplate.Proofs.Evaluation.Visits

/-!
# The rounds of a counting loop

A counting loop goes through the numbers of an arithmetic progression. They are settled before the
first round, by the values of the start, the end and the step, and the body has no hold on them:
it may bind the name of the loop or the names in the bounds to other values, and the next round
binds the name to its own number again.

The numbers are exact. The loop stops where the successor of a number is no 64-bit integer, and that
is past the end, which is one.
-/

namespace JsonTemplate

/-- A number that lies between the ends of a loop, in the direction of its step. -/
def IsBetween (first last step n : Int) : Prop :=
  0 < step ∧ first ≤ n ∧ n ≤ last ∨ step < 0 ∧ last ≤ n ∧ n ≤ first

/-- Whether a number is between two others is decided by comparing it. -/
instance (first last step n : Int) : Decidable (IsBetween first last step n) :=
  inferInstanceAs (Decidable (_ ∨ _))

/-- The 64-bit integers `first`, `first + step`, `first + 2 * step` and so on, as far as they lie
between the ends. -/
structure Progression (first last step : Int) (numbers : List Int64) : Prop where
  number : ∀ (i : Nat) number, numbers[i]? = some number → number.toInt = first + i * step
  length : ∀ i : Nat, i < numbers.length ↔ IsBetween first last step (first + i * step)

namespace Progression

variable {first last step : Int}

/-- There are no numbers if the end is on the other side of the start. -/
protected theorem nil (h : ¬IsBetween first last step first) : Progression first last step [] where
  number := nofun
  length i := by
    refine ⟨nofun, fun hbetween => absurd ?_ h⟩
    unfold IsBetween at hbetween ⊢
    omega

/-- The number after the first one is the first of a progression to the same end. -/
protected theorem cons {number : Int64} {rest : List Int64} (hnumber : number.toInt = first)
    (hbetween : IsBetween first last step first)
    (hrest : Progression (first + step) last step rest) :
    Progression first last step (number :: rest) := by
  have hnext (i : Nat) : first + (i + 1 : Nat) * step = first + step + i * step := by
    rw [Int.natCast_succ, Int.add_mul, Int.one_mul]
    omega
  refine ⟨fun i => ?_, fun i => ?_⟩
  · cases i with
    | zero =>
      rintro _ ⟨⟩
      simpa using hnumber
    | succ i =>
      intro other hother
      rw [hnext]
      exact hrest.number i other hother
  · cases i with
    | zero => simpa using hbetween
    | succ i =>
      rw [hnext, List.length_cons, Nat.succ_lt_succ_iff, hrest.length i]
      -- What is left is whether the start may lie one step further back.
      unfold IsBetween
      rcases Int.lt_trichotomy step 0 with hstep | hstep | hstep
      · have := Int.mul_nonpos_of_nonneg_of_nonpos (Int.natCast_nonneg i) (Int.le_of_lt hstep)
        omega
      · omega
      · have := Int.mul_nonneg (Int.natCast_nonneg i) (Int.le_of_lt hstep)
        omega

end Progression

/-- The frame with a name bound. -/
def Frame.define (frame : Frame) (name : String) (value : Value) : Frame :=
  { frame with environment := frame.environment.define name value }

/-- The body of a loop is executed once for each of the numbers in turn, with the name bound to the
number, until an execution breaks, returns or fails, or does not end; leaving a round is like ending
it. The frames are those in which the executions start. -/
inductive Rounds (name : String) (body : Eval Flow) :
    List Int64 → Frame → List Frame → Option (Except EvalError Flow × Frame) → Prop
  | finished {frame : Frame} : Rounds name body [] frame [] (some (.ok .proceed, frame))
  | next {number : Int64} {rest : List Int64} {frame after : Frame} {flow : Flow}
      {starts : List Frame} {outcome : Option (Except EvalError Flow × Frame)} :
      body (frame.define name (.integer number)) = some (.ok flow, after) →
      flow = .proceed ∨ flow = .continue_ → Rounds name body rest after starts outcome →
      Rounds name body (number :: rest) frame (frame.define name (.integer number) :: starts)
        outcome
  | broken {number : Int64} {rest : List Int64} {frame after : Frame} :
      body (frame.define name (.integer number)) = some (.ok .break_, after) →
      Rounds name body (number :: rest) frame [frame.define name (.integer number)]
        (some (.ok .proceed, after))
  | returned {number : Int64} {rest : List Int64} {frame after : Frame} {value : Value} :
      body (frame.define name (.integer number)) = some (.ok (.return_ value), after) →
      Rounds name body (number :: rest) frame [frame.define name (.integer number)]
        (some (.ok (.return_ value), after))
  | failed {number : Int64} {rest : List Int64} {frame after : Frame} {error : EvalError} :
      body (frame.define name (.integer number)) = some (.error error, after) →
      Rounds name body (number :: rest) frame [frame.define name (.integer number)]
        (some (.error error, after))
  | unfinished {number : Int64} {rest : List Int64} {frame : Frame} :
      body (frame.define name (.integer number)) = none →
      Rounds name body (number :: rest) frame [frame.define name (.integer number)] none

/-- The rounds come to an end if each execution of the body does. -/
theorem Rounds.isSome {name : String} {body : Eval Flow} {numbers : List Int64} {frame : Frame}
    {starts : List Frame} {outcome : Option (Except EvalError Flow × Frame)}
    (h : Rounds name body numbers frame starts outcome)
    (hbody : ∀ start ∈ starts, (body start).isSome) : outcome.isSome := by
  induction h with
  | finished | broken | returned | failed => rfl
  | next _ _ _ ih => exact ih fun start hstart => hbody start (List.mem_cons_of_mem _ hstart)
  | unfinished hnone =>
    have hsome := hbody _ List.mem_cons_self
    rw [hnone] at hsome
    cases hsome

namespace Meaning

/-- A round of a counting loop binds the name, executes the body and goes on with the successor, if
there is one. -/
theorem countLoop_apply {current stop step : Int64} (h : inRange current stop step) (name : String)
    (body : Eval Flow) (frame : Frame) :
    countLoop name body stop step current frame =
      (body >>= fun
        | .proceed | .continue_ =>
          match integer? (current.toInt + step.toInt) with
          | some next => countLoop name body stop step next
          | none => pure .proceed
        | .break_ => pure .proceed
        | .return_ value => pure (.return_ value)) (frame.define name (.integer current)) := by
  rw [countLoop, dif_pos h]
  refine (Run.bind_of_ok rfl).trans ?_
  refine congrArg (fun next => (body >>= next) _) (funext fun flow => ?_)
  cases flow with
  | proceed | continue_ =>
    dsimp only
    split <;> rename_i heq <;> rw [heq]
  | break_ | return_ => rfl

end Meaning

namespace Node

variable {rounds : Nat} {this : This} {frame before : Frame} {start stop : Node}
  {step : Option Node} {first last stride : Int64}

end Node

end JsonTemplate
