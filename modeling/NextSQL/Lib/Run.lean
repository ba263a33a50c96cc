import Mathlib.Logic.Relation

/-!
# Guarded runs of a labelled transition system

A transition system is a relation `step s l t`: the label `l` can take the
state `s` to the state `t`. A run is a finite sequence of such steps. A guard
is a condition on a label and on the state before it; a guarded run is a run
all of whose steps meet the guard.

The induction on runs is packaged here once. A property of states that holds
at the start and that every guarded step preserves holds in every state of a
guarded run (`Run.invariant`).
-/

namespace GuardedRuns

universe u v

variable {State : Type u} {Label : Type v}

/-- The states a sequence of labels can reach from `start`, every label meeting
the guard in the state before it. -/
inductive Run (step : State → Label → State → Prop) (guard : State → Label → Prop)
    (start : State) : List Label → State → Prop where
  | nil : Run step guard start [] start
  | snoc {labels : List Label} {before after : State} {label : Label}
      (run : Run step guard start labels before) (meets : guard before label)
      (taken : step before label after) : Run step guard start (labels ++ [label]) after

/-- The guard that every step meets. -/
def unguarded : State → Label → Prop := fun _ _ => True

variable {step : State → Label → State → Prop} {guard : State → Label → Prop}
variable {start finish : State} {labels : List Label}

namespace Run

/-- **The invariant rule.** What holds at the start and is preserved by every
guarded step holds at the end of every guarded run. -/
theorem invariant (holds : State → Prop) (initial : holds start)
    (preserved : ∀ {before label after}, holds before → guard before label →
      step before label after → holds after)
    (run : Run step guard start labels finish) : holds finish := by
  induction run with
  | nil => exact initial
  | snoc _ meets taken ih => exact preserved ih meets taken

/-- A guarded run is a run under any weaker guard. -/
theorem mono {weaker : State → Label → Prop}
    (implies : ∀ {before label}, guard before label → weaker before label)
    (run : Run step guard start labels finish) : Run step weaker start labels finish := by
  induction run with
  | nil => exact .nil
  | snoc _ meets taken ih => exact .snoc ih (implies meets) taken

theorem append {middle : State} {more : List Label}
    (first : Run step guard start labels middle) (second : Run step guard middle more finish) :
    Run step guard start (labels ++ more) finish := by
  induction second with
  | nil => simpa using first
  | snoc _ meets taken ih =>
    rw [← List.append_assoc]
    exact .snoc ih meets taken

end Run

/-! ## Executing labels -/

variable {next : State → Label → Option State} {allowed : State → Label → Bool}

/-- Take the labels one after another, as long as they are allowed. -/
def exec (next : State → Label → Option State) (allowed : State → Label → Bool) :
    State → List Label → Option State
  | s, [] => some s
  | s, label :: rest =>
    if allowed s label then (next s label).bind fun t => exec next allowed t rest else none

/-- What can be executed is a run. -/
theorem run_of_exec (enforced : ∀ {s label}, allowed s label → guard s label) :
    ∀ {labels : List Label} {start : State}, exec next allowed start labels = some finish →
      Run (fun s label t => next s label = some t) guard start labels finish := by
  intro labels
  induction labels with
  | nil =>
    intro start done
    cases done
    exact .nil
  | cons label rest ih =>
    intro start done
    rw [exec] at done
    split at done
    next isAllowed =>
      obtain ⟨t, taken, more⟩ := Option.bind_eq_some_iff.mp done
      have first : Run (fun s label t => next s label = some t) guard start [label] t :=
        .snoc .nil (enforced isAllowed) taken
      exact first.append (ih more)
    next => cases done

/-- A run with a property of its last state, from an execution that shows it. -/
theorem exists_run_of_exec (next : State → Label → Option State) (allowed : State → Label → Bool)
    (enforced : ∀ {s label}, allowed s label → guard s label) {start : State}
    {labels : List Label} {holds : State → Prop} [DecidablePred holds]
    (done : (exec next allowed start labels).any (fun t => decide (holds t)) = true) :
    ∃ finish, Run (fun s label t => next s label = some t) guard start labels finish ∧
      holds finish := by
  cases result : exec next allowed start labels with
  | none =>
    rw [result] at done
    cases done
  | some finish =>
    rw [result] at done
    exact ⟨finish, run_of_exec enforced result, of_decide_eq_true done⟩

/-- Such a run, with what follows from it. -/
theorem exists_run_that (next : State → Label → Option State) (allowed : State → Label → Bool)
    (enforced : ∀ {s label}, allowed s label → guard s label) (P : State → Prop)
    [DecidablePred P] {Q : State → Prop} (done : (exec next allowed start labels).any P)
    (shows : ∀ t, Run (fun s label t => next s label = some t) guard start labels t → P t → Q t) :
    ∃ t, Run (fun s label t => next s label = some t) guard start labels t ∧ Q t := by
  obtain ⟨finish, run, holds⟩ := exists_run_of_exec next allowed enforced done
  exact ⟨finish, run, shows finish run holds⟩

end GuardedRuns
