import Mathlib.Logic.Relation

/-!
# Runs of labelled systems

A system moves from state to state by labelled steps. `ReachableUnder G` holds the states reached by runs whose steps all meet the guard `G`, a condition on the state before the step and on its label; `Reachable` puts no condition on the steps. An invariant is proved once, from the initial states and from one step, and then holds in every state of every such run.
-/

namespace Vedruino

structure System (State Label : Type*) where
  Init : State → Prop
  Step : State → Label → State → Prop

namespace System

variable {State Label : Type*} {M : System State Label}

/-- The states reached by runs whose steps all meet the guard. -/
inductive ReachableUnder (M : System State Label) (G : State → Label → Prop) : State → Prop
  | init {s} : M.Init s → ReachableUnder M G s
  | step {s l t} : ReachableUnder M G s → G s l → M.Step s l t → ReachableUnder M G t

abbrev Reachable (M : System State Label) : State → Prop := M.ReachableUnder fun _ _ => True

theorem ReachableUnder.invariant {G : State → Label → Prop} {I : State → Prop}
    (hinit : ∀ s, M.Init s → I s) (hstep : ∀ s l t, I s → G s l → M.Step s l t → I t)
    {s : State} (hs : M.ReachableUnder G s) : I s := by
  induction hs with
  | init h => exact hinit _ h
  | step _ hg h ih => exact hstep _ _ _ ih hg h

theorem ReachableUnder.mono {G H : State → Label → Prop} (hGH : ∀ s l, G s l → H s l)
    {s : State} (hs : M.ReachableUnder G s) : M.ReachableUnder H s := by
  induction hs with
  | init h => exact .init h
  | step _ hg h ih => exact .step ih (hGH _ _ hg) h

def ofStep (Init : State → Prop) (step : State → Label → Option State) : System State Label where
  Init := Init
  Step s l t := step s l = some t

def runSteps (step : State → Label → Option State) : State → List Label → Option State
  | s, [] => some s
  | s, l :: ls => (step s l).bind fun t => runSteps step t ls

theorem runSteps_append (step : State → Label → Option State) (s : State) (ls ms : List Label) :
    runSteps step s (ls ++ ms) = (runSteps step s ls).bind fun t => runSteps step t ms := by
  induction ls generalizing s with
  | nil => rfl
  | cons l ls ih =>
    simp only [List.cons_append, runSteps, ih, Option.bind_assoc]

def guarded (G : State → Label → Prop) [∀ s, DecidablePred (G s)] (step : State → Label → Option State) (s : State)
    (l : Label) : Option State := if G s l then step s l else none

theorem reachableUnder_runSteps {G : State → Label → Prop} [∀ s, DecidablePred (G s)] {Init : State → Prop}
    {step : State → Label → Option State} {s t : State} (ls : List Label) (hs : (ofStep Init step).ReachableUnder G s)
    (h : runSteps (guarded G step) s ls = some t) : (ofStep Init step).ReachableUnder G t := by
  induction ls generalizing s with
  | nil =>
    cases h
    exact hs
  | cons l ls ih =>
    rw [runSteps, Option.bind_eq_some_iff] at h
    obtain ⟨u, hstep, hrun⟩ := h
    rw [guarded, Option.ite_none_right_eq_some] at hstep
    exact ih (.step hs hstep.1 hstep.2) hrun

theorem reachable_runSteps {Init : State → Prop} {step : State → Label → Option State} {s t : State} (ls : List Label)
    (hs : (ofStep Init step).Reachable s) (h : runSteps step s ls = some t) : (ofStep Init step).Reachable t := by
  refine reachableUnder_runSteps ls hs ?_
  have hguarded : guarded (fun _ _ => True) step = step := by
    funext s l
    exact if_pos trivial
  rwa [hguarded]

end System

end Vedruino
