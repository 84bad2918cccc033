import Mathlib.Data.List.Infix

/-!
# Finite runs of a labelled transition system

A run is a sequence of labelled steps. Conditions on the steps of a run are added by
guarding the step relation, and an invariant is proved once for one step and then holds
in every state a run reaches.
-/

namespace Orionis.Foundations

variable {S E : Type*}

/-- The states reached from a start state by a sequence of labelled steps. -/
inductive Run (step : S → E → S → Prop) : S → List E → S → Prop
  | nil (s : S) : Run step s [] s
  | snoc {s t u : S} {labels : List E} {e : E} :
      Run step s labels t → step t e u → Run step s (labels ++ [e]) u

/-- Only the steps that meet a condition on the state before them and their label. -/
def guarded (ok : S → E → Prop) (step : S → E → S → Prop) (s : S) (e : E) (t : S) : Prop :=
  ok s e ∧ step s e t

variable {step step' : S → E → S → Prop} {s t u : S} {labels labels' : List E} {e : E}

/-- A property of the start state that every step keeps holds in every state reached. -/
theorem Run.invariant {I : S → Prop} (h : Run step s labels t) (hs : I s)
    (hstep : ∀ t e u, I t → step t e u → I u) : I t := by
  induction h with
  | nil => exact hs
  | snoc _ he ih => exact hstep _ _ _ ih he

/-- A run of steps that are steps of another system. -/
theorem Run.mono (h : Run step s labels t) (hstep : ∀ t e u, step t e u → step' t e u) :
    Run step' s labels t := by
  induction h with
  | nil => exact .nil _
  | snoc _ he ih => exact .snoc ih (hstep _ _ _ he)

/-- One step. -/
theorem Run.single (h : step s e t) : Run step s [e] t := .snoc (.nil s) h

/-- Runs one after the other. -/
theorem Run.append (h : Run step s labels t) (h' : Run step t labels' u) :
    Run step s (labels ++ labels') u := by
  induction h' with
  | nil => simpa using h
  | snoc _ he ih =>
    rw [← List.append_assoc]
    exact .snoc ih he

/-- A run through a middle state. -/
theorem Run.split (h : Run step s (labels ++ labels') u) :
    ∃ t, Run step s labels t ∧ Run step t labels' u := by
  induction labels' using List.reverseRecOn generalizing u with
  | nil => exact ⟨u, by simpa using h, .nil _⟩
  | append_singleton labels' e ih =>
    rw [← List.append_assoc] at h
    generalize hall : labels ++ labels' ++ [e] = all at h
    cases h with
    | nil => simp at hall
    | snoc hrun hstep =>
      obtain ⟨rfl, hlast⟩ := List.append_inj' hall rfl
      obtain rfl := List.singleton_inj.1 hlast
      obtain ⟨t, hfirst, hrest⟩ := ih hrun
      exact ⟨t, hfirst, .snoc hrest hstep⟩

/-- A run without steps stays where it is. -/
theorem Run.eq_of_nil (h : Run step s [] t) : s = t := by
  generalize hnone : ([] : List E) = none at h
  cases h with
  | nil => rfl
  | snoc => simp at hnone

/-- Prepending one step to a run. -/
theorem Run.cons (h : step s e t) (h' : Run step t labels u) : Run step s (e :: labels) u :=
  (Run.single h).append h'

/-- The first step of a run. -/
theorem Run.uncons (h : Run step s (e :: labels) u) : ∃ t, step s e t ∧ Run step t labels u := by
  obtain ⟨t, hfirst, hrest⟩ := @Run.split _ _ _ _ _ [e] labels h
  generalize hsingle : [e] = single at hfirst
  cases hfirst with
  | nil => cases hsingle
  | @snoc _ _ before _ hnil hstep =>
    obtain ⟨hempty, hlast⟩ := List.append_inj' ((List.nil_append [e]).trans hsingle) rfl
    obtain rfl := List.singleton_inj.1 hlast
    rw [← hempty] at hnil
    obtain rfl := hnil.eq_of_nil
    exact ⟨t, hstep, hrest⟩

/-- A property of every event and what came before it is one of the events so far and of the last
one. -/
theorem forall_prefix_concat {P : List E → E → Prop} (labels : List E) (e : E) :
    (∀ before e', before ++ [e'] <+: labels ++ [e] → P before e') ↔
      (∀ before e', before ++ [e'] <+: labels → P before e') ∧ P labels e := by
  constructor
  · intro hall
    refine ⟨fun before e' hbefore => ?_, hall labels e List.prefix_rfl⟩
    exact hall before e' (hbefore.trans (List.prefix_append _ _))
  · rintro ⟨hall, hlast⟩ before e' hbefore
    rcases List.prefix_concat_iff.1 hbefore with heq | hbefore
    · obtain ⟨rfl, hsame⟩ := List.append_inj' heq rfl
      obtain rfl := List.singleton_inj.1 hsame
      exact hlast
    · exact hall before e' hbefore

/-! ## Computing runs -/

/-- Run a partial step function through a list of labels, as far as the guard allows. -/
def execute (ok : S → E → Prop) [∀ s e, Decidable (ok s e)] (f : S → E → Option S) :
    S → List E → Option S
  | s, [] => some s
  | s, e :: labels => if ok s e then (f s e).bind fun t => execute ok f t labels else none

/-- What can be computed is a run. -/
theorem run_of_execute {ok : S → E → Prop} [∀ s e, Decidable (ok s e)] {f : S → E → Option S}
    (hstep : ∀ s e t, f s e = some t → step s e t) (h : execute ok f s labels = some t) :
    Run (guarded ok step) s labels t := by
  induction labels generalizing s with
  | nil =>
    obtain rfl := Option.some.inj h
    exact .nil _
  | cons e labels ih =>
    rw [execute] at h
    obtain ⟨hok, h⟩ := Option.ite_none_right_eq_some.1 h
    obtain ⟨u, hu, hrest⟩ := Option.bind_eq_some_iff.1 h
    exact .cons ⟨hok, hstep s e u hu⟩ (ih hrest)

end Orionis.Foundations
