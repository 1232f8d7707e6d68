import Mathlib.Data.List.Infix
import Mathlib.Data.List.Induction

/-!
# Event machines and their runs

A machine has a start state and a step function on events. `Machine.exec` is the state
after a list of events, `Machine.Along` says that every event of a run meets a
condition in the state it finds. A condition on states and events plays both roles the
developments below need : which events a state enables, and which steps a statement
about runs allows.

`Machine.Along.invariant` is the induction rule : what holds at the start and is kept by
every allowed step holds after every allowed run. The invariant reads the events so far
as well as the state, so a statement about the history is one too. `Machine.exec_register`
is the rule for a part of the state that events write : it holds what was written last, and
`Machine.exec_trace` the one for a part that is a machine of its own, driven by what the run
passes on to it (`Machine.trace`).
-/

/-- A state machine driven by events. -/
structure Machine (σ ι : Type*) where
  /-- The start state. -/
  init : σ
  /-- The state after one event. -/
  step : σ → ι → σ

namespace Machine

variable {σ ι : Type*} (M : Machine σ ι)

/-- The state after the events `es`. -/
def exec (es : List ι) : σ :=
  es.foldl M.step M.init

@[simp] theorem exec_nil : M.exec [] = M.init :=
  rfl

@[simp] theorem exec_snoc (es : List ι) (e : ι) : M.exec (es ++ [e]) = M.step (M.exec es) e := by
  simp [exec]

/-- Every event of the run meets `C` in the state before it. -/
def Along (C : σ → ι → Prop) (es : List ι) : Prop :=
  ∀ pre e post, es = pre ++ e :: post → C (M.exec pre) e

variable {M} {C : σ → ι → Prop}

@[simp] theorem along_nil : M.Along C [] := by
  intro pre e post h
  simp at h

theorem along_snoc {es : List ι} {e : ι} :
    M.Along C (es ++ [e]) ↔ M.Along C es ∧ C (M.exec es) e := by
  constructor
  · intro h
    refine ⟨fun pre e' post hes => h pre e' (post ++ [e]) (by simp [hes]), h es e [] rfl⟩
  · rintro ⟨hes, he⟩ pre e' post heq
    rcases List.eq_nil_or_concat post with rfl | ⟨post', x, rfl⟩
    · obtain ⟨rfl, h⟩ := List.append_inj' heq rfl
      obtain rfl := List.singleton_inj.1 h
      exact he
    · have heq' : es ++ [e] = (pre ++ e' :: post') ++ [x] := by simpa using heq
      exact hes pre e' post' (List.append_inj' heq' rfl).1

/-- A run's events so far are a run. -/
theorem Along.of_append {es fs : List ι} (h : M.Along C (es ++ fs)) : M.Along C es :=
  fun pre e post hes => h pre e (post ++ fs) (by simp [hes])

/-- What the start state has and every allowed step keeps, every allowed run has. -/
theorem Along.invariant (Inv : List ι → σ → Prop) (hinit : Inv [] M.init)
    (hstep : ∀ es e, M.Along C es → C (M.exec es) e → Inv es (M.exec es) →
      Inv (es ++ [e]) (M.step (M.exec es) e)) :
    ∀ es, M.Along C es → Inv es (M.exec es) := by
  intro es
  induction es using List.reverseRecOn with
  | nil => exact fun _ => hinit
  | append_singleton es e ih =>
    intro h
    obtain ⟨hes, he⟩ := along_snoc.1 h
    rw [exec_snoc]
    exact hstep es e hes he (ih hes)

/-- The rule for runs with no condition. -/
theorem invariant (Inv : List ι → σ → Prop) (hinit : Inv [] M.init)
    (hstep : ∀ es e, Inv es (M.exec es) → Inv (es ++ [e]) (M.step (M.exec es) e))
    (es : List ι) : Inv es (M.exec es) :=
  Along.invariant (C := fun _ _ => True) Inv hinit (fun es e _ _ => hstep es e) es
    fun _ _ _ _ => trivial

/-! ## Runs from any state, and registers -/

/-- The machine started in `s`. -/
def startAt (M : Machine σ ι) (s : σ) : Machine σ ι :=
  ⟨s, M.step⟩

@[simp] theorem exec_startAt_nil (s : σ) : (M.startAt s).exec [] = s :=
  rfl

@[simp] theorem exec_startAt_cons (s : σ) (e : ι) (es : List ι) :
    (M.startAt s).exec (e :: es) = (M.startAt (M.step s e)).exec es :=
  rfl

theorem exec_append (es fs : List ι) :
    M.exec (es ++ fs) = (M.startAt (M.exec es)).exec fs :=
  List.foldl_append

theorem along_cons {e : ι} {es : List ι} :
    M.Along C (e :: es) ↔ C M.init e ∧ (M.startAt (M.step M.init e)).Along C es := by
  constructor
  · intro h
    exact ⟨h [] e es rfl, fun pre e' post hes => h (e :: pre) e' post (by rw [hes]; rfl)⟩
  · rintro ⟨he, hes⟩ pre e' post heq
    cases pre with
    | nil =>
      obtain ⟨rfl, -⟩ := List.cons.inj heq
      exact he
    | cons x pre =>
      obtain ⟨rfl, htail⟩ := List.cons.inj heq
      exact hes pre e' post htail

/-- A run's later events are a run from the state its first ones lead to. -/
theorem Along.startAt {es fs : List ι} (h : M.Along C (es ++ fs)) :
    (M.startAt (M.exec es)).Along C fs := by
  intro pre e post hfs
  have he := h (es ++ pre) e post (by simp [hfs])
  rwa [exec_append] at he

/-- A part of the state that some events write and the others keep holds what was written
last. -/
theorem exec_register {β : Type*} (f : σ → β) (writes : ι → Option β)
    (h : ∀ s e, f (M.step s e) = (writes e).getD (f s)) (es : List ι) :
    f (M.exec es) = ((es.filterMap writes).getLast?).getD (f M.init) := by
  induction es using List.reverseRecOn with
  | nil => rfl
  | append_singleton es e ih =>
    rw [exec_snoc, h, ih, List.filterMap_append]
    cases hw : writes e with
    | none => simp [hw]
    | some b => simp [hw]

/-! ## A machine that drives another -/

section Trace

variable {τ κ : Type*} {N : Machine τ κ} {pass : σ → ι → Option κ}

/-- The events a run from `s` passes on. -/
def trace (step : σ → ι → σ) (pass : σ → ι → Option κ) : σ → List ι → List κ
  | _, [] => []
  | s, e :: es => (pass s e).toList ++ trace step pass (step s e) es

theorem trace_snoc (step : σ → ι → σ) (pass : σ → ι → Option κ) (e : ι) :
    ∀ (es : List ι) (s : σ),
      trace step pass s (es ++ [e]) = trace step pass s es ++ (pass (es.foldl step s) e).toList
  | [], _ => by simp [trace]
  | e' :: es, s => by
    rw [List.cons_append, trace, trace_snoc step pass e es, trace, List.append_assoc]
    rfl

/-- If a step moves its part of the state as the event it passes on moves `N`, a run moves it
as its trace does. -/
theorem exec_trace (f : σ → τ)
    (hstep : ∀ s e, f (M.step s e) = (pass s e).toList.foldl N.step (f s)) :
    ∀ (es : List ι) (s : σ),
      f ((M.startAt s).exec es) = (N.startAt (f s)).exec (trace M.step pass s es)
  | [], _ => rfl
  | e :: es, s => by
    rw [exec_startAt_cons, exec_trace f hstep es, hstep, trace, exec_append]
    rfl

/-- A run whose events pass on events that `N` allows has a trace that is a run of `N`. -/
theorem along_trace {D : τ → κ → Prop} (f : σ → τ)
    (hstep : ∀ s e, f (M.step s e) = (pass s e).toList.foldl N.step (f s))
    (hpass : ∀ s e, C s e → ∀ k ∈ pass s e, D (f s) k) :
    ∀ (es : List ι) (s : σ),
      (M.startAt s).Along C es → (N.startAt (f s)).Along D (trace M.step pass s es)
  | [], _, _ => along_nil
  | e :: es, s, h => by
    obtain ⟨he, hes⟩ := along_cons.1 h
    have hrest := along_trace f hstep hpass es (M.step s e) hes
    rw [hstep] at hrest
    cases hk : pass s e with
    | none => simpa [trace, hk] using hrest
    | some k =>
      have hcons : trace M.step pass s (e :: es) = k :: trace M.step pass (M.step s e) es := by
        simp [trace, hk]
      rw [hcons, along_cons]
      rw [hk] at hrest
      exact ⟨hpass s e he k hk, hrest⟩

end Trace

/-! ## Checking a run -/

/-- Run the events from `s` and check `C` at each. -/
def check (M : Machine σ ι) (C : σ → ι → Prop) [∀ s e, Decidable (C s e)] : σ → List ι → Bool
  | _, [] => true
  | s, e :: es => decide (C s e) && check M C (M.step s e) es

theorem check_iff [∀ s e, Decidable (C s e)] :
    ∀ (es : List ι) (s : σ), M.check C s es = true ↔
      ∀ pre e post, es = pre ++ e :: post → C (pre.foldl M.step s) e
  | [], s => by simp [check]
  | e :: es, s => by
    rw [check, Bool.and_eq_true, decide_eq_true_eq, check_iff es (M.step s e)]
    constructor
    · rintro ⟨he, hes⟩ pre e' post heq
      cases pre with
      | nil =>
        obtain ⟨rfl, -⟩ := List.cons.inj heq
        exact he
      | cons x pre =>
        obtain ⟨rfl, htail⟩ := List.cons.inj heq
        exact hes pre e' post htail
    · intro h
      exact ⟨h [] e es rfl, fun pre e' post heq => h (e :: pre) e' post (by rw [heq]; rfl)⟩

instance [∀ s e, Decidable (C s e)] (es : List ι) : Decidable (M.Along C es) :=
  decidable_of_iff (M.check C M.init es = true) (check_iff es M.init)

end Machine
