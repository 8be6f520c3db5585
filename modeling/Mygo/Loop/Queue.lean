import Mathlib.Data.List.Count
import Mathlib.Data.List.Nodup
import Mygo.Lib.Trace
import Mygo.Loop.Task

/-! `Loop::run` of loop/loop.cpp, with posts arriving between any two operations on its queue. -/

namespace Mygo

universe u

/-- The queue of a `Channel`, front first.  Every operation runs under its mutex. -/
abbrev Channel (T : Type u) := List T

namespace Channel

variable {T : Type u}

/-- `none` is the access to the front of an empty queue. -/
def Pop : Channel T → Option (T × Channel T)
  | [] => none
  | t :: queue_ => some (t, queue_)

def Size (queue_ : Channel T) : Nat := queue_.length

def Push (queue_ : Channel T) (t : T) : Channel T := queue_ ++ [t]

end Channel

/-- Where `Loop::run` stands: at `Size()`, at `Pop()`, inside `task->run(this)`, or in the loop
over what is left of `not_finished`, after which it calls `uv_run`. -/
inductive Control (T : Type u)
  | Size
  | Pop
  | run (task : T)
  | Push (rest : List T)

structure Loop (T : Type u) where
  pending_tasks_ : Channel T
  not_finished : List T
  control : Control T

namespace Loop

inductive Event (T : Type u)
  | PostTask (t : T)
  | Size (n : Nat)
  | Pop (task : T)
  | ran (task : T) (state : Task.State)
  | Push (task : T)
  | uv_run
  deriving DecidableEq

variable {T : Type u}

def init : Loop T := ⟨[], [], .Size⟩

section Run

variable [DecidableEq T]

def step (l : Loop T) : Event T → Option (Loop T)
  | .PostTask t => some { l with pending_tasks_ := l.pending_tasks_.Push t }
  | .Size n =>
    match l.control with
    | .Size =>
      if n = l.pending_tasks_.Size then
        some { l with control := if 0 < n then .Pop else .Push l.not_finished }
      else none
    | _ => none
  | .Pop t =>
    match l.control, l.pending_tasks_.Pop with
    | .Pop, some (task, queue_) =>
      if t = task then some { l with pending_tasks_ := queue_, control := .run task } else none
    | _, _ => none
  | .ran t state =>
    match l.control with
    | .run task =>
      if t = task then
        if state.isNotFinished then
          some { l with not_finished := l.not_finished ++ [task], control := .Size }
        else some { l with control := .Size }
      else none
    | _ => none
  | .Push t =>
    match l.control with
    | .Push (task :: rest) =>
      if t = task then
        some { l with pending_tasks_ := l.pending_tasks_.Push task, control := .Push rest }
      else none
    | _ => none
  | .uv_run =>
    match l.control with
    | .Push [] => some { l with not_finished := [], control := .Size }
    | _ => none

inductive Step : Loop T → Event T → Loop T → Prop
  | PostTask : Step ⟨q, nf, c⟩ (.PostTask t) ⟨q ++ [t], nf, c⟩
  | drained : Step ⟨[], nf, .Size⟩ (.Size 0) ⟨[], nf, .Push nf⟩
  | Size : Step ⟨t :: q, nf, .Size⟩ (.Size (q.length + 1)) ⟨t :: q, nf, .Pop⟩
  | Pop : Step ⟨t :: q, nf, .Pop⟩ (.Pop t) ⟨q, nf, .run t⟩
  | keep : state.isNotFinished = true →
    Step ⟨q, nf, .run t⟩ (.ran t state) ⟨q, nf ++ [t], .Size⟩
  | drop : state.isNotFinished = false →
    Step ⟨q, nf, .run t⟩ (.ran t state) ⟨q, nf, .Size⟩
  | Push : Step ⟨q, nf, .Push (t :: rest)⟩ (.Push t) ⟨q ++ [t], nf, .Push rest⟩
  | uv_run : Step ⟨q, nf, .Push []⟩ .uv_run ⟨q, [], .Size⟩

theorem step_cases {l l' : Loop T} {e : Event T} (h : l.step e = some l') : Step l e l' := by
  obtain ⟨q, nf, c⟩ := l
  cases e with
  | PostTask t =>
    cases h
    exact .PostTask
  | Size n =>
    cases c with
    | Size =>
      cases q with
      | nil =>
        simp only [step, Channel.Size, List.length_nil] at h
        split at h
        · next hn =>
          subst hn
          cases h
          exact .drained
        · cases h
      | cons t q =>
        simp only [step, Channel.Size, List.length_cons] at h
        split at h
        · next hn =>
          subst hn
          cases h
          exact .Size
        · cases h
    | _ => cases h
  | Pop t =>
    cases c with
    | Pop =>
      cases q with
      | nil => cases h
      | cons task q =>
        simp only [step, Channel.Pop] at h
        split at h
        · next ht =>
          subst ht
          cases h
          exact .Pop
        · cases h
    | _ => cases q <;> cases h
  | ran t state =>
    cases c with
    | run task =>
      simp only [step] at h
      split at h
      · next ht =>
        subst ht
        split at h
        · next hs =>
          cases h
          exact .keep hs
        · next hs =>
          cases h
          exact .drop (by simpa using hs)
      · cases h
    | _ => cases h
  | Push t =>
    cases c with
    | Push rest =>
      cases rest with
      | nil => cases h
      | cons task rest =>
        simp only [step] at h
        split at h
        · next ht =>
          subst ht
          cases h
          exact .Push
        · cases h
    | _ => cases h
  | uv_run =>
    cases c with
    | Push rest =>
      cases rest with
      | nil =>
        cases h
        exact .uv_run
      | cons task rest => cases h
    | _ => cases h

end Run

/-! What a trace says about tasks. -/

def Event.posted : Event T → List T
  | .PostTask t => [t]
  | _ => []

def Event.returned : Event T → List (T × Task.State)
  | .ran t state => [(t, state)]
  | _ => []

def Event.requeued : Event T → List T
  | .Push t => [t]
  | _ => []

def posted (events : List (Event T)) : List T := events.flatMap Event.posted

def returned (events : List (Event T)) : List (T × Task.State) := events.flatMap Event.returned

def ran (events : List (Event T)) : List T := (returned events).map Prod.fst

def ended (events : List (Event T)) : List T :=
  ((returned events).filter fun r => !r.2.isNotFinished).map Prod.fst

def unfinished (events : List (Event T)) : List T :=
  ((returned events).filter fun r => r.2.isNotFinished).map Prod.fst

def requeued (events : List (Event T)) : List T := events.flatMap Event.requeued

@[simp] theorem posted_snoc (es : List (Event T)) (e : Event T) :
    posted (es ++ [e]) = posted es ++ e.posted := by
  simp [posted]

@[simp] theorem returned_snoc (es : List (Event T)) (e : Event T) :
    returned (es ++ [e]) = returned es ++ e.returned := by
  simp [returned]

theorem ended_snoc (es : List (Event T)) (e : Event T) : ended (es ++ [e]) = ended es ++ ended [e] := by
  simp [ended, returned]

@[simp] theorem requeued_snoc (es : List (Event T)) (e : Event T) :
    requeued (es ++ [e]) = requeued es ++ e.requeued := by
  simp [requeued]

/-- The tasks the loop owns: queued, waiting in `not_finished`, or running. -/
def owned (l : Loop T) : List T :=
  match l.control with
  | .Size | .Pop => l.pending_tasks_ ++ l.not_finished
  | .run task => l.pending_tasks_ ++ l.not_finished ++ [task]
  | .Push rest => l.pending_tasks_ ++ rest

variable [DecidableEq T]

theorem Step.owned_perm {l l' : Loop T} {e : Event T} (h : Step l e l') :
    (e.posted ++ l.owned).Perm (l'.owned ++ ended [e]) := by
  rw [List.perm_iff_count]
  intro t
  cases h with
  | @PostTask q nf c u =>
    cases c <;> simp [Event.posted, ended, returned, Event.returned, owned, List.count_cons] <;> omega
  | keep hs | drop hs =>
    simp [Event.posted, ended, returned, Event.returned, owned, hs]
    try omega
  | _ =>
    simp [Event.posted, ended, returned, Event.returned, owned, List.count_cons]
    try omega

theorem owned_of_ran {l l' : Loop T} {t : T} {state : Task.State} (h : l.step (.ran t state) = some l') :
    t ∈ l.owned := by
  cases step_cases h with
  | keep _ | drop _ => simp [owned]

/-- A trace of the loop from its construction.  Every post hands over a task of its own. -/
structure Execution (events : List (Event T)) (l : Loop T) : Prop where
  reached : Trace.follow step init events = some l
  fresh : (posted events).Nodup

theorem Step.balance {es : List (Event T)} {l l' : Loop T} {e : Event T} (h : Step l e l') (t : T)
    (ih : (posted es).count t = (ended es).count t + l.owned.count t) :
    (posted (es ++ [e])).count t = (ended (es ++ [e])).count t + l'.owned.count t := by
  have owned := h.owned_perm.count_eq t
  rw [List.count_append, List.count_append] at owned
  rw [posted_snoc, ended_snoc, List.count_append, List.count_append, ih]
  omega

theorem balance {events : List (Event T)} {l : Loop T}
    (h : Trace.follow step init events = some l) (t : T) :
    (posted events).count t = (ended events).count t + l.owned.count t :=
  Trace.follow_induction (P := fun events l =>
    (posted events).count t = (ended events).count t + l.owned.count t) rfl
    (fun _ _ _ _ _ ih he => (step_cases he).balance t ih) h

theorem Execution.owned_once {events : List (Event T)} {l : Loop T} (h : Execution events l) (t : T) :
    (ended events).count t + l.owned.count t ≤ 1 :=
  balance h.reached t ▸ List.nodup_iff_count_le_one.mp h.fresh t

def history (events : List (Event T)) (t : T) : List Task.State :=
  ((returned events).filter fun r => r.1 = t).map Prod.snd

theorem count_ended (es : List (Event T)) (t : T) :
    (ended es).count t = (history es t).countP fun s => !s.isNotFinished := by
  simp [ended, history, List.count, List.countP_map, List.countP_filter, Function.comp_def,
    Bool.and_comm, beq_eq_decide]

inductive Living : List Task.State → Prop
  | unfinished : (∀ s ∈ states, s.isNotFinished = true) → Living states
  | gone : (∀ s ∈ states, s.isNotFinished = true) → last.isNotFinished = false →
    Living (states ++ [last])

@[simp] theorem history_ran (es : List (Event T)) (t : T) (state : Task.State) :
    history (es ++ [.ran t state]) t = history es t ++ [state] := by
  simp [history, Event.returned]

theorem history_other {es : List (Event T)} {t u : T} (other : u ≠ t) (state : Task.State) :
    history (es ++ [.ran u state]) t = history es t := by
  simp [history, Event.returned, other]

theorem Execution.unfinished_of_owned {events : List (Event T)} {l : Loop T} (h : Execution events l)
    {t : T} (held : t ∈ l.owned) : ∀ s ∈ history events t, s.isNotFinished = true := by
  intro s hs
  have once := h.owned_once t
  have positive := List.count_pos_iff.mpr held
  have none : (history events t).countP (fun s => !s.isNotFinished) = 0 := by
    rw [← count_ended]
    omega
  simpa using List.countP_eq_zero.mp none s hs

theorem Execution.living {events : List (Event T)} {l : Loop T} (h : Execution events l) (t : T) :
    Living (history events t) := by
  obtain ⟨reached, fresh⟩ := h
  refine Trace.follow_induction (P := fun events l =>
    (posted events).Nodup → Living (history events t)) (fun _ => .unfinished nofun) ?_ reached fresh
  intro es l e l' before ih he fresh
  rw [posted_snoc] at fresh
  have fresh' : (posted es).Nodup := fresh.sublist (List.sublist_append_left _ _)
  have unfinished := Execution.unfinished_of_owned (t := t) ⟨before, fresh'⟩
  cases step_cases he with
  | @keep q nf u state hs =>
    by_cases same : u = t
    · subst same
      rw [history_ran]
      refine .unfinished (List.forall_mem_append.mpr ⟨unfinished (by simp [owned]), ?_⟩)
      exact List.forall_mem_singleton.mpr hs
    · rw [history_other same]
      exact ih fresh'
  | @drop q nf u state hs =>
    by_cases same : u = t
    · subst same
      rw [history_ran]
      exact .gone (unfinished (by simp [owned])) hs
    · rw [history_other same]
      exact ih fresh'
  | _ => simpa [history, Event.returned] using ih fresh'

/-! One round of the outer loop. -/

/-- The events of a round so far: it drains the queue it found, then pushes back. -/
inductive During (start : Channel T) (es : List (Event T)) : Loop T → Prop
  | Size : start ++ posted es = ran es ++ q → nf = unfinished es → requeued es = [] →
    During start es ⟨q, nf, .Size⟩
  | Pop : start ++ posted es = ran es ++ t :: q → nf = unfinished es → requeued es = [] →
    During start es ⟨t :: q, nf, .Pop⟩
  | run : start ++ posted es = ran es ++ t :: q → nf = unfinished es → requeued es = [] →
    During start es ⟨q, nf, .run t⟩
  | Push : start ++ early = ran es → early <+: posted es → unfinished es = requeued es ++ rest →
    (requeued es).Sublist q → During start es ⟨q, nf, .Push rest⟩

omit [DecidableEq T] in
theorem during_step {start : Channel T} {es : List (Event T)} {e : Event T} {l l' : Loop T}
    (ih : During start es l) (h : Step l e l') (inside : e ≠ .uv_run) : During start (es ++ [e]) l' := by
  cases h with
  | @PostTask q nf c u =>
    cases ih with
    | Size queue waiting none =>
      apply During.Size
      · simpa [Event.posted, ran, Event.returned] using congrArg (· ++ [u]) queue
      · simpa [unfinished, Event.returned] using waiting
      · simpa [Event.requeued] using none
    | Pop queue waiting none =>
      apply During.Pop
      · simpa [Event.posted, ran, Event.returned] using congrArg (· ++ [u]) queue
      · simpa [unfinished, Event.returned] using waiting
      · simpa [Event.requeued] using none
    | run queue waiting none =>
      apply During.run
      · simpa [Event.posted, ran, Event.returned] using congrArg (· ++ [u]) queue
      · simpa [unfinished, Event.returned] using waiting
      · simpa [Event.requeued] using none
    | Push queue early all order =>
      apply During.Push
      · simpa [ran, Event.returned] using queue
      · exact early.trans (by simp)
      · simpa [unfinished, Event.returned, Event.requeued] using all
      · exact (by simpa [Event.requeued] using order.trans (List.sublist_append_left q [u]))
  | drained =>
    cases ih with
    | Size queue waiting none =>
      apply During.Push
      · simpa [ran, Event.returned] using queue
      · simp [Event.posted]
      · simp [unfinished, Event.returned, Event.requeued, none, waiting]
      · simp [Event.requeued, none]
  | Size =>
    cases ih with
    | Size queue waiting none =>
      apply During.Pop
      · simpa [Event.posted, ran, Event.returned] using queue
      · simpa [unfinished, Event.returned] using waiting
      · simpa [Event.requeued] using none
  | Pop =>
    cases ih with
    | Pop queue waiting none =>
      apply During.run
      · simpa [Event.posted, ran, Event.returned] using queue
      · simpa [unfinished, Event.returned] using waiting
      · simpa [Event.requeued] using none
  | keep hs | drop hs =>
    cases ih with
    | run queue waiting none =>
      apply During.Size
      · simpa [Event.posted, ran, Event.returned] using queue
      · simpa [unfinished, Event.returned, hs] using waiting
      · simpa [Event.requeued] using none
  | @Push q nf u rest =>
    cases ih with
    | Push queue early all order =>
      apply During.Push
      · simpa [ran, Event.returned] using queue
      · simpa [Event.posted] using early
      · simpa [unfinished, Event.returned, Event.requeued] using all
      · simpa [Event.requeued] using order
  | uv_run => exact absurd rfl inside

inductive Top : List (Event T) → Prop
  | init : Top []
  | uv_run : Top (es ++ [.uv_run])
  | PostTask : Top es → Top (es ++ [.PostTask t])

theorem Top.state {es : List (Event T)} {l : Loop T} (top : Top es)
    (h : Trace.follow step Loop.init es = some l) : ∃ q, l = ⟨q, [], .Size⟩ := by
  induction top generalizing l with
  | init =>
    cases h
    exact ⟨[], rfl⟩
  | uv_run =>
    obtain ⟨l', -, last⟩ := Trace.follow_snoc.mp h
    cases step_cases last with
    | uv_run => exact ⟨_, rfl⟩
  | PostTask _ ih =>
    obtain ⟨l', before, last⟩ := Trace.follow_snoc.mp h
    obtain ⟨q, rfl⟩ := ih before
    cases step_cases last with
    | PostTask => exact ⟨_, rfl⟩

structure Round (before body : List (Event T)) (l₀ l : Loop T) : Prop where
  top : Top before
  start : Trace.follow step Loop.init before = some l₀
  inside : .uv_run ∉ body
  finish : Trace.follow step l₀ (body ++ [.uv_run]) = some l
  fresh : (posted (before ++ body)).Nodup

theorem during {q : Channel T} {body : List (Event T)} {l : Loop T}
    (h : Trace.follow step ⟨q, [], .Size⟩ body = some l) (inside : .uv_run ∉ body) :
    During q body l := by
  refine Trace.follow_induction (P := fun es l => .uv_run ∉ es → During q es l) ?_ ?_ h inside
  · intro _
    exact .Size (by simp [posted, ran, returned]) rfl rfl
  · intro es l e l' _ ih he outside
    rw [List.mem_append, not_or, List.mem_singleton] at outside
    exact during_step (ih outside.1) (step_cases he) (Ne.symm outside.2)

namespace Round

variable {before body : List (Event T)} {l₀ l : Loop T}

theorem drained (h : Round before body l₀ l) :
    ∃ early, l₀.pending_tasks_ ++ early = ran body ∧ early <+: posted body ∧
      requeued body = unfinished body ∧ (unfinished body).Sublist l.pending_tasks_ ∧
      l.owned = l.pending_tasks_ := by
  obtain ⟨q, rfl⟩ := h.top.state h.start
  obtain ⟨l', inner, last⟩ := Trace.follow_snoc.mp h.finish
  cases step_cases last with
  | uv_run =>
    cases during inner h.inside with
    | Push queue early all order =>
      rw [List.append_nil] at all
      exact ⟨_, queue, early, all.symm, all ▸ order, List.append_nil _⟩

theorem execution (h : Round before body l₀ l) :
    Execution (before ++ (body ++ [.uv_run])) l where
  reached := by rw [Trace.follow_append, h.start]; exact h.finish
  fresh := by simpa [posted, Event.posted] using h.fresh

theorem ran_nodup (h : Round before body l₀ l) : (ran body).Nodup := by
  obtain ⟨early, queue, first, -⟩ := h.drained
  rw [← queue]
  refine List.Nodup.sublist ((List.Sublist.refl _).append first.sublist) ?_
  rw [List.nodup_iff_count_le_one]
  intro t
  have once := List.nodup_iff_count_le_one.mp h.fresh t
  have held := balance h.start t
  have queued : l₀.pending_tasks_.count t ≤ l₀.owned.count t := by
    obtain ⟨q, rfl⟩ := h.top.state h.start
    simp [owned]
  simp only [posted, List.flatMap_append, List.count_append] at once held ⊢
  omega

end Round

/-- What a task of the trace has become: gone after one run that ended it, or queued once. -/
def Settled (events : List (Event T)) (l : Loop T) (t : T) : Prop :=
  (∃ states last, history events t = states ++ [last] ∧ (∀ s ∈ states, s.isNotFinished = true) ∧
    last.isNotFinished = false ∧ t ∉ l.owned) ∨
  ((∀ s ∈ history events t, s.isNotFinished = true) ∧ l.pending_tasks_.count t = 1)

theorem Execution.settled {events : List (Event T)} {l : Loop T} (h : Execution events l)
    (drained : l.owned = l.pending_tasks_) {t : T} (ht : t ∈ posted events) : Settled events l t := by
  have held := balance h.reached t
  rw [List.nodup_iff_count_eq_one.mp h.fresh t ht, count_ended, drained] at held
  generalize hs : history events t = states at held
  cases hs ▸ h.living t with
  | unfinished all =>
    have none : states.countP (fun s => !s.isNotFinished) = 0 :=
      List.countP_eq_zero.mpr fun s hs => by simp [all s hs]
    exact .inr ⟨hs ▸ all, by omega⟩
  | gone all last =>
    refine .inl ⟨_, _, hs, all, last, ?_⟩
    rw [drained, ← List.count_eq_zero]
    simp [List.countP_append, last] at held
    omega

/-- At the end of every round each task ever posted is gone after one run that ended it, or
queued once; the round runs no task twice and every task it found once, and it pushes the
unfinished ones back in the order of their runs. -/
theorem round_exactly_once {before body : List (Event T)} {l₀ l : Loop T}
    (h : Round before body l₀ l) :
    (∀ t ∈ posted (before ++ (body ++ [.uv_run])), Settled (before ++ (body ++ [.uv_run])) l t) ∧
    (∀ t, (ran body).count t ≤ 1) ∧ (∀ t ∈ l₀.pending_tasks_, (ran body).count t = 1) ∧
    requeued body = unfinished body ∧ (unfinished body).Sublist l.pending_tasks_ := by
  obtain ⟨early, queue, -, pushed, order, drained⟩ := h.drained
  refine ⟨?_, List.nodup_iff_count_le_one.mp h.ran_nodup, ?_, pushed, order⟩
  · intro t ht
    exact h.execution.settled drained ht
  · intro t ht
    exact List.count_eq_one_of_mem h.ran_nodup (queue ▸ List.mem_append_left early ht)

def sampleStart : List (Event Nat) := [.PostTask 0, .PostTask 1]

def sampleRound : List (Event Nat) :=
  [.Size 2, .Pop 0, .PostTask 2, .ran 0 ⟨1⟩, .PostTask 3, .Size 3, .Pop 1, .ran 1 .Finished,
    .Size 2, .Pop 2, .ran 2 ⟨0⟩, .Size 1, .Pop 3, .ran 3 .Error, .Size 0, .Push 0, .PostTask 4, .Push 2]

theorem round_exactly_once_sample :
    (∀ t ∈ posted (sampleStart ++ (sampleRound ++ [.uv_run])),
      Settled (sampleStart ++ (sampleRound ++ [.uv_run])) ⟨[0, 4, 2], [], .Size⟩ t) ∧
    (∀ t, (ran sampleRound).count t ≤ 1) ∧ (∀ t ∈ [0, 1], (ran sampleRound).count t = 1) ∧
    requeued sampleRound = unfinished sampleRound ∧ (unfinished sampleRound).Sublist [0, 4, 2] :=
  have sample : Round sampleStart sampleRound ⟨[0, 1], [], .Size⟩ ⟨[0, 4, 2], [], .Size⟩ :=
    { top := .PostTask (.PostTask .init)
      start := rfl
      inside := by decide
      finish := rfl
      fresh := by decide }
  round_exactly_once sample

/-- A `RunOnce` task calls its function in one run and is then gone. -/
theorem run_once {events : List (Event T)} {l : Loop T} (h : Execution events l) {t : T}
    (behaves : RunOnce.Returns .S0 (history events t)) :
    history events t = [] ∨ history events t = [.Finished] := by
  generalize hs : history events t = states at behaves
  cases hs ▸ h.living t with
  | unfinished all =>
    cases states with
    | nil => exact .inl rfl
    | cons s states =>
      obtain ⟨⟨called, first⟩, -⟩ := behaves
      cases first
      exact absurd (all _ List.mem_cons_self) (by decide)
  | @gone states last all ended =>
    cases states with
    | nil =>
      obtain ⟨⟨called, first⟩, -⟩ := behaves
      cases first
      exact .inr rfl
    | cons s states =>
      obtain ⟨⟨called, first⟩, -⟩ := behaves
      cases first
      exact absurd (all _ List.mem_cons_self) (by decide)

end Loop

end Mygo
