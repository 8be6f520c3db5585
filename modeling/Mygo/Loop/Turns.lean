import Mygo.Lib.RoundRobin
import Mygo.Loop.Queue

namespace Mygo

universe u

namespace Loop

variable {T : Type u}

def schedule (l : Loop T) : RoundRobin.Schedule T :=
  match l.control with
  | .Size | .Pop => ⟨l.pending_tasks_ ++ l.not_finished, none⟩
  | .run task => ⟨l.pending_tasks_ ++ l.not_finished, some task⟩
  | .Push rest => ⟨l.pending_tasks_ ++ rest, none⟩

theorem order_schedule (l : Loop T) : l.schedule.order = l.owned := by
  obtain ⟨q, nf, c⟩ := l
  cases c with
  | run task => rfl
  | Size | Pop | Push => exact List.append_nil _

def Event.turns : Event T → List (RoundRobin.Event T)
  | .PostTask t => [.join t]
  | .Pop t => [.start t]
  | .ran t state => [if state.isNotFinished then .yield t else .leave t]
  | _ => []

def turns (events : List (Event T)) : List (RoundRobin.Event T) := events.flatMap Event.turns

theorem joined_turns (events : List (Event T)) : RoundRobin.joined (turns events) = posted events := by
  rw [RoundRobin.joined, turns, List.flatMap_assoc]
  refine congrArg (List.flatMap · events) (funext fun e => ?_)
  cases e with
  | ran t state =>
    cases same : state.isNotFinished <;> simp [Event.turns, Event.posted, RoundRobin.Event.joins, same]
  | _ => rfl

theorem start_mem {events : List (Event T)} {t : T} : .start t ∈ turns events ↔ .Pop t ∈ events := by
  rw [turns, List.mem_flatMap]
  constructor
  · rintro ⟨e, member, turn⟩
    cases e with
    | Pop u =>
      cases List.mem_singleton.mp turn
      exact member
    | ran u state =>
      cases same : state.isNotFinished <;> simp [Event.turns, same] at turn
    | PostTask | Size | Push | uv_run => simp [Event.turns] at turn
  · exact fun member => ⟨_, member, List.mem_singleton_self _⟩

theorem Step.turns {l l' : Loop T} {e : Event T} (h : Step l e l') :
    RoundRobin.Run l.schedule e.turns l'.schedule := by
  cases h with
  | @PostTask q nf c t =>
    have joins : ∀ (b : List T) (active : Option T),
        RoundRobin.Run ⟨q ++ b, active⟩ [.join t] ⟨q ++ [t] ++ b, active⟩ := by
      intro b active
      rw [List.append_assoc]
      exact .single (.join q b t active)
    cases c with
    | Size | Pop | run | Push => exact joins _ _
  | drained | Size | uv_run => exact .nil _
  | Pop => exact .single (.start _ _)
  | @keep q nf t state unfinished =>
    have yields := RoundRobin.Step.yield t (q ++ nf)
    rw [List.append_assoc] at yields
    rw [Event.turns, if_pos unfinished]
    exact .single yields
  | drop finished =>
    rw [Event.turns, if_neg (by simp [finished])]
    exact .single (.leave _ _)
  | @Push q nf t rest =>
    have same : q ++ [t] ++ rest = q ++ t :: rest := List.append_assoc _ _ _
    simp only [schedule, Event.turns, same]
    exact .nil _

variable [DecidableEq T]

theorem count_start (events : List (Event T)) (t : T) :
    (turns events).count (.start t) = events.count (.Pop t) := by
  induction events with
  | nil => rfl
  | cons e events ih =>
    rw [turns, List.flatMap_cons, List.count_append, ← turns, ih, List.count_cons, Nat.add_comm]
    congr 1
    cases e with
    | ran u state => cases same : state.isNotFinished <;> simp [Event.turns, same]
    | Pop u => by_cases same : u = t <;> simp [Event.turns, same]
    | PostTask | Size | Push | uv_run => simp [Event.turns]

/-- The loop refines the schedule. -/
theorem follow_turns {l l' : Loop T} {events : List (Event T)} (h : Trace.follow step l events = some l') :
    RoundRobin.Run l.schedule (turns events) l'.schedule := by
  refine Trace.follow_induction (P := fun es l' => RoundRobin.Run l.schedule (turns es) l'.schedule) (.nil _) ?_ h
  intro es l₁ e l₂ _ ih he
  rw [turns, List.flatMap_append, List.flatMap_singleton]
  exact ih.append (step_cases he).turns

theorem Execution.fresh_after {before events : List (Event T)} {l l₀ : Loop T} (h : Execution (before ++ events) l)
    (start : Trace.follow step init before = some l₀) : RoundRobin.Fresh l₀.schedule (turns events) := by
  rw [RoundRobin.Fresh, order_schedule, joined_turns, List.nodup_iff_count_le_one]
  intro t
  have once := List.nodup_iff_count_le_one.mp h.fresh t
  have held := balance start t
  rw [posted, List.flatMap_append, List.count_append, ← posted, ← posted] at once
  rw [List.count_append]
  omega

theorem Execution.after {before events : List (Event T)} {l l₀ : Loop T} (h : Execution (before ++ events) l)
    (start : Trace.follow step init before = some l₀) : Trace.follow step l₀ events = some l := by
  have reached := h.reached
  rw [Trace.follow_append, start] at reached
  exact reached

/-- While an unfinished task waits, no other task is taken twice; and between two runs of one task every other
task that the loop had is taken once. -/
theorem round_robin {before events : List (Event T)} {l₀ l : Loop T} (h : Execution (before ++ events) l)
    (start : Trace.follow step init before = some l₀) :
    (∀ t ∈ l₀.owned, t ∈ l.owned → .Pop t ∉ events → ∀ v, t ≠ v → events.count (.Pop v) ≤ 1) ∧
      ∀ t between, events = .Pop t :: (between ++ [.Pop t]) → .Pop t ∉ between →
        ∀ v ∈ l₀.owned, t ≠ v → between.count (.Pop v) = 1 := by
  have fresh := h.fresh_after start
  have reached := h.after start
  constructor
  · intro t there still idle v other
    have run := follow_turns reached
    rw [← order_schedule] at there still
    rw [← count_start]
    exact run.once fresh there (fun turn => idle (start_mem.mp turn)) (run.stayed fresh there still) other
  · rintro t between rfl idle v there other
    obtain ⟨l₁, first, reached⟩ := Option.bind_eq_some_iff.mp reached
    obtain ⟨l₂, inside, last⟩ := Trace.follow_snoc.mp reached
    have taken : ∀ {l l' : Loop T}, l.step (.Pop t) = some l' →
        RoundRobin.Step l.schedule (.start t) l'.schedule := by
      intro l l' popped
      cases step_cases popped with
      | Pop => exact .start _ _
    have first' := taken first
    have fresh' : RoundRobin.Fresh l₁.schedule (turns between) := by
      have tail : RoundRobin.Fresh l₁.schedule (turns (between ++ [.Pop t])) := fresh.step first'
      rw [RoundRobin.Fresh, joined_turns] at tail ⊢
      refine tail.sublist ((List.Sublist.refl _).append ?_)
      rw [posted, posted, List.flatMap_append]
      exact List.sublist_append_left _ _
    rw [← order_schedule] at there
    rw [← count_start]
    exact (follow_turns inside).turns first' (taken last) fresh' (fun turn => idle (start_mem.mp turn)) there other

def twoPosted : List (Event Nat) := [.PostTask 0, .PostTask 1, .Size 2]

def ranTwice : List (Event Nat) :=
  [.Pop 0, .ran 0 ⟨1⟩, .Size 1, .Pop 1, .PostTask 2, .ran 1 ⟨1⟩, .Size 1, .Pop 2, .ran 2 .Finished, .Size 0,
    .Push 0, .Push 1, .uv_run, .Size 2, .Pop 0]

theorem round_robin_sample :
    (∀ t ∈ [0, 1], t ∈ [1, 0] → .Pop t ∉ ranTwice → ∀ v, t ≠ v → ranTwice.count (.Pop v) ≤ 1) ∧
      ∀ t between, ranTwice = .Pop t :: (between ++ [.Pop t]) → .Pop t ∉ between →
        ∀ v ∈ [0, 1], t ≠ v → between.count (.Pop v) = 1 :=
  have execution : Execution (twoPosted ++ ranTwice) ⟨[1], [], .run 0⟩ :=
    { reached := rfl
      fresh := by decide }
  have start : Trace.follow step init twoPosted = some ⟨[0, 1], [], .Pop⟩ := rfl
  round_robin execution start

end Loop

end Mygo
