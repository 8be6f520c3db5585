import Mygo.Loop.Client
import Mygo.Loop.Queue

/-! The handles that are members of tasks, in `Loop::run` with the callbacks of libuv. -/

namespace Mygo

structure TimerTask where
  state_ : Task.State
  repeat_ : Bool
  timeout_ : Bool
  duration_ : Nat

inductive TimerRequest
  | uv_timer_start (timeout again : Nat)
  | func_

namespace TimerTask

def init (again : Bool) (duration : Nat) : TimerTask := ⟨.S0, again, false, duration⟩

/-- `(int)duration_ / MiliSec`, an `int` that becomes a `uint64_t`. -/
def millis (duration_ : Nat) : Nat := ((BitVec.ofNat 32 duration_).signExtend 64).toNat / 1000000

/-- `none` is the failed assertion in `next`. -/
def run (s : TimerTask) : Option (TimerTask × List TimerRequest) :=
  if s.state_.isS0 then
    s.state_.next.map fun state =>
      ({ s with state_ := state }, [.uv_timer_start (millis s.duration_) (millis s.duration_)])
  else if s.state_.isFinished then some (s, [])
  else if s.timeout_ then
    if s.repeat_ then some ({ s with timeout_ := false }, [.func_])
    else some ({ s with state_ := .Finished }, [.func_])
  else some (s, [])

end TimerTask

namespace Lifetime

inductive TaskObject
  | RunOnce (state_ : Task.State)
  | TimerTask (timer : TimerTask)
  | TcpServerTask (server : TcpServerTask)
  | TcpClientTask (client : TcpClientTask)

inductive NewTask
  | RunOnce
  | TimerTask (again : Bool) (duration : Nat)
  | TcpServerTask
  | TcpClientTask (need_send : Bytes)

def NewTask.make : NewTask → TaskObject
  | .RunOnce => .RunOnce .S0
  | .TimerTask again duration => .TimerTask (.init again duration)
  | .TcpServerTask => .TcpServerTask .init
  | .TcpClientTask need_send => .TcpClientTask (.init need_send)

/-- A handle is `idle` when it has been initialised and not started, and `freed` when the close
callback has passed it to `free`. -/
inductive HandleState
  | unborn
  | idle
  | active
  | stopped
  | closing
  | freed
  deriving DecidableEq

structure Body where
  task : TaskObject
  handle : HandleState

/-- The callbacks of libuv.  `read_connection` is the one of an accepted connection, whose handle
is no member of the server. -/
inductive Callback
  | timer_cb
  | on_new_connection (status : Int) (client : Handle) (accepted : Int)
  | read_connection (client : Handle) (nread : Int) (base : Bytes)
  | on_connect (status : Int)
  | on_read (nread : Int) (base : Bytes)
  | on_close

namespace Body

def run (b : Body) (bind listen err : Int) : Option (Body × Task.State) :=
  match b.task with
  | .RunOnce state_ => (RunOnce.run state_).map fun (_, state) => (⟨.RunOnce state, b.handle⟩, state)
  | .TimerTask timer => timer.run.map fun (timer', _) =>
    (⟨.TimerTask timer', if timer.state_.isS0 then .active else b.handle⟩, timer'.state_)
  | .TcpServerTask server =>
    let (server', _) := server.run bind listen
    let started : HandleState := if bind = 0 ∧ listen = 0 then .active else .idle
    some (⟨.TcpServerTask server', if server.state_.isS0 then started else b.handle⟩, server'.state_)
  | .TcpClientTask client => client.run.map fun (client', _) =>
    let started : HandleState := if err = 0 then .active else .idle
    (⟨.TcpClientTask client', if client.state_.isS0 then started else b.handle⟩, client'.state_)

/-- libuv calls back on active handles, a connect request once before any read, and the close
callback after `uv_close`.  It stops a timer that was started with no interval to repeat at. -/
def callback (b : Body) : Callback → Option Body
  | .timer_cb =>
    match b with
    | ⟨.TimerTask timer, .active⟩ =>
      some ⟨.TimerTask { timer with timeout_ := true },
        if TimerTask.millis timer.duration_ = 0 then .stopped else .active⟩
    | _ => none
  | .on_new_connection status client accepted =>
    match b with
    | ⟨.TcpServerTask server, .active⟩ =>
      some ⟨.TcpServerTask (server.on_new_connection status client accepted), .active⟩
    | _ => none
  | .read_connection client nread base =>
    match b with
    | ⟨.TcpServerTask server, .active⟩ =>
      (server.connection_id_map_ client).map fun _ =>
        ⟨.TcpServerTask (server.on_read client nread base), .active⟩
    | _ => none
  | .on_connect status =>
    match b with
    | ⟨.TcpClientTask client, .active⟩ =>
      if client.state_.isS1 then
        (client.on_connect status).map fun (client', _) =>
          ⟨.TcpClientTask client', if status < 0 then .closing else .active⟩
      else none
    | _ => none
  | .on_read nread base =>
    match b with
    | ⟨.TcpClientTask client, .active⟩ =>
      if client.state_.isS1 then none
      else (client.on_read nread base).map fun (client', _) =>
        ⟨.TcpClientTask client', if nread < 0 then .closing else .active⟩
    | _ => none
  | .on_close =>
    match b with
    | ⟨task, .closing⟩ => some ⟨task, .freed⟩
    | _ => none

end Body

abbrev TaskId := Nat

inductive Event
  | PostTask (t : TaskId) (task : NewTask)
  | loop (e : Loop.Event TaskId)
  | run (t : TaskId) (bind listen err : Int)
  | callback (t : TaskId) (cb : Callback)

structure World where
  loop : Loop TaskId
  bodies : TaskId → Option Body

def init : World := ⟨.init, fun _ => none⟩

def World.put (w : World) (t : TaskId) (b : Body) (loop : Loop TaskId) : World :=
  ⟨loop, Function.update w.bodies t (some b)⟩

def step (w : World) : Event → Option World
  | .PostTask t task =>
    match w.bodies t with
    | some _ => none
    | none => (w.loop.step (.PostTask t)).map (w.put t ⟨task.make, .unborn⟩)
  | .loop (.PostTask _) => none
  | .loop (.ran _ _) => none
  | .loop e => (w.loop.step e).map fun loop => { w with loop := loop }
  | .run t bind listen err => do
    let (b, state) ← (← w.bodies t).run bind listen err
    let loop ← w.loop.step (.ran t state)
    some (w.put t b loop)
  | .callback t cb =>
    match w.loop.control with
    | .Push [] => do
      let b ← (← w.bodies t).callback cb
      some (w.put t b w.loop)
    | _ => none

/-- An active handle is the member of a task that the loop owns, a task is destroyed only after its
handle has been stopped if it was initialised, and no close callback that frees a member has been
given to libuv. -/
structure Safe (w : World) : Prop where
  owned : ∀ t b, w.bodies t = some b → b.handle = .active → t ∈ w.loop.owned
  released : ∀ t b, w.bodies t = some b → t ∉ w.loop.owned → b.handle ≠ .idle ∧ b.handle ≠ .active
  members : ∀ t b, w.bodies t = some b → b.handle ≠ .closing ∧ b.handle ≠ .freed

/-- A timer that does not repeat is not run after its timeout, unless it was started with zero
milliseconds, and binding and listening succeed. -/
def Body.Keeps (b : Body) (bind listen : Int) : Prop :=
  match b.task with
  | .TimerTask timer =>
    timer.timeout_ = true → timer.repeat_ = true ∨ TimerTask.millis timer.duration_ = 0
  | .TcpServerTask server => server.state_.isS0 = true → bind = 0 ∧ listen = 0
  | _ => True

def Callback.Keeps : Callback → Prop
  | .on_connect status => 0 ≤ status
  | .on_read nread _ => 0 ≤ nread
  | _ => True

def World.Keeps (w : World) : Event → Prop
  | .run t bind listen _ => ∀ b, w.bodies t = some b → b.Keeps bind listen
  | .callback _ cb => cb.Keeps
  | _ => True

inductive Body.Living : Body → Prop
  | once : Living ⟨.RunOnce .S0, .unborn⟩
  | new_timer : timer.state_ = .S0 → timer.timeout_ = false → Living ⟨.TimerTask timer, .unborn⟩
  | timer : timer.state_ = ⟨1⟩ → (TimerTask.millis timer.duration_ = 0 → timer.timeout_ = false) →
    Living ⟨.TimerTask timer, .active⟩
  | stopped : timer.state_ = ⟨1⟩ → TimerTask.millis timer.duration_ = 0 →
    Living ⟨.TimerTask timer, .stopped⟩
  | new_server : server.state_ = .S0 → Living ⟨.TcpServerTask server, .unborn⟩
  | server : server.state_ = ⟨1⟩ → Living ⟨.TcpServerTask server, .active⟩
  | new_client : client.state_ = .S0 → Living ⟨.TcpClientTask client, .unborn⟩
  | client : 1 ≤ client.state_.internal_ → started = .idle ∨ started = .active →
    Living ⟨.TcpClientTask client, started⟩

def Body.Released (b : Body) : Prop := b.handle = .unborn ∨ b.handle = .stopped

theorem living_make (task : NewTask) : Body.Living ⟨task.make, .unborn⟩ := by
  cases task with
  | RunOnce => exact .once
  | TimerTask => exact .new_timer rfl rfl
  | TcpServerTask => exact .new_server rfl
  | TcpClientTask => exact .new_client rfl

namespace Body

variable {b b' : Body} {bind listen err : Int} {state : Task.State} {cb : Callback}

theorem Released.not_open (h : b.Released) :
    b.handle ≠ .idle ∧ b.handle ≠ .active ∧ b.handle ≠ .closing ∧ b.handle ≠ .freed := by
  rcases h with h | h
  · rw [h]
    exact ⟨nofun, nofun, nofun, nofun⟩
  · rw [h]
    exact ⟨nofun, nofun, nofun, nofun⟩

theorem Released.callback (h : b.Released) : b.callback cb = none := by
  obtain ⟨task, handle⟩ := b
  rcases h with rfl | rfl
  · cases task <;> cases cb <;> rfl
  · cases task <;> cases cb <;> rfl

theorem Living.handle (h : b.Living) : b.handle ≠ .closing ∧ b.handle ≠ .freed := by
  cases h with
  | once | new_timer | timer | stopped | new_server | server | new_client => exact ⟨nofun, nofun⟩
  | client _ started =>
    rcases started with rfl | rfl
    · exact ⟨HandleState.noConfusion, HandleState.noConfusion⟩
    · exact ⟨HandleState.noConfusion, HandleState.noConfusion⟩

theorem run_server {server : TcpServerTask} (started : server.state_ = ⟨1⟩) :
    (server.run bind listen).1.state_ = ⟨1⟩ := by
  have error : server.state_.isError = false := by rw [started]; rfl
  have start : server.state_.isS0 = false := by rw [started]; rfl
  simp only [TcpServerTask.run, error, start, Bool.false_eq_true, if_false]
  cases server.new_connect_ with
  | some event => exact started
  | none =>
    cases server.new_data_ with
    | some event => exact started
    | none => exact started

theorem next_client {s client' : TcpClientTask} {asked requests : List Request}
    (started : 1 ≤ s.state_.internal_) (stepped : s.next.map (·, asked) = some (client', requests)) :
    1 ≤ client'.state_.internal_ := by
  have positive : 0 ≤ s.state_.internal_ := Int.le_trans Int.one_nonneg started
  simp only [TcpClientTask.next, Task.State.next, positive, if_true, Option.map_some] at stepped
  cases stepped
  exact Int.le_add_one started

theorem run_client {client client' : TcpClientTask} {requests : List Request}
    (started : 1 ≤ client.state_.internal_) (ran : client.run = some (client', requests)) :
    1 ≤ client'.state_.internal_ := by
  have start : client.state_.isS0 = false := by
    simp only [Task.State.isS0, beq_eq_false_iff_ne]
    omega
  simp only [TcpClientTask.run, start, Bool.false_eq_true, if_false] at ran
  split at ran
  · cases ran
    exact started
  · split at ran
    · cases ran
      exact started
    · split at ran
      · exact next_client started ran
      · cases ran
        exact started

theorem connect_client {client client' : TcpClientTask} {requests : List Request} {status : Int}
    (started : 1 ≤ client.state_.internal_) (answered : ¬ status < 0)
    (ran : client.on_connect status = some (client', requests)) : 1 ≤ client'.state_.internal_ := by
  simp only [TcpClientTask.on_connect, answered, if_false] at ran
  split at ran
  · exact next_client started ran
  · cases ran

theorem read_client {client client' : TcpClientTask} {requests : List Request} {nread : Int}
    {base : Bytes} (started : 1 ≤ client.state_.internal_) (answered : ¬ nread < 0)
    (ran : client.on_read nread base = some (client', requests)) : 1 ≤ client'.state_.internal_ := by
  simp only [TcpClientTask.on_read, answered, if_false] at ran
  split at ran
  · split at ran
    · refine next_client ?_ ran
      exact started
    · cases ran
      exact started
  · cases ran

theorem Living.run (h : b.Living) (ran : b.run bind listen err = some (b', state)) :
    state.isNotFinished = true ∧ b'.Living ∧ b.Keeps bind listen ∨
    state.isNotFinished = false ∧ b'.Released ∧ b.Keeps bind listen ∨
    state.isNotFinished = false ∧ (b'.handle = .idle ∨ b'.handle = .active) ∧ ¬ b.Keeps bind listen := by
  cases h with
  | once =>
    cases ran
    exact .inr (.inl ⟨rfl, .inl rfl, trivial⟩)
  | @new_timer timer start waiting =>
    obtain ⟨state_, again, timeout_, duration⟩ := timer
    cases start
    cases waiting
    cases ran
    exact .inl ⟨rfl, .timer rfl fun _ => rfl, by simp [Body.Keeps]⟩
  | @timer timer started early =>
    obtain ⟨state_, again, timeout_, duration⟩ := timer
    cases started
    cases timeout_ with
    | false =>
      cases ran
      exact .inl ⟨rfl, .timer rfl fun _ => rfl, by simp [Body.Keeps]⟩
    | true =>
      have interval : TimerTask.millis duration ≠ 0 := fun zero => by cases early zero
      cases again with
      | true =>
        cases ran
        exact .inl ⟨rfl, .timer rfl fun _ => rfl, fun _ => .inl rfl⟩
      | false =>
        cases ran
        refine .inr (.inr ⟨rfl, .inr rfl, fun keeps => ?_⟩)
        rcases keeps rfl with again | zero
        · cases again
        · exact interval zero
  | @stopped timer started zero =>
    obtain ⟨state_, again, timeout_, duration⟩ := timer
    cases started
    cases timeout_ with
    | false =>
      cases ran
      exact .inl ⟨rfl, .stopped rfl zero, by simp [Body.Keeps]⟩
    | true =>
      cases again with
      | true =>
        cases ran
        exact .inl ⟨rfl, .stopped rfl zero, fun _ => .inl rfl⟩
      | false =>
        cases ran
        exact .inr (.inl ⟨rfl, .inr rfl, fun _ => .inr zero⟩)
  | @new_server server start =>
    have error : server.state_.isError = false := by rw [start]; rfl
    have zero : server.state_.isS0 = true := by rw [start]; rfl
    simp only [Body.run, TcpServerTask.run, error, zero, Bool.false_eq_true, if_false, if_true] at ran
    by_cases bound : bind = 0
    · by_cases listening : listen = 0
      · simp only [bound, listening, ne_eq, not_true_eq_false, if_false, and_self, if_true, start] at ran
        cases ran
        exact .inl ⟨rfl, .server rfl, fun _ => ⟨bound, listening⟩⟩
      · simp only [bound, listening, ne_eq, not_true_eq_false, not_false_eq_true, if_false, if_true, and_false] at ran
        cases ran
        exact .inr (.inr ⟨rfl, .inl rfl, fun keeps => listening (keeps zero).2⟩)
    · simp only [bound, ne_eq, not_false_eq_true, if_false, if_true, false_and] at ran
      cases ran
      exact .inr (.inr ⟨rfl, .inl rfl, fun keeps => bound (keeps zero).1⟩)
  | @server server started =>
    have start : server.state_.isS0 = false := by rw [started]; rfl
    have kept : (server.run bind listen).1.state_ = ⟨1⟩ := run_server started
    simp only [Body.run, start, Bool.false_eq_true, if_false, kept] at ran
    cases ran
    exact .inl ⟨rfl, .server kept, fun zero => by cases start.symm.trans zero⟩
  | @new_client client start =>
    obtain ⟨state_, need_send, response⟩ := client
    cases start
    cases ran
    refine .inl ⟨rfl, .client (Int.le_refl 1) ?_, trivial⟩
    change (if err = 0 then HandleState.active else .idle) = .idle ∨
      (if err = 0 then HandleState.active else .idle) = .active
    split
    · exact .inr rfl
    · exact .inl rfl
  | @client handle client started kind =>
    obtain ⟨⟨client', requests⟩, run, same⟩ := Option.map_eq_some_iff.mp ran
    have after := run_client started run
    have start : client.state_.isS0 = false := by
      simp only [Task.State.isS0, beq_eq_false_iff_ne]
      omega
    simp only [start, Bool.false_eq_true, if_false] at same
    cases same
    refine .inl ⟨?_, .client after kind, trivial⟩
    simp only [Task.State.isNotFinished, decide_eq_true_eq]
    omega

theorem Living.callback (h : b.Living) (called : b.callback cb = some b') :
    b'.Living ∧ cb.Keeps ∨ b'.handle = .closing ∧ ¬ cb.Keeps := by
  cases h with
  | once | new_timer | stopped | new_server | new_client => cases cb <;> cases called
  | @timer timer started early =>
    cases cb with
    | timer_cb =>
      cases called
      refine .inl ⟨?_, trivial⟩
      by_cases zero : TimerTask.millis timer.duration_ = 0
      · rw [if_pos zero]
        exact .stopped started zero
      · rw [if_neg zero]
        exact .timer started fun h => absurd h zero
    | _ => cases called
  | @server server started =>
    cases cb with
    | on_new_connection status client accepted =>
      cases called
      refine .inl ⟨.server ?_, trivial⟩
      simp only [TcpServerTask.on_new_connection]
      split
      · exact started
      · split
        · exact started
        · exact started
    | read_connection client nread base =>
      obtain ⟨id, -, rfl⟩ := Option.map_eq_some_iff.mp called
      refine .inl ⟨.server ?_, trivial⟩
      simp only [TcpServerTask.on_read]
      split
      · exact started
      · exact started
    | _ => cases called
  | @client handle client started kind =>
    rcases kind with rfl | rfl
    · cases cb <;> cases called
    · cases cb with
      | on_connect status =>
        simp only [Body.callback] at called
        split at called
        · obtain ⟨⟨client', requests⟩, ran, rfl⟩ := Option.map_eq_some_iff.mp called
          by_cases failed : status < 0
          · exact .inr ⟨if_pos failed, Int.not_le.mpr failed⟩
          · refine .inl ⟨.client (connect_client started failed ran) (.inr (if_neg failed)), ?_⟩
            exact Int.not_lt.mp failed
        · cases called
      | on_read nread base =>
        simp only [Body.callback] at called
        split at called
        · cases called
        · obtain ⟨⟨client', requests⟩, ran, rfl⟩ := Option.map_eq_some_iff.mp called
          by_cases failed : nread < 0
          · exact .inr ⟨if_pos failed, Int.not_le.mpr failed⟩
          · refine .inl ⟨.client (read_client started failed ran) (.inr (if_neg failed)), ?_⟩
            exact Int.not_lt.mp failed
      | _ => cases called

end Body

structure Sound (w : World) : Prop where
  once : w.loop.owned.Nodup
  living : ∀ t ∈ w.loop.owned, ∃ b, w.bodies t = some b ∧ b.Living
  gone : ∀ t b, w.bodies t = some b → t ∉ w.loop.owned → b.Released

variable {w w' : World} {e : Event} {t : TaskId} {b : Body} {loop : Loop TaskId}

@[simp] theorem put_loop : (w.put t b loop).loop = loop := rfl

@[simp] theorem put_self : (w.put t b loop).bodies t = some b := Function.update_self ..

theorem put_other {u : TaskId} (other : u ≠ t) : (w.put t b loop).bodies u = w.bodies u :=
  Function.update_of_ne other ..

theorem sound_init : Sound init := ⟨List.nodup_nil, nofun, nofun⟩

theorem Sound.safe (h : Sound w) : Safe w := by
  refine ⟨fun t b posted active => ?_, fun t b posted dropped => ?_, fun t b posted => ?_⟩
  · by_contra dropped
    exact (h.gone t b posted dropped).not_open.2.1 active
  · exact ⟨(h.gone t b posted dropped).not_open.1, (h.gone t b posted dropped).not_open.2.1⟩
  · by_cases held : t ∈ w.loop.owned
    · obtain ⟨b', posted', living⟩ := h.living t held
      obtain rfl := Option.some.inj (posted.symm.trans posted')
      exact living.handle
    · exact (h.gone t b posted held).not_open.2.2

theorem Sound.keep (h : Sound w) (once : loop.owned.Nodup) (held : t ∈ loop.owned)
    (others : ∀ u, u ≠ t → (u ∈ loop.owned ↔ u ∈ w.loop.owned)) (living : b.Living) :
    Sound (w.put t b loop) := by
  refine ⟨once, fun u owned => ?_, fun u c posted dropped => ?_⟩
  · by_cases same : u = t
    · subst same
      exact ⟨b, put_self, living⟩
    · obtain ⟨c, posted, living⟩ := h.living u ((others u same).mp owned)
      exact ⟨c, (put_other same).trans posted, living⟩
  · have same : u ≠ t := fun same => dropped (same ▸ held)
    exact h.gone u c ((put_other same).symm.trans posted)
      fun owned => dropped ((others u same).mpr owned)

theorem Sound.drop (h : Sound w) (once : loop.owned.Nodup) (dropped : t ∉ loop.owned)
    (others : ∀ u, u ≠ t → (u ∈ loop.owned ↔ u ∈ w.loop.owned)) (released : b.Released) :
    Sound (w.put t b loop) := by
  refine ⟨once, fun u owned => ?_, fun u c posted gone => ?_⟩
  · have same : u ≠ t := fun same => dropped (same ▸ owned)
    obtain ⟨c, posted, living⟩ := h.living u ((others u same).mp owned)
    exact ⟨c, (put_other same).trans posted, living⟩
  · by_cases same : u = t
    · subst same
      obtain rfl := Option.some.inj (put_self.symm.trans posted)
      exact released
    · exact h.gone u c ((put_other same).symm.trans posted)
        fun owned => gone ((others u same).mpr owned)

theorem Sound.PostTask (h : Sound w) (task : NewTask) (fresh : w.bodies t = none)
    (he : w.loop.step (.PostTask t) = some loop) : Sound (w.put t ⟨task.make, .unborn⟩ loop) := by
  have perm : (t :: w.loop.owned).Perm loop.owned := by
    simpa [Loop.Event.posted, Loop.ended, Loop.returned, Loop.Event.returned] using
      (Loop.step_cases he).owned_perm
  have absent : t ∉ w.loop.owned := by
    intro owned
    obtain ⟨b, posted, -⟩ := h.living t owned
    cases fresh.symm.trans posted
  refine h.keep (perm.nodup (List.nodup_cons.mpr ⟨absent, h.once⟩)) ?_ (fun u other => ?_) (living_make task)
  · exact perm.mem_iff.mp List.mem_cons_self
  · rw [← perm.mem_iff, List.mem_cons]
    exact or_iff_right other

theorem Sound.run {bind listen err : Int} {state : Task.State} {b' : Body} (h : Sound w)
    (body : w.bodies t = some b) (ran : b.run bind listen err = some (b', state))
    (he : w.loop.step (.ran t state) = some loop) :
    Sound (w.put t b' loop) ∧ b.Keeps bind listen ∨
    ¬ Safe (w.put t b' loop) ∧ ¬ b.Keeps bind listen := by
  have perm := (Loop.step_cases he).owned_perm
  have running : t ∈ w.loop.owned := Loop.owned_of_ran he
  obtain ⟨c, body', living⟩ := h.living t running
  obtain rfl := Option.some.inj (body.symm.trans body')
  cases finished : state.isNotFinished with
  | true =>
    have perm : w.loop.owned.Perm loop.owned := by
      simpa [Loop.Event.posted, Loop.ended, Loop.returned, Loop.Event.returned, finished] using perm
    rcases living.run ran with ⟨-, living, keeps⟩ | ⟨ended, -⟩ | ⟨ended, -⟩
    · refine .inl ⟨h.keep (perm.nodup h.once) (perm.mem_iff.mp running) (fun u _ => ?_) living, keeps⟩
      exact perm.mem_iff.symm
    · cases finished.symm.trans ended
    · cases finished.symm.trans ended
  | false =>
    have perm : w.loop.owned.Perm (loop.owned ++ [t]) := by
      simpa [Loop.Event.posted, Loop.ended, Loop.returned, Loop.Event.returned, finished] using perm
    have once : (t :: loop.owned).Nodup :=
      (perm.trans (List.perm_append_singleton ..)).nodup h.once
    have dropped : t ∉ loop.owned := (List.nodup_cons.mp once).1
    rcases living.run ran with ⟨going, -⟩ | ⟨-, released, keeps⟩ | ⟨-, left, breaks⟩
    · cases finished.symm.trans going
    · refine .inl ⟨h.drop (List.nodup_cons.mp once).2 dropped (fun u other => ?_) released, keeps⟩
      rw [perm.mem_iff, List.mem_append, List.mem_singleton]
      exact (or_iff_left other).symm
    · refine .inr ⟨fun safe => ?_, breaks⟩
      obtain ⟨idle, active⟩ := safe.released t b' put_self dropped
      exact left.elim idle active

theorem Sound.queue {e : Loop.Event TaskId} (h : Sound w) (he : w.loop.step e = some loop)
    (posts : e.posted = []) (runs : e.returned = []) : Sound { w with loop := loop } := by
  have perm : w.loop.owned.Perm loop.owned := by
    simpa [Loop.ended, Loop.returned, posts, runs] using (Loop.step_cases he).owned_perm
  refine ⟨perm.nodup h.once, fun t owned => h.living t (perm.mem_iff.mpr owned), fun t b posted dropped => ?_⟩
  exact h.gone t b posted fun owned => dropped (perm.mem_iff.mp owned)

theorem Sound.step (h : Sound w) (he : step w e = some w') :
    Sound w' ∧ w.Keeps e ∨ ¬ Safe w' ∧ ¬ w.Keeps e := by
  cases e with
  | PostTask t task =>
    simp only [Lifetime.step] at he
    split at he
    · cases he
    · next fresh =>
      obtain ⟨loop, posted, rfl⟩ := Option.map_eq_some_iff.mp he
      exact .inl ⟨h.PostTask task fresh posted, trivial⟩
  | loop e =>
    cases e with
    | PostTask _ | ran _ _ => cases he
    | _ =>
      obtain ⟨loop, stepped, rfl⟩ := Option.map_eq_some_iff.mp he
      exact .inl ⟨h.queue stepped rfl rfl, trivial⟩
  | run t bind listen err =>
    obtain ⟨b, body, he⟩ := Option.bind_eq_some_iff.mp he
    obtain ⟨⟨b', state⟩, ran, he⟩ := Option.bind_eq_some_iff.mp he
    obtain ⟨loop, returned, same⟩ := Option.bind_eq_some_iff.mp he
    cases same
    have keeps : w.Keeps (.run t bind listen err) ↔ b.Keeps bind listen := by
      refine ⟨fun keeps => keeps b body, fun keeps c body' => ?_⟩
      obtain rfl := Option.some.inj (body.symm.trans body')
      exact keeps
    rw [keeps]
    exact h.run body ran returned
  | callback t cb =>
    simp only [Lifetime.step] at he
    split at he
    · obtain ⟨b, body, he⟩ := Option.bind_eq_some_iff.mp he
      obtain ⟨b', called, same⟩ := Option.bind_eq_some_iff.mp he
      cases same
      have held : t ∈ w.loop.owned := by
        by_contra dropped
        rw [(h.gone t b body dropped).callback] at called
        cases called
      obtain ⟨c, body', living⟩ := h.living t held
      obtain rfl := Option.some.inj (body.symm.trans body')
      rcases living.callback called with ⟨living, keeps⟩ | ⟨closing, breaks⟩
      · exact .inl ⟨h.keep h.once held (fun _ _ => Iff.rfl) living, keeps⟩
      · refine .inr ⟨fun safe => ?_, breaks⟩
        exact (safe.members t b' put_self).1 closing
    · cases he

/-- A timer of five milliseconds that does not repeat runs, fires, and is run once more: its handle
is left running.  A client whose connection is refused gives its member to `on_close`. -/
theorem timer_outlived_and_client_freed :
    (∃ w, Trace.follow step init
      [.PostTask 0 (.TimerTask false 5000000), .loop (.Size 1), .loop (.Pop 0), .run 0 0 0 0,
        .loop (.Size 0), .loop (.Push 0), .callback 0 .timer_cb, .loop .uv_run,
        .loop (.Size 1), .loop (.Pop 0), .run 0 0 0 0] = some w ∧ ¬ Safe w) ∧
    ∃ w, Trace.follow step init
      [.PostTask 0 (.TcpClientTask []), .loop (.Size 1), .loop (.Pop 0), .run 0 0 0 0,
        .loop (.Size 0), .loop (.Push 0), .callback 0 (.on_connect (-111)), .callback 0 .on_close] =
          some w ∧ ¬ Safe w := by
  refine ⟨⟨_, rfl, fun safe => ?_⟩, _, rfl, fun safe => ?_⟩
  · exact nomatch safe.owned 0 _ rfl rfl
  · exact (safe.members 0 _ rfl).2 rfl

/-- In every state of a run the handles are kept, exactly when no timer that does not repeat is run
after its timeout (but for one started with zero milliseconds), binding and listening succeed, and
no connection of a client fails or ends. -/
theorem handles_kept_iff (events : List Event) :
    (∀ pre w, pre <+: events → Trace.follow step init pre = some w → Safe w) ↔
      ∀ pre e w w', pre ++ [e] <+: events → Trace.follow step init pre = some w →
        step w e = some w' → w.Keeps e := by
  constructor
  · intro safe
    have sound : ∀ pre w, pre <+: events → Trace.follow step init pre = some w → Sound w := by
      intro pre w inside reached
      refine Trace.follow_induction (P := fun pre w => pre <+: events → Sound w) ?_ ?_ reached inside
      · exact fun _ => sound_init
      · intro pre w e w' reached ih he inside
        rcases (ih ((List.prefix_append _ _).trans inside)).step he with ⟨sound, -⟩ | ⟨broken, -⟩
        · exact sound
        · exact absurd (safe _ w' inside (Trace.follow_snoc.mpr ⟨w, reached, he⟩)) broken
    intro pre e w w' inside reached he
    rcases (sound pre w ((List.prefix_append _ _).trans inside) reached).step he with ⟨-, keeps⟩ | ⟨broken, -⟩
    · exact keeps
    · exact absurd (safe _ w' inside (Trace.follow_snoc.mpr ⟨w, reached, he⟩)) broken
  · intro keeps pre w inside reached
    refine (Trace.follow_induction (P := fun pre w => pre <+: events → Sound w) ?_ ?_ reached inside).safe
    · exact fun _ => sound_init
    · intro pre w e w' reached ih he inside
      rcases (ih ((List.prefix_append _ _).trans inside)).step he with ⟨sound, -⟩ | ⟨-, breaks⟩
      · exact sound
      · exact absurd (keeps pre e w w' inside reached he) breaks

end Lifetime

end Mygo
