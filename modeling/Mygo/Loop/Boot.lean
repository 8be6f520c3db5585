import Mygo.Loop.Timer

/-! The loop of `Server::Run` with the tasks that are posted before its thread starts, and those that they post. -/

namespace Mygo

namespace Boot

/-- The closure of `Server::Run`, the server, the timer that the closure posts, and the client that the timer
posts. -/
inductive Job
  | boot
  | server
  | timer
  | client
  deriving DecidableEq

structure World where
  loop : Loop Job
  boot : Task.State
  server : Server.World
  timer : Timer.World
  client : Client.World
  count : Int

def duration : Nat := 2000 * MiliSec

def init : World where
  loop := { Loop.init with pending_tasks_ := (Channel.Push [] .boot).Push .server }
  boot := .S0
  server := Server.init
  timer := Timer.init true duration
  client := Client.init (bytes "hello world")
  count := 0

inductive Event
  | loop (e : Loop.Event Job)
  /-- The running task returns; the arguments are the results of `uv_tcp_bind`, `uv_listen` and
  `uv_tcp_connect`. -/
  | run (bind listen err : Int)
  | timer_cb
  | server (e : Server.Event)
  | client (e : Client.Event)

/-- The calls of the function of the timer, with what they post; `none` is an overflow. -/
def ticks : List TimerRequest → Int → Option (Int × List Job)
  | [], count => some (count, [])
  | .uv_timer_start _ _ :: requests, count => ticks requests count
  | .func_ :: requests, count =>
    if count + 1 < 2 ^ 31 then do
      let (count', posts) ← ticks requests (count + 1)
      some (count', (if count + 1 = 1 then [.client] else []) ++ posts)
    else none

def World.run (w : World) (bind listen err : Int) : Job → Option (World × Task.State × List Job)
  | .boot => do
    let (called, state) ← RunOnce.run w.boot
    some ({ w with boot := state }, state, if called then [.timer] else [])
  | .server => do
    let server ← Server.step w.server (.run bind listen)
    some ({ w with server := server }, server.task.state_, [])
  | .timer => do
    let (_, requests) ← w.timer.task.run
    let timer ← Timer.step w.timer .run
    let (count, posts) ← ticks requests w.count
    some ({ w with timer := timer, count := count }, timer.task.state_, posts)
  | .client => do
    let client ← Client.step w.client (.run err)
    if client.aborted then none else some ({ w with client := client }, client.task.state_, [])

def World.polls (w : World) : Bool :=
  match w.loop.control with
  | .Push [] => true
  | _ => false

def step (w : World) : Event → Option World
  | .loop (.PostTask _) => none
  | .loop (.ran _ _) => none
  | .loop e => (w.loop.step e).map fun loop => { w with loop := loop }
  | .run bind listen err =>
    match w.loop.control with
    | .run job => do
      let (w', state, posts) ← w.run bind listen err job
      let loop ← Trace.follow Loop.step w.loop (posts.map .PostTask ++ [.ran job state])
      some { w' with loop := loop }
    | _ => none
  | .timer_cb =>
    if w.polls then (Timer.step w.timer .timer_cb).map fun timer => { w with timer := timer } else none
  | .server (.run _ _) => none
  | .server e => if w.polls then (Server.step w.server e).map fun server => { w with server := server } else none
  | .client (.run _) => none
  | .client e =>
    if w.polls then do
      let client ← Client.step w.client e
      if client.aborted then none else some { w with client := client }
    else none

def World.posts (w : World) : Event → List Job
  | .run bind listen err =>
    match w.loop.control with
    | .run job => (w.run bind listen err job).elim [] fun r => r.2.2
    | _ => []
  | _ => []

def posted (events : List Event) : List Job := Trace.emitted step World.posts init events

def fired : Bool × Nat → Event → Bool × Nat
  | (now, n), .timer_cb => (true, if now then n else n + 1)
  | (_, n), .loop .uv_run => (false, n)
  | s, _ => s

/-- The calls of `uv_run` in which the timer has called back. -/
def firings (events : List Event) : Nat := (events.foldl fired (false, 0)).2

/-- What holds after every run: no task is in the loop twice, the closure is there until it has run and the timer
from then on, every call of `uv_run` with a timeout has been counted once or will be in the next round, and the
first count has posted the client, which is there until its connection has ended.  Nothing else is posted. -/
structure Correct (events : List Event) (w : World) : Prop where
  once : w.loop.owned.Nodup
  posts : posted events = (if w.boot = .Finished then [.timer] else []) ++ if 1 ≤ w.count then [.client] else []
  boot : .boot ∈ w.loop.owned ↔ w.boot = .S0
  timer : .timer ∈ w.loop.owned ↔ w.boot = .Finished
  server : .server ∈ w.loop.owned ↔ w.server.task.state_.isNotFinished = true
  count : w.count + (if w.timer.task.timeout_ then 1 else 0) = firings events
  client : .client ∈ w.loop.owned ∨ 1 ≤ w.count ∧ w.client.task.state_ = .Error ∨
    w.count = 0 ∧ w.client = Client.init (bytes "hello world")
  posted : .client ∈ w.loop.owned → 1 ≤ w.count
  calls : w.client.calls.length ≤ 1
  responses : ∀ r ∈ w.client.calls, r ∈ w.client.received

def Due (l : Loop Job) : Prop :=
  match l.control with
  | .Size | .Pop => .timer ∈ l.pending_tasks_
  | .run job => job = .timer ∨ .timer ∈ l.pending_tasks_
  | .Push rest => rest = []

/-! What a step does to the server and to the client. -/

section Cases

variable {w w' : World}

theorem server_cases {e : Server.Event} (stepped : step w (.server e) = some w') :
    ∃ server, (∀ bind listen, e ≠ .run bind listen) ∧ Server.step w.server e = some server ∧
      w' = { w with server := server } := by
  cases e with
  | run => cases stepped
  | _ =>
    simp only [step] at stepped
    split at stepped
    · obtain ⟨server, moved, rfl⟩ := Option.map_eq_some_iff.mp stepped
      exact ⟨server, (fun _ _ same => by cases same), moved, rfl⟩
    · cases stepped

theorem client_cases {e : Client.Event} (stepped : step w (.client e) = some w') :
    ∃ client, (∀ err, e ≠ .run err) ∧ Client.step w.client e = some client ∧ client.aborted = false ∧
      w' = { w with client := client } := by
  cases e with
  | run => cases stepped
  | _ =>
    simp only [step] at stepped
    split at stepped
    · obtain ⟨client, moved, alive⟩ := Option.bind_eq_some_iff.mp stepped
      split at alive
      · cases alive
      · next running =>
        cases alive
        exact ⟨client, (fun _ same => by cases same), moved, by simpa using running, rfl⟩
    · cases stepped

theorem run_cases {bind listen err : Int} (stepped : step w (.run bind listen err) = some w') :
    w'.server = w.server ∧ w'.client = w.client ∨
    Server.step w.server (.run bind listen) = some w'.server ∧ w'.client = w.client ∨
    w'.server = w.server ∧ Client.step w.client (.run err) = some w'.client ∧ w'.client.aborted = false := by
  simp only [step] at stepped
  split at stepped
  · next job at_ =>
    obtain ⟨⟨w₁, state, posts⟩, ran, stepped⟩ := Option.bind_eq_some_iff.mp stepped
    obtain ⟨l, -, same⟩ := Option.bind_eq_some_iff.mp stepped
    cases same
    cases job with
    | boot =>
      obtain ⟨called, -, same⟩ := Option.bind_eq_some_iff.mp ran
      cases same
      exact .inl ⟨rfl, rfl⟩
    | server =>
      cases ran
      exact .inr (.inl ⟨rfl, rfl⟩)
    | timer =>
      obtain ⟨asked, -, ran⟩ := Option.bind_eq_some_iff.mp ran
      obtain ⟨timer, -, ran⟩ := Option.bind_eq_some_iff.mp ran
      obtain ⟨counted, -, same⟩ := Option.bind_eq_some_iff.mp ran
      cases same
      exact .inl ⟨rfl, rfl⟩
    | client =>
      obtain ⟨client, called, ran⟩ := Option.bind_eq_some_iff.mp ran
      split at ran
      · cases ran
      · next alive =>
        cases ran
        exact .inr (.inr ⟨rfl, called, by simpa using alive⟩)
  · cases stepped

end Cases

/-! The client, whatever the network does. -/

structure Single (c : Client.World) : Prop where
  known : c.task.state_ = .Error ∨ 0 ≤ c.task.state_.internal_
  calls : c.calls.length ≤ 1
  responses : ∀ r ∈ c.calls, r ∈ c.received
  open_ : 0 ≤ c.task.state_.internal_ → c.task.state_.internal_ ≤ 3 → c.calls = []
  ready : c.task.state_.internal_ = 3 → c.task.response_ ∈ c.received

theorem single_init (data : Bytes) : Single (Client.init data) :=
  ⟨.inr (Int.le_refl 0), Nat.zero_le _, List.forall_mem_nil _, fun _ _ => rfl, nofun⟩

inductive Move (c c' : Client.World) : Prop
  | idle : c'.task = c.task → c'.calls = c.calls → c'.received = c.received → Move c c'
  | start : c.task.state_ = ⟨0⟩ → c'.task.state_ = ⟨1⟩ → c'.calls = c.calls → c'.received = c.received → Move c c'
  | connect : c.task.state_ = ⟨1⟩ → c'.task.state_ = ⟨2⟩ → c'.calls = c.calls → c'.received = c.received → Move c c'
  | data (r : Bytes) : c.task.state_ = ⟨2⟩ → c'.task.state_ = ⟨3⟩ → c'.task.response_ = r → c'.calls = c.calls →
      c'.received = c.received ++ [r] → Move c c'
  | deliver : c.task.state_ = ⟨3⟩ → c'.task.state_ = ⟨4⟩ → c'.calls = c.calls ++ [c.task.response_] →
      c'.received = c.received → Move c c'
  | lost : c.task.state_ = ⟨2⟩ → c'.task.state_ = .Error → c'.calls = c.calls → c'.received = c.received → Move c c'

theorem state_eq {s : Task.State} {n : Int} (h : (s.internal_ == n) = true) : s = ⟨n⟩ := by
  obtain ⟨i⟩ := s
  exact congrArg Task.State.mk (eq_of_beq h)

variable {c c' : Client.World}

theorem client_move {e : Client.Event} (h : Client.step c e = some c') (alive : c'.aborted = false) : Move c c' := by
  cases e with
  | run err =>
    simp only [Client.step, TcpClientTask.run] at h
    split at h
    · cases h
    · split at h
      · next start =>
        have state := state_eq start
        cases h
        simp only [TcpClientTask.next, Task.State.next, state]
        exact .start state rfl (List.append_nil _) rfl
      · split at h
        · cases h
          exact .idle rfl (List.append_nil _) rfl
        · split at h
          · cases h
            exact .idle rfl (List.append_nil _) rfl
          · split at h
            · next ready =>
              have state := state_eq ready
              cases h
              simp only [TcpClientTask.next, Task.State.next, state]
              exact .deliver state rfl rfl rfl
            · cases h
              exact .idle rfl (List.append_nil _) rfl
  | on_connect status =>
    simp only [Client.step, TcpClientTask.on_connect] at h
    split at h
    · cases h
    · split at h
      · cases h
        exact .idle rfl (List.append_nil _) rfl
      · split at h
        · next open_ =>
          have state := state_eq open_
          cases h
          simp only [TcpClientTask.next, Task.State.next, state]
          exact .connect state rfl (List.append_nil _) rfl
        · cases h
          cases alive
  | on_read nread base =>
    simp only [Client.step, TcpClientTask.on_read] at h
    split at h
    · cases h
    · by_cases reads : c.task.state_.isS2 = true
      · have state := state_eq reads
        simp only [reads, if_true] at h
        split at h
        · cases h
          simp only [TcpClientTask.next, Task.State.next, state]
          exact .data _ state rfl rfl (List.append_nil _) rfl
        · split at h
          · cases h
            exact .lost state rfl (List.append_nil _) rfl
          · cases h
            exact .idle rfl (List.append_nil _) rfl
      · simp only [reads, Bool.false_eq_true, if_false] at h
        split at h
        · cases h
          cases alive
        · split at h
          · cases h
            cases alive
          · cases h
            cases alive

theorem Single.move (h : Single c) (move : Move c c') : Single c' := by
  cases move with
  | idle task calls received =>
    refine ⟨task ▸ h.known, calls ▸ h.calls, calls ▸ received ▸ h.responses, task ▸ calls ▸ h.open_, ?_⟩
    exact task ▸ received ▸ h.ready
  | start state state' calls received | connect state state' calls received | lost state state' calls received =>
    have none : c.calls = [] := h.open_ (by simp [state]) (by simp [state])
    rw [none] at calls
    refine ⟨by simp [state'], by simp [calls], by simp [calls], fun _ _ => calls, fun ready => ?_⟩
    rw [state'] at ready
    exact absurd ready (by decide)
  | data r state state' response calls received =>
    have none : c.calls = [] := h.open_ (by simp [state]) (by simp [state])
    rw [none] at calls
    refine ⟨by simp [state'], by simp [calls], by simp [calls], fun _ _ => calls, fun _ => ?_⟩
    rw [received, response]
    exact List.mem_append_right _ List.mem_cons_self
  | deliver state state' calls received =>
    have none : c.calls = [] := h.open_ (by simp [state]) (by simp [state])
    have ready := h.ready (by rw [state])
    rw [none] at calls
    refine ⟨by simp [state'], by simp [calls], by simpa [calls, received] using ready, fun _ small => ?_,
      fun three => ?_⟩
    · rw [state'] at small
      exact absurd small (by decide)
    · rw [state'] at three
      exact absurd three (by decide)

theorem Move.error (move : Move c c') (ended : c.task.state_ = .Error) : c'.task.state_ = .Error := by
  cases move with
  | idle task => rw [task, ended]
  | start state | connect state | data _ state | deliver state | lost state =>
    rw [ended] at state
    cases state

/-! The loop and its tasks. -/

theorem follow_ran (q nf : List Job) (job : Job) (posts : List Job) (state : Task.State) :
    Trace.follow Loop.step ⟨q, nf, .run job⟩ (posts.map .PostTask ++ [.ran job state]) =
      some ⟨q ++ posts, if state.isNotFinished then nf ++ [job] else nf, .Size⟩ := by
  induction posts generalizing q with
  | nil => cases same : state.isNotFinished <;> simp [Trace.follow, Loop.step, same]
  | cons post posts ih =>
    have rest := ih (q ++ [post])
    rw [List.append_assoc] at rest
    exact rest

structure Here (owned : List Job) (w : World) : Prop where
  once : owned.Nodup
  boot : (w.boot = .S0 ∧ .boot ∈ owned ∧ .timer ∉ owned ∧ w.timer = Timer.init true duration) ∨
    (w.boot = .Finished ∧ .boot ∉ owned ∧ .timer ∈ owned)
  server : .server ∈ owned ↔ w.server.task.state_.isNotFinished = true
  client : (.client ∈ owned ∧ 1 ≤ w.count) ∨ (.client ∉ owned ∧ 1 ≤ w.count ∧ w.client.task.state_ = .Error) ∨
    (.client ∉ owned ∧ w.count = 0 ∧ w.client = Client.init (bytes "hello world"))

theorem Here.perm {owned owned' : List Job} {w : World} (h : Here owned w) (same : owned.Perm owned') :
    Here owned' w where
  once := same.nodup_iff.mp h.once
  boot := by simpa only [same.mem_iff] using h.boot
  server := by simpa only [same.mem_iff] using h.server
  client := by simpa only [same.mem_iff] using h.client

structure Inv (events : List Event) (w : World) : Prop where
  here : Here w.loop.owned w
  again : w.timer.task.repeat_ = true
  timer : (w.timer.task.state_ = .S0 ∧ w.timer.task.timeout_ = false ∧ w.timer.starts = []) ∨
    w.timer.task.state_ = ⟨1⟩
  due : w.timer.task.timeout_ = true → Due w.loop
  now : (events.foldl fired (false, 0)).1 = (w.polls && w.timer.task.timeout_)
  count : w.count + (if w.timer.task.timeout_ then 1 else 0) = firings events
  single : Single w.client

structure Posted (events : List Event) (w : World) : Prop where
  early : w.boot ≠ .Finished → w.count = 0
  posts : posted events = (if w.boot = .Finished then [.timer] else []) ++ if 1 ≤ w.count then [.client] else []

theorem Inv.correct {events : List Event} {w : World} (h : Inv events w) (p : Posted events w) :
    Correct events w where
  once := h.here.once
  posts := p.posts
  boot := by
    rcases h.here.boot with ⟨state, there, -⟩ | ⟨state, gone, -⟩
    · exact iff_of_true there state
    · exact iff_of_false gone (by rw [state]; decide)
  timer := by
    rcases h.here.boot with ⟨state, -, gone, -⟩ | ⟨state, -, there⟩
    · exact iff_of_false gone (by rw [state]; decide)
    · exact iff_of_true there state
  server := h.here.server
  count := h.count
  client := by
    rcases h.here.client with ⟨there, -⟩ | ⟨-, ended⟩ | ⟨-, fresh⟩
    · exact .inl there
    · exact .inr (.inl ended)
    · exact .inr (.inr fresh)
  posted there := by
    rcases h.here.client with ⟨-, counted⟩ | ⟨gone, -⟩ | ⟨gone, -⟩
    · exact counted
    · exact absurd there gone
    · exact absurd there gone
  calls := h.single.calls
  responses := h.single.responses

theorem inv_init : Inv [] init where
  here := ⟨by decide, .inl ⟨rfl, by decide, by decide, rfl⟩, iff_of_true (by decide) rfl,
    .inr (.inr ⟨by decide, rfl, rfl⟩)⟩
  again := rfl
  timer := .inl ⟨rfl, rfl, rfl⟩
  due := nofun
  now := rfl
  count := rfl
  single := single_init _

variable {events : List Event} {w w' : World}

theorem Here.loop {owned : List Job} (h : Here owned w) (l : Loop Job) : Here owned { w with loop := l } :=
  ⟨h.once, h.boot, h.server, h.client⟩

theorem foldl_snoc (e : Event) :
    (events ++ [e]).foldl fired (false, 0) = fired (events.foldl fired (false, 0)) e := by
  rw [List.foldl_append]
  rfl

theorem firings_loop (e : Loop.Event Job) : firings (events ++ [.loop e]) = firings events := by
  rw [firings, foldl_snoc]
  cases e <;> rfl

theorem now_loop {e : Loop.Event Job} (other : e ≠ .uv_run) :
    (fired (events.foldl fired (false, 0)) (.loop e)).1 = (events.foldl fired (false, 0)).1 := by
  cases e with
  | uv_run => exact absurd rfl other
  | _ => rfl

theorem Inv.timeout_there (h : Inv events w) (timeout : w.timer.task.timeout_ = true) : .timer ∈ w.loop.owned := by
  rcases h.here.boot with ⟨-, -, -, fresh⟩ | ⟨-, -, there⟩
  · rw [fresh] at timeout
    cases timeout
  · exact there

theorem Inv.loop (h : Inv events w) {e : Loop.Event Job} {l : Loop Job} (stepped : w.loop.step e = some l)
    (posts : e.posted = []) (returns : e.returned = []) : Inv (events ++ [.loop e]) { w with loop := l } := by
  have step := Loop.step_cases stepped
  have same : w.loop.owned.Perm l.owned := by
    have owned := step.owned_perm
    rwa [posts, List.nil_append, show Loop.ended [e] = [] by simp [Loop.ended, Loop.returned, returns],
      List.append_nil] at owned
  have there := h.timeout_there
  obtain ⟨here, again, timer, due, now, count, single⟩ := h
  obtain ⟨loop, boot, server, ⟨task, starts⟩, client, n⟩ := w
  refine ⟨(here.perm same).loop l, again, timer, fun timeout => ?_, ?_, (firings_loop e).symm ▸ count, single⟩
  · have due := due timeout
    have there := there timeout
    cases step with
    | drained => cases due
    | Size => exact due
    | Pop =>
      rcases List.mem_cons.mp due with first | later
      · exact .inl first.symm
      · exact .inr later
    | Push => cases due
    | uv_run => exact (congrArg _ (List.append_nil _)).mp there
    | PostTask => cases posts
    | keep | drop => cases returns
  · rw [foldl_snoc]
    cases step with
    | uv_run => rfl
    | drained =>
      have idle : task.timeout_ = false := by
        by_contra timeout
        cases due (by simpa using timeout)
      rw [now_loop (e := .Size 0) (by simp), now]
      simp [idle]
    | Push =>
      have idle : task.timeout_ = false := by
        by_contra timeout
        cases due (by simpa using timeout)
      rw [now_loop (e := .Push _) (by simp), now]
      simp [idle]
    | Size =>
      rw [now_loop (e := .Size _) (by simp), now]
      rfl
    | Pop =>
      rw [now_loop (e := .Pop _) (by simp), now]
      rfl
    | PostTask => cases posts
    | keep | drop => cases returns

theorem Inv.timer_cb (h : Inv events w) (polls : w.polls = true) {timer : Timer.World}
    (stepped : Timer.step w.timer .timer_cb = some timer) : Inv (events ++ [.timer_cb]) { w with timer := timer } := by
  have nonempty : w.timer.starts ≠ [] := by
    intro none
    rw [Timer.step, if_pos none] at stepped
    cases stepped
  rw [Timer.step, if_neg nonempty] at stepped
  cases stepped
  have started : w.timer.task.state_ = ⟨1⟩ := by
    rcases h.timer with ⟨-, -, none⟩ | started
    · exact absurd none nonempty
    · exact started
  obtain ⟨here, again, timer, due, now, count, single⟩ := h
  refine ⟨⟨here.once, ?_, here.server, here.client⟩, again, .inr started, fun _ => ?_, ?_, ?_, single⟩
  · rcases here.boot with ⟨-, -, -, fresh⟩ | running
    · exact absurd (congrArg Timer.World.starts fresh) nonempty
    · exact .inr running
  · unfold World.polls at polls
    unfold Due
    split at polls
    · next rest => rw [rest]
    · cases polls
  · rw [foldl_snoc]
    change true = (w.polls && true)
    rw [polls]
    rfl
  · rw [polls, Bool.true_and] at now
    rw [firings, foldl_snoc]
    rw [firings] at count
    generalize events.foldl fired (false, 0) = s at now count ⊢
    obtain ⟨flag, total⟩ := s
    obtain rfl : flag = w.timer.task.timeout_ := now
    simp only [fired] at count ⊢
    cases timeout : w.timer.task.timeout_ with
    | true => simpa [timeout] using count
    | false =>
      rw [timeout] at count
      simp only [Bool.false_eq_true, if_false, if_true] at count ⊢
      omega

theorem Inv.server (h : Inv events w) {e : Server.Event} (other : ∀ b l, e ≠ .run b l) {server : Server.World}
    (stepped : Server.step w.server e = some server) : Inv (events ++ [.server e]) { w with server := server } := by
  have state : server.task.state_ = w.server.task.state_ := by
    cases Server.step_cases stepped with
    | starting | idle | connect | data => exact absurd rfl (other _ _)
    | accept => rfl
    | chunk => rfl
    | refuse | close | empty => rfl
  obtain ⟨here, again, timer, due, now, count, single⟩ := h
  refine ⟨⟨here.once, here.boot, ?_, here.client⟩, again, timer, due, ?_, ?_, single⟩
  · rw [state]
    exact here.server
  · rw [foldl_snoc]
    exact now
  · rw [firings, foldl_snoc]
    exact count

theorem Inv.client (h : Inv events w) {e : Client.Event} (other : ∀ err, e ≠ .run err) {client : Client.World}
    (stepped : Client.step w.client e = some client) (alive : client.aborted = false) :
    Inv (events ++ [.client e]) { w with client := client } := by
  have move := client_move stepped alive
  obtain ⟨here, again, timer, due, now, count, single⟩ := h
  refine ⟨⟨here.once, here.boot, here.server, ?_⟩, again, timer, due, ?_, ?_, single.move move⟩
  · rcases here.client with there | ⟨gone, counted, ended⟩ | ⟨-, -, fresh⟩
    · exact .inl there
    · exact .inr (.inl ⟨gone, counted, move.error ended⟩)
    · rw [fresh] at stepped
      cases e with
      | run err => exact absurd rfl (other err)
      | on_connect | on_read => cases stepped
  · rw [foldl_snoc]
    exact now
  · rw [firings, foldl_snoc]
    exact count

inductive Ran (w : World) : Job → World → Task.State → List Job → Prop
  | boot : w.boot = .S0 → Ran w .boot { w with boot := .Finished } .Finished [.timer]
  | server : Server.step w.server (.run b l) = some server →
    Ran w .server { w with server := server } server.task.state_ []
  | quiet : w.timer.task.timeout_ = false → timer.task.state_ = ⟨1⟩ → timer.task.repeat_ = true →
    timer.task.timeout_ = false → Ran w .timer { w with timer := timer } ⟨1⟩ []
  | fire : w.timer.task.timeout_ = true → timer.task.state_ = ⟨1⟩ → timer.task.repeat_ = true →
    timer.task.timeout_ = false →
    Ran w .timer { w with timer := timer, count := w.count + 1 } ⟨1⟩ (if w.count + 1 = 1 then [.client] else [])
  | client : Move w.client client → Ran w .client { w with client := client } client.task.state_ []

theorem Inv.run_cases (h : Inv events w) {job : Job} (there : job ∈ w.loop.owned) {state : Task.State}
    {posts : List Job} {bind listen err : Int} (ran : w.run bind listen err job = some (w', state, posts)) :
    Ran w job w' state posts := by
  cases job with
  | boot =>
    rcases h.here.boot with ⟨start, -⟩ | ⟨-, gone, -⟩
    · rw [World.run, start] at ran
      cases ran
      exact .boot start
    · exact absurd there gone
  | server =>
    cases ran
    exact .server rfl
  | timer =>
    obtain ⟨⟨task, requests⟩, asked, ran⟩ := Option.bind_eq_some_iff.mp ran
    obtain ⟨timer, stepped, ran⟩ := Option.bind_eq_some_iff.mp ran
    obtain ⟨⟨count, posted⟩, counted, same⟩ := Option.bind_eq_some_iff.mp ran
    cases same
    rw [Timer.step, asked] at stepped
    cases stepped
    rcases h.timer with ⟨start, idle, -⟩ | started
    · rw [TimerTask.run, start] at asked
      cases asked
      cases counted
      exact .quiet idle rfl h.again idle
    · rw [TimerTask.run, started] at asked
      cases timeout : w.timer.task.timeout_ with
      | false =>
        simp [Task.State.isS0, Task.State.isFinished, timeout] at asked
        obtain ⟨rfl, rfl⟩ := asked
        cases counted
        rw [started]
        exact .quiet timeout started h.again timeout
      | true =>
        simp [Task.State.isS0, Task.State.isFinished, timeout, h.again] at asked
        obtain ⟨rfl, rfl⟩ := asked
        simp only [ticks] at counted
        split at counted
        · cases counted
          rw [List.append_nil]
          exact .fire timeout rfl rfl rfl
        · cases counted
  | client =>
    obtain ⟨client, stepped, ran⟩ := Option.bind_eq_some_iff.mp ran
    split at ran
    · cases ran
    · next alive =>
      cases ran
      exact .client (client_move stepped (by simpa using alive))

theorem Here.ran {job : Job} {rest posts : List Job} {state : Task.State} (h : Here (job :: rest) w)
    (single : Single w.client) (ran : Ran w job w' state posts) :
    Here ((if state.isNotFinished then [job] else []) ++ posts ++ rest) w' := by
  obtain ⟨fresh, once⟩ := List.nodup_cons.mp h.once
  have boot := h.boot
  have server := h.server
  have client := h.client
  cases ran with
  | boot start =>
    have apart : .timer ∉ rest := by
      rcases boot with ⟨-, -, gone, -⟩ | ⟨-, gone, -⟩
      · exact fun there => gone (List.mem_cons_of_mem _ there)
      · exact absurd List.mem_cons_self gone
    change Here (.timer :: rest) _
    exact ⟨List.nodup_cons.mpr ⟨apart, once⟩, .inr ⟨rfl, by simpa using fresh, List.mem_cons_self⟩,
      by simpa using server, by simpa using client⟩
  | @server b l server' =>
    cases keep : server'.task.state_.isNotFinished with
    | true => exact ⟨h.once, boot, by simp [keep], client⟩
    | false => exact ⟨once, by simpa using boot, by simp [keep, fresh], by simpa using client⟩
  | quiet idle =>
    rcases boot with ⟨-, -, gone, -⟩ | running
    · exact absurd List.mem_cons_self gone
    · exact ⟨h.once, .inr running, server, client⟩
  | fire timeout =>
    rcases boot with ⟨-, -, gone, -⟩ | running
    · exact absurd List.mem_cons_self gone
    rw [if_pos (show Task.State.isNotFinished ⟨1⟩ = true from by decide)]
    rcases client with ⟨there, counted⟩ | ⟨gone, counted, ended⟩ | ⟨gone, none, -⟩
    · rw [if_neg (by omega)]
      exact ⟨h.once, .inr running, server, .inl ⟨there, by simp only; omega⟩⟩
    · rw [if_neg (by omega)]
      exact ⟨h.once, .inr running, server, .inr (.inl ⟨gone, by simp only; omega, ended⟩)⟩
    · rw [if_pos (by omega)]
      change Here (.timer :: .client :: rest) _
      have posted : (Job.timer :: .client :: rest).Perm (.client :: .timer :: rest) := .swap _ _ _
      refine Here.perm ⟨List.nodup_cons.mpr ⟨gone, h.once⟩, .inr ?_, ?_, .inl ⟨List.mem_cons_self, ?_⟩⟩ posted.symm
      · simpa using running
      · simpa using server
      · simp only
        omega
  | client move =>
    have counted : 1 ≤ w.count := by
      rcases client with ⟨-, counted⟩ | ⟨gone, -⟩ | ⟨gone, -⟩
      · exact counted
      · exact absurd List.mem_cons_self gone
      · exact absurd List.mem_cons_self gone
    rcases (single.move move).known with ended | going
    · rw [ended]
      change Here rest _
      exact ⟨once, by simpa using boot, by simpa using server, .inr (.inl ⟨fresh, counted, ended⟩)⟩
    · rw [if_pos (by simpa [Task.State.isNotFinished] using going)]
      exact ⟨h.once, boot, server, .inl ⟨List.mem_cons_self, counted⟩⟩

theorem Inv.ran {job : Job} {q nf posts : List Job} {state : Task.State} {bind listen err : Int}
    (h : Inv events w) (at_ : w.loop = ⟨q, nf, .run job⟩) (ran : Ran w job w' state posts) :
    Inv (events ++ [.run bind listen err])
      { w' with loop := ⟨q ++ posts, if state.isNotFinished then nf ++ [job] else nf, .Size⟩ } := by
  have mine : w.loop.owned.Perm (job :: (q ++ nf)) := by
    rw [at_]
    exact List.perm_append_comm
  have left := (h.here.perm mine).ran h.single ran
  have same : ((if state.isNotFinished then [job] else []) ++ posts ++ (q ++ nf)).Perm
      (Loop.owned ⟨q ++ posts, if state.isNotFinished then nf ++ [job] else nf, .Size⟩) := by
    rw [List.perm_iff_count]
    intro t
    cases keep : state.isNotFinished <;> simp [Loop.owned, List.count_cons] <;> omega
  have now := h.now
  rw [World.polls, at_] at now
  have due : w.timer.task.timeout_ = true → job = .timer ∨ .timer ∈ q := by
    intro timeout
    have due := h.due timeout
    rwa [Due, at_] at due
  obtain ⟨-, again, timer, -, -, count, single⟩ := h
  have moved : (events ++ [Event.run bind listen err]).foldl fired (false, 0) = events.foldl fired (false, 0) :=
    foldl_snoc _
  refine ⟨(left.perm same).loop _, ?_, ?_, ?_, moved ▸ now, ?_, ?_⟩
  · cases ran with
    | quiet _ _ again' | fire _ _ again' => exact again'
    | _ => exact again
  · cases ran with
    | quiet _ state | fire _ state => exact .inr state
    | _ => exact timer
  · intro timeout
    cases ran with
    | quiet _ _ _ idle | fire _ _ _ idle =>
      rw [idle] at timeout
      cases timeout
    | boot => exact List.mem_append_right _ List.mem_cons_self
    | server | client =>
      rcases due timeout with this | later
      · cases this
      · exact List.mem_append_left _ later
  · rw [firings, moved]
    rw [firings] at count
    cases ran with
    | quiet idle _ _ idle' =>
      simp only [idle, idle', Bool.false_eq_true, if_false] at count ⊢
      exact count
    | fire timeout _ _ idle =>
      simp only [timeout, idle, Bool.false_eq_true, if_false, if_true, Int.add_zero] at count ⊢
      exact count
    | _ => exact count
  · cases ran with
    | client move => exact single.move move
    | _ => exact single

theorem Inv.step (h : Inv events w) {e : Event} (stepped : step w e = some w') : Inv (events ++ [e]) w' := by
  cases e with
  | loop e =>
    cases e with
    | PostTask | ran => cases stepped
    | _ =>
      obtain ⟨l, moved, rfl⟩ := Option.map_eq_some_iff.mp stepped
      exact h.loop moved rfl rfl
  | run bind listen err =>
    simp only [Boot.step] at stepped
    split at stepped
    · next job at_ =>
      obtain ⟨⟨w₁, state, posts⟩, ran, stepped⟩ := Option.bind_eq_some_iff.mp stepped
      obtain ⟨l, followed, same⟩ := Option.bind_eq_some_iff.mp stepped
      cases same
      have at_ : w.loop = ⟨w.loop.pending_tasks_, w.loop.not_finished, .run job⟩ := by rw [← at_]
      have there : job ∈ w.loop.owned := by
        rw [at_]
        exact List.mem_append_right _ List.mem_cons_self
      rw [at_, follow_ran] at followed
      cases followed
      exact h.ran at_ (h.run_cases there ran)
    · cases stepped
  | timer_cb =>
    simp only [Boot.step] at stepped
    split at stepped
    · next polls =>
      obtain ⟨timer, moved, rfl⟩ := Option.map_eq_some_iff.mp stepped
      exact h.timer_cb polls moved
    · cases stepped
  | server e =>
    obtain ⟨server, other, moved, rfl⟩ := server_cases stepped
    exact h.server other moved
  | client e =>
    obtain ⟨client, other, moved, alive, rfl⟩ := client_cases stepped
    exact h.client other moved alive

theorem Posted.ran {job : Job} {posts : List Job} {state : Task.State} (p : Posted events w)
    (h : Here w.loop.owned w) (there : job ∈ w.loop.owned) (ran : Ran w job w' state posts) {events' : List Event}
    (more : posted events' = posted events ++ posts) : Posted events' w' := by
  cases ran with
  | boot start =>
    have none : w.count = 0 := p.early (by rw [start]; decide)
    refine ⟨fun other => absurd rfl other, ?_⟩
    rw [more, p.posts]
    simp [start, none, Task.State.S0, Task.State.Finished]
  | server | quiet | client => exact ⟨p.early, by rw [more, List.append_nil, p.posts]⟩
  | fire timeout =>
    have running : w.boot = .Finished := by
      rcases h.boot with ⟨-, -, gone, -⟩ | ⟨finished, -⟩
      · exact absurd there gone
      · exact finished
    refine ⟨fun other => absurd running other, ?_⟩
    rw [more, p.posts]
    simp only [if_pos running]
    have whole : w.count = 0 ∨ 1 ≤ w.count := by
      rcases h.client with ⟨-, counted⟩ | ⟨-, counted, -⟩ | ⟨-, none, -⟩ <;> omega
    rcases whole with none | counted
    · simp [none]
    · rw [if_pos counted, if_neg (by omega), if_pos (by omega), List.append_nil]

theorem Posted.quiet (p : Posted events w) (boot : w'.boot = w.boot) (count : w'.count = w.count)
    {events' : List Event} (same : posted events' = posted events ++ []) : Posted events' w' :=
  ⟨by rw [boot, count]; exact p.early, by rw [boot, count, same, List.append_nil]; exact p.posts⟩

theorem Posted.step (p : Posted events w) (h : Inv events w) (reached : Trace.follow step init events = some w)
    {e : Event} (stepped : step w e = some w') : Posted (events ++ [e]) w' := by
  have more : posted (events ++ [e]) = posted events ++ w.posts e := Trace.emitted_snoc reached e
  cases e with
  | loop e =>
    cases e with
    | PostTask | ran => cases stepped
    | _ =>
      obtain ⟨l, -, rfl⟩ := Option.map_eq_some_iff.mp stepped
      exact p.quiet (by rfl) (by rfl) more
  | run bind listen err =>
    simp only [Boot.step] at stepped
    split at stepped
    · next job at_ =>
      obtain ⟨⟨w₁, state, posts⟩, ran, stepped⟩ := Option.bind_eq_some_iff.mp stepped
      obtain ⟨l, followed, same⟩ := Option.bind_eq_some_iff.mp stepped
      cases same
      have there : job ∈ w.loop.owned := by
        simp [Loop.owned, at_]
      simp only [World.posts, at_, ran, Option.elim_some] at more
      have next := p.ran h.here there (h.run_cases there ran) more
      exact ⟨next.early, next.posts⟩
    · cases stepped
  | timer_cb =>
    simp only [Boot.step] at stepped
    split at stepped
    · obtain ⟨timer, -, rfl⟩ := Option.map_eq_some_iff.mp stepped
      exact p.quiet (by rfl) (by rfl) more
    · cases stepped
  | server e =>
    obtain ⟨server, -, -, rfl⟩ := server_cases stepped
    exact p.quiet (by rfl) (by rfl) more
  | client e =>
    obtain ⟨client, -, -, -, rfl⟩ := client_cases stepped
    exact p.quiet (by rfl) (by rfl) more

/-- Every run of the loop of `Server::Run` up to a failed assertion, or to the end of the client's connection,
whose callback frees a member. -/
theorem server_run (h : Trace.follow step init events = some w) : Correct events w := by
  have inv : Inv events w ∧ Posted events w := by
    refine Trace.follow_induction (P := fun events w => Inv events w ∧ Posted events w)
      ⟨inv_init, fun _ => rfl, rfl⟩ ?_ h
    rintro events w e w' reached ⟨inv, p⟩ stepped
    exact ⟨inv.step stepped, p.step inv reached stepped⟩
  exact inv.1.correct inv.2

theorem server_run_counts : ∃ events w, Trace.follow step init events = some w ∧ w.count = 1 ∧
    w.loop.pending_tasks_ = [.server, .timer, .client] ∧ Correct events w :=
  ⟨[.loop (.Size 2), .loop (.Pop .boot), .run 0 0 0, .loop (.Size 2), .loop (.Pop .server), .run 0 0 0,
    .loop (.Size 1), .loop (.Pop .timer), .run 0 0 0, .loop (.Size 0), .loop (.Push .server), .loop (.Push .timer),
    .timer_cb, .timer_cb, .loop .uv_run, .loop (.Size 2), .loop (.Pop .server), .run 0 0 0, .loop (.Size 1),
    .loop (.Pop .timer), .run 0 0 0, .loop (.Size 1), .loop (.Pop .client), .run 0 0 0, .loop (.Size 0),
    .loop (.Push .server), .loop (.Push .timer), .loop (.Push .client)], _, rfl, rfl, rfl, server_run rfl⟩

end Boot

end Mygo
