import Mygo.Lib.Trace
import Mygo.Loop.Server

/-! `TcpClientTask` of loop/task.h and loop/task.cpp between the callbacks of libuv and the
calls of `run`. -/

namespace Mygo

structure TcpClientTask where
  state_ : Task.State
  need_send_ : Bytes
  response_ : Bytes

/-- What the members of a client task ask of libuv and of their caller. -/
inductive Request
  | uv_tcp_connect
  | uv_read_start
  | uv_write (data : Bytes)
  | uv_close
  | call_back_ (response : Bytes)

namespace TcpClientTask

def init (need_send : Bytes) : TcpClientTask := ⟨.S0, need_send, []⟩

/-- `none` is a failed assertion, here and below. -/
def next (s : TcpClientTask) : Option TcpClientTask :=
  s.state_.next.map fun state => { s with state_ := state }

def run (s : TcpClientTask) : Option (TcpClientTask × List Request) :=
  if s.state_.isS0 then s.next.map (·, [.uv_tcp_connect])
  else if s.state_.isS1 then some (s, [])
  else if s.state_.isS2 then some (s, [])
  else if s.state_.isS3 then s.next.map (·, [.call_back_ s.response_])
  else some (s, [])

/-- The state is only looked at after the reading has been started. -/
def on_connect (s : TcpClientTask) (status : Int) : Option (TcpClientTask × List Request) :=
  if status < 0 then some (s, [.uv_close])
  else if s.state_.isS1 then s.next.map (·, [.uv_read_start, .uv_write s.need_send_])
  else none

def on_read (s : TcpClientTask) (nread : Int) (base : Bytes) :
    Option (TcpClientTask × List Request) :=
  if s.state_.isS2 then
    if 0 < nread then { s with response_ := TcpServerTask.c_str base }.next.map (·, [])
    else if nread < 0 then some ({ s with state_ := .Error }, [.uv_close])
    else some (s, [])
  else none

end TcpClientTask

namespace Client

inductive Event
  | run (err : Int)
  | on_connect (status : Int)
  | on_read (nread : Int) (base : Bytes)

/-- The task, and what has happened around it: `requested` and `answered` tell whether libuv took
the connect request and has called back, `failed` whether the attempt has failed, `calls` the
responses given to `call_back_`. -/
structure World where
  task : TcpClientTask
  requested : Bool
  answered : Bool
  failed : Bool
  reading : Bool
  received : List Bytes
  closed : Bool
  calls : List Bytes
  aborted : Bool

def init (need_send : Bytes) : World := ⟨.init need_send, false, false, false, false, [], false, [], false⟩

def World.become (w : World) : Option (TcpClientTask × List Request) → World
  | none => { w with aborted := true }
  | some (task, requests) =>
    { w with
      task := task
      calls := w.calls ++ requests.filterMap fun
        | .call_back_ response => some response
        | _ => none }

/-- libuv answers a connect request it took once, and reads once the reading was started; `err`
is the result of `uv_tcp_connect` in the run that makes the request. -/
def step (w : World) : Event → Option World
  | .run err =>
    if w.aborted then none
    else
      let w' := w.become w.task.run
      if w.task.state_.isS0 then some { w' with requested := err == 0, failed := err != 0 }
      else some w'
  | .on_connect status =>
    if w.aborted || !w.requested || w.answered then none
    else
      let w' := w.become (w.task.on_connect status)
      if status < 0 then some { w' with answered := true, failed := true }
      else some { w' with answered := true, reading := true }
  | .on_read nread base =>
    if w.aborted || !w.reading then none
    else
      let w' := w.become (w.task.on_read nread base)
      if 0 < nread then some { w' with received := w.received ++ [TcpServerTask.c_str base] }
      else if nread < 0 then some { w' with closed := true }
      else some w'

/-- No assertion has failed, the call back came at most once and with data that was received,
and the loop drops a task whose connection failed or was closed with any response delivered. -/
structure Safe (w : World) : Prop where
  asserts : w.aborted = false
  once : w.calls.length ≤ 1
  data : ∀ response ∈ w.calls, response ∈ w.received
  dropped : w.failed = true ∨ w.closed = true ∧ (w.received = [] ∨ w.calls ≠ []) →
    w.task.state_.isNotFinished = false

/-- The connection does not fail, and nothing is read after data, the end or an error. -/
def World.Keeps (w : World) : Event → Prop
  | .run err => w.task.state_.isS0 → err = 0
  | .on_connect status => 0 ≤ status
  | .on_read _ _ => w.received = [] ∧ w.closed = false

inductive Phase (data : Bytes) : World → Prop
  | initial : Phase data (init data)
  | connecting : Phase data ⟨⟨⟨1⟩, data, []⟩, true, false, false, false, [], false, [], false⟩
  | connected : Phase data ⟨⟨⟨2⟩, data, []⟩, true, true, false, true, [], false, [], false⟩
  | response (r : Bytes) : Phase data ⟨⟨⟨3⟩, data, r⟩, true, true, false, true, [r], false, [], false⟩
  | delivered (r : Bytes) : Phase data ⟨⟨⟨4⟩, data, r⟩, true, true, false, true, [r], false, [r], false⟩
  | closed : Phase data ⟨⟨.Error, data, []⟩, true, true, false, true, [], true, [], false⟩

theorem Phase.safe {data : Bytes} {w : World} (phase : Phase data w) : Safe w := by
  cases phase with
  | initial | connecting | connected =>
    exact ⟨rfl, by simp [init], by simp [init], by simp [init]⟩
  | response r => exact ⟨rfl, by simp, by simp, by simp⟩
  | delivered r => exact ⟨rfl, by simp, by simp, by simp⟩
  | closed => exact ⟨rfl, by simp, by simp, fun _ => rfl⟩

theorem Phase.step {data : Bytes} {w w' : World} {e : Event} (phase : Phase data w)
    (keeps : w.Keeps e) (h : step w e = some w') : Phase data w' := by
  cases phase with
  | initial =>
    cases e with
    | run err =>
      obtain rfl : err = 0 := keeps rfl
      cases h
      exact .connecting
    | on_connect => cases h
    | on_read => cases h
  | connecting =>
    cases e with
    | run =>
      cases h
      exact .connecting
    | on_connect status =>
      have accepted : ¬ status < 0 := Int.not_lt.mpr keeps
      simp only [Client.step, TcpClientTask.on_connect, if_neg accepted] at h
      cases h
      exact .connected
    | on_read => cases h
  | connected =>
    cases e with
    | run =>
      cases h
      exact .connected
    | on_connect => cases h
    | on_read nread base =>
      simp only [Client.step, TcpClientTask.on_read] at h
      split at h
      · next impossible => cases impossible
      · split at h
        · cases h
          exact .response _
        · split at h
          · cases h
            exact .closed
          · cases h
            exact .connected
  | response r =>
    cases e with
    | run =>
      cases h
      exact .delivered r
    | on_connect => cases h
    | on_read => exact absurd keeps.1 (List.cons_ne_nil r [])
  | delivered r =>
    cases e with
    | run =>
      cases h
      exact .delivered r
    | on_connect => cases h
    | on_read => exact absurd keeps.1 (List.cons_ne_nil r [])
  | closed =>
    cases e with
    | run =>
      cases h
      exact .closed
    | on_connect => cases h
    | on_read => exact nomatch (show true = false from keeps.2)

theorem Phase.keeps {data : Bytes} {w w' : World} {e : Event} (phase : Phase data w)
    (h : Client.step w e = some w') (safe : Safe w') : w.Keeps e := by
  cases e with
  | run err =>
    intro start
    by_contra failed
    cases phase with
    | initial =>
      cases h
      exact nomatch (show true = false from safe.dropped (.inl (by simpa using failed)))
    | connecting | connected | response | delivered | closed => cases start
  | on_connect status =>
    by_contra failed
    have refused : status < 0 := Int.not_le.mp failed
    cases phase with
    | connecting =>
      simp only [Client.step, TcpClientTask.on_connect, if_pos refused] at h
      cases h
      exact nomatch (show true = false from safe.dropped (.inl rfl))
    | initial | connected | response | delivered | closed => cases h
  | on_read nread base =>
    cases phase with
    | initial | connecting => cases h
    | connected => exact ⟨rfl, rfl⟩
    | response r | delivered r | closed =>
      have aborts : w'.aborted = true := by
        simp only [Client.step, TcpClientTask.on_read] at h
        split at h
        · next impossible => cases impossible
        · split at h
          · cases h
            rfl
          · split at h
            · cases h
              rfl
            · cases h
              rfl
      exact absurd (aborts.symm.trans safe.asserts) (by decide)

/-- Every state of a run is safe exactly when the connection does not fail and nothing is read
after data, the end or an error. -/
theorem safe_iff_keeps (data : Bytes) (events : List Event) :
    (∀ pre w, pre <+: events → Trace.follow step (init data) pre = some w → Safe w) ↔
      ∀ pre e w w', pre ++ [e] <+: events → Trace.follow step (init data) pre = some w →
        step w e = some w' → w.Keeps e := by
  constructor
  · intro safe
    have phase : ∀ pre w, pre <+: events → Trace.follow step (init data) pre = some w → Phase data w := by
      intro pre w inside reached
      refine Trace.follow_induction (P := fun pre w => pre <+: events → Phase data w) ?_ ?_ reached inside
      · exact fun _ => .initial
      · intro pre w e w' reached ih he inside
        have before := ih ((List.prefix_append _ _).trans inside)
        exact before.step
          (before.keeps he (safe _ w' inside (Trace.follow_snoc.mpr ⟨w, reached, he⟩))) he
    intro pre e w w' inside reached he
    exact (phase pre w ((List.prefix_append _ _).trans inside) reached).keeps he
      (safe _ w' inside (Trace.follow_snoc.mpr ⟨w, reached, he⟩))
  · intro keeps pre w inside reached
    refine (Trace.follow_induction (P := fun pre w => pre <+: events → Phase data w) ?_ ?_ reached inside).safe
    · exact fun _ => .initial
    · intro pre w e w' reached ih he inside
      exact (ih ((List.prefix_append _ _).trans inside)).step (keeps pre e w w' inside reached he) he

/-- The end of the stream after a response fails the assertion in `on_read`, and a refused
connection leaves the task unfinished. -/
theorem end_or_refusal_unsafe :
    (∃ w, Trace.follow step (init []) [.run 0, .on_connect 0, .on_read 1 [65], .run 0, .on_read (-4095) []] =
      some w ∧ w.aborted = true ∧ ¬ Safe w) ∧
    ∃ w, Trace.follow step (init []) [.run 0, .on_connect (-111)] = some w ∧ w.failed = true ∧
      w.task.state_.isNotFinished = true ∧ ¬ Safe w :=
  ⟨⟨_, rfl, rfl, fun safe => absurd safe.asserts (by decide)⟩,
    ⟨_, rfl, rfl, rfl, fun safe => absurd (safe.dropped (.inl rfl)) (by decide)⟩⟩

end Client

end Mygo
