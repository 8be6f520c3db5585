import Mathlib.Logic.Function.Basic
import Mygo.Token
import Mygo.Lib.Trace
import Mygo.Loop.Task

/-! `TcpServerTask` of loop/task.h and loop/task.cpp between the callbacks of libuv and the
calls of `run`. -/

namespace Mygo

abbrev ConnectId := Int

abbrev Handle := Nat

structure ConnectEvent where
  id : ConnectId
  deriving DecidableEq

structure DataEvent where
  id : ConnectId
  data : Bytes
  deriving DecidableEq

structure TcpServerTask where
  state_ : Task.State
  cur_connction_id_ : Int
  connection_id_map_ : Handle → Option ConnectId
  connection_handle_map_ : ConnectId → Option Handle
  new_connect_ : Option ConnectEvent
  new_data_ : Option DataEvent

inductive Delivery
  | OnConnect (id : ConnectId)
  | OnData (id : ConnectId) (data : Bytes)
  deriving DecidableEq

namespace TcpServerTask

def init : TcpServerTask := ⟨.S0, -1, fun _ => none, fun _ => none, none, none⟩

def new_connection_id (s : TcpServerTask) : ConnectId × TcpServerTask :=
  (s.cur_connction_id_ + 1, { s with cur_connction_id_ := s.cur_connction_id_ + 1 })

/-- `std::string(const char*)` ends at the first zero byte. -/
def c_str (base : Bytes) : Bytes := base.takeWhile (· ≠ 0)

/-- `operator[]` inserts a zero for a key that is missing. -/
def on_read (s : TcpServerTask) (client : Handle) (nread : Int) (base : Bytes) : TcpServerTask :=
  if 0 < nread then
    let id := (s.connection_id_map_ client).getD 0
    { s with
      connection_id_map_ := Function.update s.connection_id_map_ client (some id)
      new_data_ := some ⟨id, c_str base⟩ }
  else s

/-- `client` is the fresh handle, `accepted` the result of `uv_accept`. -/
def on_new_connection (s : TcpServerTask) (status : Int) (client : Handle) (accepted : Int) :
    TcpServerTask :=
  if status < 0 then s
  else if accepted = 0 then
    let (new_id, s) := s.new_connection_id
    { s with
      connection_id_map_ := Function.update s.connection_id_map_ client (some new_id)
      connection_handle_map_ := Function.update s.connection_handle_map_ new_id (some client)
      new_connect_ := some ⟨new_id⟩ }
  else s

/-- `bind` and `listen` are the results of `uv_tcp_bind` and `uv_listen`. -/
def run (s : TcpServerTask) (bind listen : Int) : TcpServerTask × Option Delivery :=
  if s.state_.isError then (s, none)
  else if s.state_.isS0 then
    if bind ≠ 0 then ({ s with state_ := .Error }, none)
    else if listen ≠ 0 then ({ s with state_ := .Error }, none)
    else ({ s with state_ := ⟨s.state_.internal_ + 1⟩ }, none)
  else match s.new_connect_ with
    | some event => ({ s with new_connect_ := none }, some (.OnConnect event.id))
    | none => match s.new_data_ with
      | some event => ({ s with new_data_ := none }, some (.OnData event.id event.data))
      | none => (s, none)

end TcpServerTask

/-- What the network has done: the accepted connections, numbered in order, the number of each
open connection, and the chunks read from them. -/
structure Network where
  accepted : List ConnectId
  connection : Handle → Option ConnectId
  chunks : List (ConnectId × Bytes)

namespace Server

inductive Event
  | run (bind listen : Int)
  | on_new_connection (status : Int) (client : Handle) (accepted : Int)
  | on_read (client : Handle) (nread : Int) (base : Bytes)

structure World where
  task : TcpServerTask
  net : Network
  log : List Delivery

def init : World := ⟨.init, ⟨[], fun _ => none, []⟩, []⟩

def World.listening (w : World) : Bool := w.task.state_.isS1

/-- libuv reports connections only on a listening server and each on a handle of its own, and
reads only from connections that are open; a read that fails closes its connection. -/
def step (w : World) : Event → Option World
  | .run bind listen =>
    let (task, delivery) := w.task.run bind listen
    some { w with task := task, log := w.log ++ delivery.toList }
  | .on_new_connection status client accepted =>
    if w.listening ∧ w.net.connection client = none then
      let task := w.task.on_new_connection status client accepted
      if 0 ≤ status ∧ accepted = 0 then
        let id : ConnectId := w.net.accepted.length
        some { w with
          task := task
          net := { w.net with
            accepted := w.net.accepted ++ [id]
            connection := Function.update w.net.connection client (some id) } }
      else some { w with task := task }
    else none
  | .on_read client nread base =>
    match w.net.connection client with
    | none => none
    | some id =>
      let task := w.task.on_read client nread base
      if 0 < nread then
        some { w with
          task := task
          net := { w.net with chunks := w.net.chunks ++ [(id, TcpServerTask.c_str base)] } }
      else if nread < 0 then
        some { w with
          task := task
          net := { w.net with connection := Function.update w.net.connection client none } }
      else some { w with task := task }

inductive Step (w : World) : Event → World → Prop
  | starting : w.listening = false →
    Step w (.run b l) { w with task := { w.task with state_ := state } }
  | idle : w.task.new_connect_ = none → w.task.new_data_ = none → Step w (.run b l) w
  | connect : w.task.new_connect_ = some event → Step w (.run b l)
    { w with
      task := { w.task with new_connect_ := none }
      log := w.log ++ [.OnConnect event.id] }
  | data : w.task.new_connect_ = none → w.task.new_data_ = some event → Step w (.run b l)
    { w with
      task := { w.task with new_data_ := none }
      log := w.log ++ [.OnData event.id event.data] }
  | accept : w.listening = true → w.net.connection client = none → 0 ≤ status →
    Step w (.on_new_connection status client 0)
      { w with
        task := w.task.on_new_connection 0 client 0
        net := { w.net with
          accepted := w.net.accepted ++ [(w.net.accepted.length : ConnectId)]
          connection := Function.update w.net.connection client
            (some (w.net.accepted.length : ConnectId)) } }
  | refuse : ¬ (0 ≤ status ∧ accepted = 0) → Step w (.on_new_connection status client accepted) w
  | chunk {id : ConnectId} : w.net.connection client = some id → 0 < nread → Step w (.on_read client nread base)
    { w with
      task := w.task.on_read client 1 base
      net := { w.net with chunks := w.net.chunks ++ [(id, TcpServerTask.c_str base)] } }
  | close : nread < 0 → Step w (.on_read client nread base)
    { w with net := { w.net with connection := Function.update w.net.connection client none } }
  | empty : nread = 0 → Step w (.on_read client nread base) w

theorem step_cases {w w' : World} {e : Event} (h : step w e = some w') : Step w e w' := by
  cases e with
  | run bind listen =>
    simp only [step, TcpServerTask.run] at h
    split at h
    · next error =>
      cases h
      simp only [Option.toList, List.append_nil]
      exact .starting (by simp [World.listening, Task.State.isS1, Task.State.isError] at error ⊢; omega)
    · split at h
      · next initial =>
        have start : w.listening = false := by
          simp [World.listening, Task.State.isS1, Task.State.isS0] at initial ⊢
          omega
        split at h
        · cases h
          simp only [Option.toList, List.append_nil]
          exact .starting start
        · split at h
          · cases h
            simp only [Option.toList, List.append_nil]
            exact .starting start
          · cases h
            simp only [Option.toList, List.append_nil]
            exact .starting start
      · split at h
        · next event hc =>
          cases h
          exact .connect hc
        · next hc =>
          split at h
          · next event hd =>
            cases h
            exact .data hc hd
          · next hd =>
            cases h
            simp only [Option.toList, List.append_nil]
            exact .idle hc hd
  | on_new_connection status client accepted =>
    simp only [step] at h
    split at h
    · next enabled =>
      split at h
      · next ok =>
        obtain ⟨positive, rfl⟩ := ok
        cases h
        have same : w.task.on_new_connection status client 0 = w.task.on_new_connection 0 client 0 := by
          simp [TcpServerTask.on_new_connection, Int.not_lt.mpr positive]
        rw [same]
        exact .accept enabled.1 enabled.2 positive
      · next refused =>
        cases h
        have same : w.task.on_new_connection status client accepted = w.task := by
          simp only [TcpServerTask.on_new_connection]
          split
          · rfl
          · next positive => rw [if_neg fun ok => refused ⟨by omega, ok⟩]
        rw [same]
        exact .refuse refused
    · cases h
  | on_read client nread base =>
    simp only [step] at h
    split at h
    · cases h
    · next id hid =>
      split at h
      · next positive =>
        cases h
        have same : w.task.on_read client nread base = w.task.on_read client 1 base := by
          simp [TcpServerTask.on_read, positive]
        rw [same]
        exact .chunk hid positive
      · next positive =>
        have same : w.task.on_read client nread base = w.task := by
          simp [TcpServerTask.on_read, positive]
        rw [same] at h
        split at h
        · next negative =>
          cases h
          exact .close negative
        · next negative =>
          cases h
          exact .empty (by omega)

def connected (log : List Delivery) : List ConnectId :=
  log.filterMap fun
    | .OnConnect id => some id
    | .OnData _ _ => none

def received (log : List Delivery) : List (ConnectId × Bytes) :=
  log.filterMap fun
    | .OnConnect _ => none
    | .OnData id data => some (id, data)

structure Wired (w : World) : Prop where
  counter : w.task.cur_connction_id_ + 1 = w.net.accepted.length
  known : ∀ client id, w.net.connection client = some id →
    w.task.connection_id_map_ client = some id ∧ id ∈ w.net.accepted
  sources : ∀ chunk ∈ w.net.chunks, chunk.1 ∈ w.net.accepted
  quiet : w.listening = false →
    w.task.new_connect_ = none ∧ w.task.new_data_ = none ∧ w.net.accepted = []

theorem Wired.step {w w' : World} {e : Event} (wired : Wired w) (h : Step w e w') : Wired w' := by
  obtain ⟨counter, known, sources, quiet⟩ := wired
  cases h with
  | starting start => exact ⟨counter, known, sources, fun _ => quiet start⟩
  | idle => exact ⟨counter, known, sources, quiet⟩
  | connect => exact ⟨counter, known, sources, fun off => ⟨rfl, (quiet off).2⟩⟩
  | data none => exact ⟨counter, known, sources, fun off => ⟨none, rfl, (quiet off).2.2⟩⟩
  | @accept client status on =>
    have task : w.task.on_new_connection 0 client 0 = _ :=
      if_neg (by decide : ¬ (0 : Int) < 0) |>.trans (if_pos rfl)
    rw [task]
    refine ⟨by simp [TcpServerTask.new_connection_id, ← counter], ?_, ?_, fun off => ?_⟩
    · intro other id h
      by_cases same : other = client
      · subst same
        simp only [Function.update_self, Option.some.injEq] at h ⊢
        subst h
        simp [TcpServerTask.new_connection_id, counter]
      · simp only [Function.update_of_ne same] at h
        simp only [TcpServerTask.new_connection_id, Function.update_of_ne same]
        exact ⟨(known other id h).1, List.mem_append_left _ (known other id h).2⟩
    · exact fun chunk h => List.mem_append_left _ (sources chunk h)
    · exact absurd (on.symm.trans off) (by decide)
  | refuse => exact ⟨counter, known, sources, quiet⟩
  | @chunk client nread base id hid =>
    obtain ⟨entry, member⟩ := known client id hid
    have task : w.task.on_read client 1 base = _ := if_pos (by decide)
    rw [task]
    refine ⟨counter, ?_, ?_, fun off => absurd member (by simp [(quiet off).2.2])⟩
    · intro other id' h
      by_cases same : other = client
      · subst same
        simpa [entry] using known other id' h
      · simpa [Function.update_of_ne same] using known other id' h
    · intro chunk h
      rcases List.mem_append.mp h with old | new
      · exact sources chunk old
      · rw [List.mem_singleton.mp new]
        exact member
  | @close nread client =>
    refine ⟨counter, ?_, sources, quiet⟩
    intro other id h
    by_cases same : other = client
    · simp [same] at h
    · exact known other id (by simpa [Function.update_of_ne same] using h)
  | empty => exact ⟨counter, known, sources, quiet⟩

theorem wired {events : List Event} {w : World} (h : Trace.follow step init events = some w) :
    Wired w := by
  have start : Wired init := ⟨rfl, by simp [init], by simp [init], fun _ => ⟨rfl, rfl, rfl⟩⟩
  exact Trace.follow_induction (P := fun _ w => Wired w) start
    (fun _ _ _ _ _ ih he => ih.step (step_cases he)) h

/-- Every event of the network is delivered or stored, in order and once, and the data of a
connection comes after the connection. -/
structure Stored (w : World) : Prop where
  connects : w.net.accepted = connected w.log ++ (w.task.new_connect_.map (·.id)).toList
  chunks : w.net.chunks = received w.log ++ (w.task.new_data_.map fun e => (e.id, e.data)).toList
  order : ∀ pre id data, pre ++ [.OnData id data] <+: w.log → .OnConnect id ∈ pre

/-- The event finds the slot it writes empty. -/
def World.Free (w : World) : Event → Prop
  | .run _ _ => True
  | .on_new_connection status _ accepted => 0 ≤ status → accepted = 0 → w.task.new_connect_ = none
  | .on_read _ nread _ => 0 < nread → w.task.new_data_ = none

theorem mem_connected {log : List Delivery} {id : ConnectId} (h : id ∈ connected log) :
    .OnConnect id ∈ log := by
  obtain ⟨delivery, member, hid⟩ := List.mem_filterMap.mp h
  cases delivery with
  | OnConnect id' =>
    cases hid
    exact member
  | OnData id' data => cases hid

theorem Stored.step {w w' : World} {e : Event} (stored : Stored w) (wired : Wired w)
    (free : w.Free e) (h : Step w e w') : Stored w' := by
  obtain ⟨connects, chunks, order⟩ := stored
  cases h with
  | starting | idle | refuse | empty | close => exact ⟨connects, chunks, order⟩
  | @connect event b l full =>
    refine ⟨?_, ?_, ?_⟩
    · simpa [connected, full] using connects
    · simpa [received] using chunks
    · intro pre id data h
      rcases List.prefix_concat_iff.mp h with last | earlier
      · exact nomatch (List.append_inj' last rfl).2
      · exact order pre id data earlier
  | @data event b l none full =>
    refine ⟨?_, ?_, ?_⟩
    · simpa [connected] using connects
    · simpa [received, full] using chunks
    · intro pre id data h
      rcases List.prefix_concat_iff.mp h with last | earlier
      · obtain ⟨rfl, same⟩ := List.append_inj' last rfl
        cases same
        have source := wired.sources (event.id, event.data) (by simp [chunks, full])
        rw [connects, none] at source
        exact mem_connected (by simpa using source)
      · exact order pre id data earlier
  | @accept client status on unused positive =>
    have empty := free positive rfl
    have task : w.task.on_new_connection 0 client 0 = _ :=
      if_neg (by decide : ¬ (0 : Int) < 0) |>.trans (if_pos rfl)
    rw [task]
    refine ⟨?_, chunks, order⟩
    simp [TcpServerTask.new_connection_id, wired.counter]
    simpa [empty] using connects
  | @chunk client nread base id hid positive =>
    have empty := free positive
    have task : w.task.on_read client 1 base = _ := if_pos (by decide)
    rw [task]
    refine ⟨connects, ?_, order⟩
    simp [(wired.known client id hid).1]
    simpa [empty] using chunks

theorem Step.settles {w w' : World} {b l : Int} (wired : Wired w) (h : Step w (.run b l) w') :
    w'.task.new_connect_ = none ∧ (w.task.new_connect_ = none → w'.task.new_data_ = none) := by
  cases h with
  | starting start =>
    obtain ⟨connect, data, -⟩ := wired.quiet start
    exact ⟨connect, fun _ => data⟩
  | idle connect data => exact ⟨connect, fun _ => data⟩
  | connect full => exact ⟨rfl, fun none => nomatch full.symm.trans none⟩
  | data connect _ => exact ⟨connect, fun _ => rfl⟩

def Soon (w : World) : Prop :=
  ∀ b l b' l' w', Trace.follow step w [.run b l, .run b' l'] = some w' →
    connected w'.log = w.net.accepted ∧ received w'.log = w.net.chunks

theorem run_net {w w' : World} {b l : Int} (h : Step w (.run b l) w') : w'.net = w.net := by
  cases h <;> rfl

theorem Stored.soon {w : World} (stored : Stored w) (wired : Wired w) : Soon w := by
  intro b l b' l' w' h
  obtain ⟨w₁, first, h⟩ := Option.bind_eq_some_iff.mp h
  obtain ⟨w₂, second, h⟩ := Option.bind_eq_some_iff.mp h
  cases h
  have wired₁ := wired.step (step_cases first)
  have stored₁ := stored.step wired (by exact trivial) (step_cases first)
  have stored₂ := stored₁.step wired₁ (by exact trivial) (step_cases second)
  have settled₁ := (step_cases first).settles wired
  obtain ⟨connect, data⟩ := (step_cases second).settles wired₁
  have net := (run_net (step_cases second)).trans (run_net (step_cases first))
  constructor
  · simpa [connect, net] using stored₂.connects.symm
  · simpa [data settled₁.1, net] using stored₂.chunks.symm

theorem free_of_stored {w w' : World} {e : Event} (stored : Stored w) (h : Step w e w')
    (stored' : Stored w') : w.Free e := by
  cases h with
  | starting | idle | connect | data => exact trivial
  | @accept client status on unused positive =>
    intro _ _
    have task : w.task.on_new_connection 0 client 0 = _ :=
      if_neg (by decide : ¬ (0 : Int) < 0) |>.trans (if_pos rfl)
    rw [task] at stored'
    have later := congrArg List.length stored'.connects
    have before := congrArg List.length stored.connects
    cases hs : w.task.new_connect_ with
    | none => rfl
    | some event =>
      simp [hs] at later before
      omega
  | refuse refused => exact fun positive ok => absurd ⟨positive, ok⟩ refused
  | @chunk client nread base id hid positive =>
    intro _
    have task : w.task.on_read client 1 base = _ := if_pos (by decide)
    rw [task] at stored'
    have later := congrArg List.length stored'.chunks
    have before := congrArg List.length stored.chunks
    cases hs : w.task.new_data_ with
    | none => rfl
    | some event =>
      simp [hs] at later before
      omega
  | close negative => exact fun positive => absurd positive (by omega)
  | empty zero => exact fun positive => absurd positive (by omega)

/-- Every network event is delivered exactly once, in every state of a run, exactly when every
callback that writes a slot finds it empty. -/
theorem delivers_iff_free (events : List Event) :
    (∀ pre w, pre <+: events → Trace.follow step init pre = some w → Stored w ∧ Soon w) ↔
      ∀ pre e w w', pre ++ [e] <+: events → Trace.follow step init pre = some w →
        step w e = some w' → w.Free e := by
  constructor
  · intro good pre e w w' inside reached he
    have reached' := Trace.follow_snoc.mpr ⟨w, reached, he⟩
    have before := (good pre w ((List.prefix_append _ _).trans inside) reached).1
    exact free_of_stored before (step_cases he) (good _ w' inside reached').1
  · intro free pre w inside reached
    have stored : Stored w := by
      refine Trace.follow_induction (P := fun pre w => pre <+: events → Stored w) ?_ ?_ reached inside
      · exact fun _ => ⟨rfl, rfl, fun pre id data h => by simp [init] at h⟩
      · intro es w e w' reached ih he inside
        have earlier := ih ((List.prefix_append _ _).trans inside)
        exact earlier.step (wired reached) (free es e w w' inside reached he) (step_cases he)
    exact ⟨stored, stored.soon (wired reached)⟩

/-- Two connections accepted between two runs: the first is never delivered. -/
theorem two_connections_lose_one :
    ∃ w, Trace.follow step init
        [.run 0 0, .on_new_connection 0 1 0, .on_new_connection 0 2 0, .run 0 0, .run 0 0] = some w ∧
      w.net.accepted = [0, 1] ∧ w.log = [.OnConnect 1] ∧ ¬ Stored w :=
  ⟨_, rfl, rfl, rfl, fun stored => absurd stored.connects (by decide)⟩

end Server

end Mygo
