import Mygo.Lib.Pipe
import Mygo.Loop.Boot
import Mygo.Loop.Payload

namespace Mygo

namespace Loopback

def response : Bytes :=
  bytes "HTTP/1.1 200 OK\r\nContent-Type: text/html\r\nContent-Length: 12\r\n\r\nHello World\n"

/-- `mine` is the connection that the server has accepted from the client, `up` and `down` what the two have
written to it, and `answered` for whose data the server has. -/
structure World where
  boot : Boot.World
  mine : Option ConnectId
  up : Pipe UInt8
  down : Pipe UInt8
  answered : List ConnectId

def init : World := ⟨Boot.init, none, .empty, .empty, []⟩

inductive Event
  /-- Anything that is not about the connection of the client, or its end. -/
  | other (e : Boot.Event)
  | accept (client : Handle)
  | on_connect
  | server_read (client : Handle) (b : ReadBuffer)
  | client_read (b : ReadBuffer)

/-- `malloc` does not return a null pointer. -/
def World.others (w : World) : Boot.Event → Bool
  | .server (.on_new_connection _ client _) => client ≠ null
  | .server (.on_read client nread _) => nread ≤ 0 ∨ w.boot.server.net.connection client ≠ w.mine
  | .client (.on_connect status) => status < 0
  | .client (.on_read nread _) => nread ≤ 0
  | _ => true

/-- What `OnData` does, if it was called; `none` writes to a handle that is not open. -/
def World.answer (w : World) : List Delivery → Option World
  | .OnData id _ :: _ =>
    let (stream, data) := w.boot.server.task.SendData_write id response
    let server := { w.boot.server with task := (w.boot.server.task.SendData id).2 }
    match server.net.connection stream with
    | none => none
    | some connection =>
      if w.mine = some connection then
        some { w with
          boot := { w.boot with server := server }
          down := w.down.write data
          answered := w.answered ++ [id] }
      else some { w with boot := { w.boot with server := server } }
  | _ => some w

/-- The bytes of a `uv_write` are in the stream when it returns.  A callback with a chunk is given a block that
ends the string. -/
def step (w : World) : Event → Option World
  | .other e =>
    if w.others e then do
      let boot ← Boot.step w.boot e
      { w with boot := boot }.answer (boot.server.log.drop w.boot.server.log.length)
    else none
  | .accept client =>
    if w.mine = none ∧ w.boot.client.requested ∧ client ≠ null then
      (Boot.step w.boot (.server (.on_new_connection 0 client 0))).map fun boot =>
        { w with boot := boot, mine := some w.boot.server.net.accepted.length }
    else none
  | .on_connect =>
    (Boot.step w.boot (.client (.on_connect 0))).map fun boot =>
      { w with boot := boot, up := w.up.write w.boot.client.task.need_send_ }
  | .server_read client b =>
    if w.mine ≠ none ∧ w.boot.server.net.connection client = w.mine ∧ 0 ∈ b.base then do
      let up ← w.up.read b.chunk
      let boot ← Boot.step w.boot (.server (.on_read client b.nread b.base))
      some { w with boot := boot, up := up }
    else none
  | .client_read b =>
    if 0 ∈ b.base then do
      let down ← w.down.read b.chunk
      let boot ← Boot.step w.boot (.client (.on_read b.nread b.base))
      some { w with boot := boot, down := down }
    else none

/-- The string is a piece of what has been written, and what the block holds behind it up to a zero. -/
def ReadFrom (written data : Bytes) : Prop :=
  ∃ b : ReadBuffer, data = b.chunk ++ TcpServerTask.c_str b.tail ∧ b.chunk <:+: written

def BeginsWith (written data : Bytes) : Prop :=
  ∃ b : ReadBuffer, data = b.chunk ++ TcpServerTask.c_str b.tail ∧ b.chunk <+: written

/-- What holds after every run: the client writes its text once, all that the server is told about the client's
connection was read from that text, and it writes nothing but whole responses to it, each for data of that
connection or of one that is closed; and the client is called back at most once, after such a response and with
a beginning of all that the server has written to it. -/
structure Correct (w : World) : Prop where
  up : w.up.sent = if w.boot.client.reading then bytes "hello world" else []
  told : ∀ id data, .OnData id data ∈ w.boot.server.log → w.mine = some id → ReadFrom (bytes "hello world") data
  down : w.down.sent = (List.replicate w.answered.length response).flatten
  asked : ∀ id ∈ w.answered, (∃ data, .OnData id data ∈ w.boot.server.log) ∧
    (w.mine = some id ∨ ∀ client, w.boot.server.net.connection client ≠ some id)
  once : w.boot.client.calls.length ≤ 1
  called : ∀ r ∈ w.boot.client.calls, w.answered ≠ [] ∧ BeginsWith w.down.sent r

def World.Told (w : World) (id : ConnectId) (data : Bytes) : Prop :=
  id ∈ w.boot.server.net.accepted ∧ (w.mine = some id → ReadFrom (bytes "hello world") data)

structure Inv (w : World) : Prop where
  wired : Server.Wired w.boot.server
  numbered : Handles.Numbered w.boot.server
  located : Server.Located w.boot.server
  owner : ∀ id, w.mine = some id → id ∈ w.boot.server.net.accepted
  stored : ∀ event, w.boot.server.task.new_data_ = some event → w.Told event.id event.data
  logged : ∀ id data, .OnData id data ∈ w.boot.server.log → w.Told id data
  text : w.boot.client.task.need_send_ = bytes "hello world"
  connected : w.boot.client.reading = true → w.boot.client.answered = true
  up : w.up.sent = if w.boot.client.reading then bytes "hello world" else []
  down : w.down.sent = (List.replicate w.answered.length response).flatten
  asked : ∀ id ∈ w.answered, (∃ data, .OnData id data ∈ w.boot.server.log) ∧
    (w.mine = some id ∨ ∀ client, w.boot.server.net.connection client ≠ some id)
  single : Boot.Single w.boot.client
  fresh : 0 ≤ w.boot.client.task.state_.internal_ → w.boot.client.task.state_.internal_ ≤ 2 → w.down.taken = []
  received : ∀ r ∈ w.boot.client.received, BeginsWith w.down.sent r

theorem Inv.correct {w : World} (h : Inv w) : Correct w where
  up := h.up
  told id data there := (h.logged id data there).2
  down := h.down
  asked := h.asked
  once := h.single.calls
  called r there := by
    have begins := h.received r (h.single.responses r there)
    refine ⟨fun none => ?_, begins⟩
    obtain ⟨b, -, first⟩ := begins
    rw [h.down, none] at first
    exact b.read (List.prefix_nil.mp first)

theorem inv_init : Inv init where
  wired := @Server.wired [] _ rfl
  numbered := nofun
  located := nofun
  owner := nofun
  stored := nofun
  logged := nofun
  text := rfl
  connected := nofun
  up := rfl
  down := rfl
  asked := nofun
  single := Boot.single_init _
  fresh := fun _ _ => rfl
  received := nofun

theorem BeginsWith.more {written data : Bytes} (h : BeginsWith written data) (more : Bytes) :
    BeginsWith (written ++ more) data := by
  obtain ⟨b, string, first⟩ := h
  exact ⟨b, string, first.trans (List.prefix_append _ _)⟩

theorem base_of_clean {b : ReadBuffer} {written : Bytes} (piece : b.chunk <:+: written) (clean : 0 ∉ written) :
    TcpServerTask.c_str b.base = b.chunk ++ TcpServerTask.c_str b.tail :=
  c_str_append fun zero => clean (piece.subset zero)

theorem response_clean : 0 ∉ response := by decide

theorem responses_clean (n : Nat) : 0 ∉ (List.replicate n response).flatten := by
  intro zero
  obtain ⟨l, copy, zero⟩ := List.mem_flatten.mp zero
  rw [List.eq_of_mem_replicate copy] at zero
  exact response_clean zero

variable {w w' : World}

/-! The steps of the server. -/

section Steps

variable {s s' : Server.World} {e : Server.Event} {id : ConnectId}

theorem closed_step (numbered : Handles.Numbered s) (old : id ∈ s.net.accepted)
    (closed : ∀ client, s.net.connection client ≠ some id) (step : Server.Step s e s') :
    ∀ client, s'.net.connection client ≠ some id := by
  cases step with
  | starting | idle | connect | data | refuse | chunk | empty => exact closed
  | @accept client =>
    intro other this
    by_cases same : other = client
    · simp only [same, Function.update_self, Option.some.injEq] at this
      exact absurd (numbered id old) (by simp [← this])
    · simp only [Function.update_of_ne same] at this
      exact closed other this
  | @close _ client =>
    intro other this
    by_cases same : other = client
    · simp [same] at this
    · simp only [Function.update_of_ne same] at this
      exact closed other this

theorem accepted_step (step : Server.Step s e s') (old : id ∈ s.net.accepted) : id ∈ s'.net.accepted := by
  cases step with
  | accept => exact List.mem_append_left _ old
  | _ => exact old

theorem stored_step (wired : Server.Wired s) (step : Server.Step s e s') {event : DataEvent}
    (there : s'.task.new_data_ = some event) : s.task.new_data_ = some event ∨ ∃ client nread base,
      e = .on_read client nread base ∧ 0 < nread ∧ s.net.connection client = some event.id ∧
        event.data = TcpServerTask.c_str base := by
  cases step with
  | starting | idle | connect | refuse | close | empty => exact .inl there
  | data => cases there
  | @accept client =>
    have task : s.task.on_new_connection 0 client 0 = _ :=
      if_neg (by decide : ¬ (0 : Int) < 0) |>.trans (if_pos rfl)
    rw [task] at there
    exact .inl there
  | @chunk client nread base id open_ positive =>
    have task : s.task.on_read client 1 base = _ := if_pos (by decide)
    rw [task, (wired.known client id open_).1] at there
    cases there
    exact .inr ⟨client, nread, base, rfl, positive, open_, rfl⟩

theorem logged_step (step : Server.Step s e s') {data : Bytes} (there : .OnData id data ∈ s'.log) :
    .OnData id data ∈ s.log ∨ s.task.new_data_ = some ⟨id, data⟩ := by
  cases step with
  | starting | idle | accept | refuse | chunk | close | empty => exact .inl there
  | connect =>
    rcases List.mem_append.mp there with old | new
    · exact .inl old
    · cases List.mem_singleton.mp new
  | data _ stored =>
    rcases List.mem_append.mp there with old | new
    · exact .inl old
    · cases List.mem_singleton.mp new
      exact .inr stored

theorem log_step (step : Server.Step s e s') : s.log <+: s'.log := by
  cases step with
  | connect | data => exact List.prefix_append _ _
  | _ => exact List.prefix_refl _

end Steps

theorem Inv.server (h : Inv w) {e : Server.Event} {s : Server.World} (step : Server.Step w.boot.server e s)
    {mine : Option ConnectId}
    (owner : mine = w.mine ∨ w.mine = none ∧ mine = some (w.boot.server.net.accepted.length : ConnectId) ∧
      (w.boot.server.net.accepted.length : ConnectId) ∈ s.net.accepted)
    (read : ∀ client nread base, e = .on_read client nread base → 0 < nread →
      mine ≠ none → w.boot.server.net.connection client = mine →
      ReadFrom (bytes "hello world") (TcpServerTask.c_str base)) :
    Inv { w with boot := { w.boot with server := s }, mine := mine } := by
  -- a connection that the server has been told about is not the one that it accepts
  have told : ∀ id data, w.Told id data →
      World.Told { w with boot := { w.boot with server := s }, mine := mine } id data := by
    rintro id data ⟨old, from_⟩
    refine ⟨accepted_step step old, fun own => ?_⟩
    rcases owner with same | ⟨-, new, -⟩
    · exact from_ (same ▸ own)
    · obtain rfl := Option.some.inj (new.symm.trans own)
      exact absurd (h.numbered _ old) (Int.lt_irrefl _)
  refine
    { h with
      wired := h.wired.step step
      numbered := h.numbered.step step
      located := h.located.step h.wired h.numbered step
      owner := fun id own => ?_
      stored := fun event there => ?_
      logged := fun id data there => ?_
      asked := fun id member => ?_ }
  · rcases owner with same | ⟨-, new, there⟩
    · exact accepted_step step (h.owner id (same ▸ own))
    · obtain rfl := Option.some.inj (new.symm.trans own)
      exact there
  · rcases stored_step h.wired step there with old | ⟨client, nread, base, rfl, positive, open_, string⟩
    · exact told _ _ (h.stored event old)
    · refine ⟨accepted_step step (h.wired.known client _ open_).2, fun own => ?_⟩
      rw [string]
      have own : mine = some event.id := own
      exact read client nread base rfl positive (by simp [own]) (open_.trans own.symm)
  · rcases logged_step step there with old | new
    · exact told _ _ (h.logged id data old)
    · exact told _ _ (h.stored _ new)
  · obtain ⟨⟨data, there⟩, whose⟩ := h.asked id member
    refine ⟨⟨data, (log_step step).subset there⟩, ?_⟩
    have old := (h.logged id data there).1
    rcases whose with own | closed
    · rcases owner with same | ⟨none, -⟩
      · exact .inl (same.trans own)
      · rw [none] at own
        cases own
    · exact .inr (closed_step h.numbered old closed step)

theorem replicate_snoc (n : Nat) (text : Bytes) :
    (List.replicate (n + 1) text).flatten = (List.replicate n text).flatten ++ text := by
  rw [List.replicate_succ', List.flatten_append, List.flatten_singleton]

theorem Inv.answer (h : Inv w) {log : List Delivery} (there : ∀ d ∈ log, d ∈ w.boot.server.log)
    (answered : w.answer log = some w') : Inv w' := by
  unfold World.answer at answered
  split at answered
  · next id data log =>
    have delivered := there _ List.mem_cons_self
    have send : Inv { w with
        boot := { w.boot with server := { w.boot.server with task := (w.boot.server.task.SendData id).2 } } } := by
      refine
        { h with
          wired := ⟨h.wired.counter, h.wired.known, h.wired.sources, h.wired.quiet⟩
          located := fun client other open_ => ?_ }
      have entry := h.located client other open_
      by_cases same : other = id
      · subst same
        simp [TcpServerTask.SendData, entry]
      · simp [TcpServerTask.SendData, Function.update_of_ne same, entry]
    simp only [TcpServerTask.SendData_write, send_response_iff.mpr response_clean] at answered
    split at answered
    · cases answered
    · next connection open_ =>
      split at answered
      · next own =>
        cases answered
        refine
          { send with
            down := ?_
            asked := ?_
            fresh := send.fresh
            received := fun r member => ?_ }
        · rw [Pipe.sent_write, h.down, List.length_append, List.length_singleton, replicate_snoc]
        · intro other member
          rcases List.mem_append.mp member with old | new
          · exact h.asked other old
          · cases List.mem_singleton.mp new
            refine ⟨⟨data, delivered⟩, ?_⟩
            by_cases closed : ∀ client, w.boot.server.net.connection client ≠ some id
            · exact .inr closed
            · -- the handle of an open connection is the one it was accepted on
              obtain ⟨client, opened⟩ := not_forall_not.mp closed
              have stream : (w.boot.server.task.SendData id).1 = client := by
                rw [TcpServerTask.SendData, h.located client id opened]
                rfl
              rw [stream] at open_
              cases open_.symm.trans opened
              exact .inl own
        · rw [Pipe.sent_write]
          exact (h.received r member).more _
      · cases answered
        exact send
  · cases answered
    exact h

/-! The steps of the client. -/

section Steps

variable {c c' : Client.World}

theorem early_step (move : Boot.Move c c') (low : 0 ≤ c'.task.state_.internal_)
    (high : c'.task.state_.internal_ ≤ 2) :
    0 ≤ c.task.state_.internal_ ∧ c.task.state_.internal_ ≤ 2 := by
  cases move with
  | idle task =>
    rw [task] at low high
    exact ⟨low, high⟩
  | start state | connect state => simp [state]
  | data _ _ state' | deliver _ state' =>
    rw [state'] at high
    exact absurd high (by decide)
  | lost _ state' =>
    rw [state'] at low
    exact absurd low (by decide)

variable (r : Option (TcpClientTask × List Request))

@[simp] theorem become_received : (c.become r).received = c.received := by
  cases r <;> rfl

@[simp] theorem become_reading : (c.become r).reading = c.reading := by
  cases r <;> rfl

@[simp] theorem become_answered : (c.become r).answered = c.answered := by
  cases r <;> rfl

theorem become_text (same : ∀ s requests, r = some (s, requests) → s.need_send_ = c.task.need_send_) :
    (c.become r).task.need_send_ = c.task.need_send_ := by
  cases r with
  | none => rfl
  | some called => exact same _ _ rfl

section Text

variable {t t' : TcpClientTask} {requests requests' : List Request}

theorem next_text (moved : t.next.map (·, requests) = some (t', requests')) : t'.need_send_ = t.need_send_ := by
  obtain ⟨s, next, same⟩ := Option.map_eq_some_iff.mp moved
  obtain ⟨state, -, rfl⟩ := Option.map_eq_some_iff.mp next
  cases same
  rfl

theorem run_text (ran : t.run = some (t', requests)) : t'.need_send_ = t.need_send_ := by
  rw [TcpClientTask.run] at ran
  split at ran
  · exact next_text ran
  · split at ran
    · cases ran
      rfl
    · split at ran
      · cases ran
        rfl
      · split at ran
        · exact next_text ran
        · cases ran
          rfl

theorem on_connect_text {status : Int} (called : t.on_connect status = some (t', requests)) :
    t'.need_send_ = t.need_send_ := by
  rw [TcpClientTask.on_connect] at called
  split at called
  · cases called
    rfl
  · split at called
    · exact next_text called
    · cases called

theorem on_read_text {nread : Int} {base : Bytes} (called : t.on_read nread base = some (t', requests)) :
    t'.need_send_ = t.need_send_ := by
  rw [TcpClientTask.on_read] at called
  split at called
  · split at called
    · have text := next_text called
      exact text
    · split at called
      · cases called
        rfl
      · cases called
        rfl
  · cases called

end Text

variable {e : Client.Event}

theorem text_step (step : Client.step c e = some c') : c'.task.need_send_ = c.task.need_send_ := by
  cases e with
  | run err =>
    have text := become_text c.task.run fun s requests ran => run_text ran
    simp only [Client.step] at step
    split at step
    · cases step
    · split at step
      · cases step
        exact text
      · cases step
        exact text
  | on_connect status =>
    have text := become_text (c.task.on_connect status) fun s requests called => on_connect_text called
    simp only [Client.step] at step
    split at step
    · cases step
    · split at step
      · cases step
        exact text
      · cases step
        exact text
  | on_read nread base =>
    have text := become_text (c.task.on_read nread base) fun s requests called => on_read_text called
    simp only [Client.step] at step
    split at step
    · cases step
    · split at step
      · cases step
        exact text
      · split at step
        · cases step
          exact text
        · cases step
          exact text

theorem quiet_step (step : Client.step c e = some c') (failed : ∀ status, e = .on_connect status → status < 0)
    (ends : ∀ nread base, e = .on_read nread base → nread ≤ 0) :
    c'.received = c.received ∧ c'.reading = c.reading ∧ (c.answered = true → c'.answered = true) := by
  cases e with
  | run err =>
    simp only [Client.step] at step
    split at step
    · cases step
    · split at step
      · cases step
        simp
      · cases step
        simp
  | on_connect status =>
    simp only [Client.step, if_pos (failed status rfl)] at step
    split at step
    · cases step
    · cases step
      simp
  | on_read nread base =>
    simp only [Client.step, if_neg (Int.not_lt.mpr (ends nread base rfl))] at step
    split at step
    · cases step
    · split at step
      · cases step
        simp
      · cases step
        simp

theorem chunk_step {nread : Int} {base : Bytes} (step : Client.step c (.on_read nread base) = some c')
    (alive : c'.aborted = false) (positive : 0 < nread) :
    c.task.state_ = ⟨2⟩ ∧ c'.task.state_ = ⟨3⟩ ∧ c'.received = c.received ++ [TcpServerTask.c_str base] ∧
      c'.reading = c.reading ∧ c'.answered = c.answered := by
  have move := Boot.client_move step alive
  simp only [Client.step, if_pos positive] at step
  split at step
  · cases step
  · cases step
    have longer : c.received ++ [TcpServerTask.c_str base] ≠ c.received := by simp
    cases move with
    | data r two three => exact ⟨two, three, rfl, become_reading _, become_answered _⟩
    | idle _ _ same | start _ _ _ same | connect _ _ _ same | deliver _ _ _ same | lost _ _ _ same =>
      exact absurd same longer

end Steps

theorem Inv.client (h : Inv w) {e : Client.Event} {c : Client.World} (step : Client.step w.boot.client e = some c)
    (alive : c.aborted = false) (failed : ∀ status, e = .on_connect status → status < 0)
    (ends : ∀ nread base, e = .on_read nread base → nread ≤ 0) :
    Inv { w with boot := { w.boot with client := c } } := by
  obtain ⟨received, reading, answered⟩ := quiet_step step failed ends
  have move := Boot.client_move step alive
  exact
    { h with
      text := (text_step step).trans h.text
      connected := fun on => answered (h.connected (reading ▸ on))
      up := reading ▸ h.up
      single := h.single.move move
      fresh := fun low high => by
        obtain ⟨low, high⟩ := early_step move low high
        exact h.fresh low high
      received := received ▸ h.received }

/-! The steps of both. -/

theorem Inv.same (h : Inv w) {b : Boot.World} (server : b.server = w.boot.server) (client : b.client = w.boot.client) :
    Inv { w with boot := b } := by
  obtain ⟨boot, mine, up, down, answered⟩ := w
  obtain ⟨loop, closure, server', timer, client', count⟩ := b
  cases server
  cases client
  exact { h with }

theorem Inv.loop (h : Inv w) {e : Boot.Event} {b : Boot.World} (step : Boot.step w.boot e = some b)
    (callback : (∀ se, e ≠ .server se) ∧ ∀ ce, e ≠ .client ce) : Inv { w with boot := b } := by
  cases e with
  | loop e =>
    cases e with
    | PostTask | ran => cases step
    | _ =>
      obtain ⟨l, -, rfl⟩ := Option.map_eq_some_iff.mp step
      exact h.same rfl rfl
  | timer_cb =>
    simp only [Boot.step] at step
    split at step
    · obtain ⟨timer, -, rfl⟩ := Option.map_eq_some_iff.mp step
      exact h.same rfl rfl
    · cases step
  | run bind listen err =>
    rcases Boot.run_cases step with ⟨server, client⟩ | ⟨ran, client⟩ | ⟨server, ran, alive⟩
    · exact h.same server client
    · have served := h.server (Server.step_cases ran) (.inl rfl) (by simp)
      exact served.same rfl client
    · have called := h.client ran alive (by simp) (by simp)
      exact called.same server rfl
  | server se => exact absurd rfl (callback.1 se)
  | client ce => exact absurd rfl (callback.2 ce)

theorem Inv.other (h : Inv w) {e : Boot.Event} {b : Boot.World} (others : w.others e = true)
    (step : Boot.step w.boot e = some b) : Inv { w with boot := b } := by
  cases e with
  | server se =>
    obtain ⟨server, -, moved, rfl⟩ := Boot.server_cases step
    refine h.server (Server.step_cases moved) (.inl rfl) fun client nread base read positive _ own => ?_
    cases read
    simp only [World.others, decide_eq_true_eq] at others
    rcases others with ends | foreign
    · exact absurd positive (Int.not_lt.mpr ends)
    · exact absurd own foreign
  | client ce =>
    obtain ⟨client, -, moved, alive, rfl⟩ := Boot.client_cases step
    refine h.client moved alive (fun status connects => ?_) fun nread base read => ?_
    · cases connects
      exact of_decide_eq_true others
    · cases read
      exact of_decide_eq_true others
  | loop | run | timer_cb => exact h.loop step ⟨nofun, nofun⟩

theorem Inv.on_connect (h : Inv w) {b : Boot.World} (step : Boot.step w.boot (.client (.on_connect 0)) = some b) :
    Inv { w with boot := b, up := w.up.write w.boot.client.task.need_send_ } := by
  obtain ⟨client, -, moved, alive, rfl⟩ := Boot.client_cases step
  have move := Boot.client_move moved alive
  have text := (text_step moved).trans h.text
  simp only [Client.step] at moved
  split at moved
  · cases moved
  · next enabled =>
    have unread : w.boot.client.reading = false := by
      by_contra on
      have answered := h.connected (by simpa using on)
      simp [answered] at enabled
    cases moved
    exact
      { h with
        text := text
        connected := fun _ => rfl
        up := by
          rw [Pipe.sent_write, h.up, h.text, unread]
          rfl
        single := h.single.move move
        fresh := fun low high => by
          obtain ⟨low, high⟩ := early_step move low high
          exact h.fresh low high
        received := by
          simpa using h.received }

theorem Inv.client_read (h : Inv w) {chunk : ReadBuffer} {b : Boot.World} {down : Pipe UInt8}
    (read : w.down.read chunk.chunk = some down)
    (step : Boot.step w.boot (.client (.on_read chunk.nread chunk.base)) = some b) :
    Inv { w with boot := b, down := down } := by
  obtain ⟨client, -, moved, alive, rfl⟩ := Boot.client_cases step
  obtain ⟨two, three, received, reading, answered⟩ := chunk_step moved alive chunk.nread_pos
  have sent := Pipe.sent_read read
  have first : w.down.taken = [] := h.fresh (by simp [two]) (by simp [two])
  have begins := Pipe.prefix_of_read first read
  have clean : 0 ∉ w.down.sent := h.down ▸ responses_clean _
  exact
    { h with
      text := (text_step moved).trans h.text
      connected := fun on => answered.trans (h.connected (reading ▸ on))
      up := reading ▸ h.up
      down := sent.trans h.down
      single := h.single.move (Boot.client_move moved alive)
      fresh := fun _ high => by
        simp [three] at high
      received := fun r member => by
        rw [received] at member
        rw [sent]
        rcases List.mem_append.mp member with old | new
        · exact h.received r old
        · rw [List.mem_singleton.mp new]
          exact ⟨chunk, base_of_clean begins.isInfix clean, begins⟩ }

theorem Inv.step (h : Inv w) {e : Event} (stepped : step w e = some w') : Inv w' := by
  cases e with
  | other e =>
    simp only [Loopback.step] at stepped
    split at stepped
    · next others =>
      obtain ⟨b, moved, answered⟩ := Option.bind_eq_some_iff.mp stepped
      exact (h.other others moved).answer (fun d new => List.mem_of_mem_drop new) answered
    · cases stepped
  | accept client =>
    simp only [Loopback.step] at stepped
    split at stepped
    · next enabled =>
      obtain ⟨b, moved, rfl⟩ := Option.map_eq_some_iff.mp stepped
      obtain ⟨server, -, accepted, rfl⟩ := Boot.server_cases moved
      refine h.server (Server.step_cases accepted) (.inr ⟨enabled.1, rfl, ?_⟩) (fun _ _ _ same => by cases same)
      cases Server.step_cases accepted with
      | accept => exact List.mem_append_right _ List.mem_cons_self
      | refuse refused => exact absurd ⟨Int.le_refl 0, rfl⟩ refused
    · cases stepped
  | on_connect =>
    obtain ⟨b, moved, rfl⟩ := Option.map_eq_some_iff.mp stepped
    exact h.on_connect moved
  | server_read client chunk =>
    simp only [Loopback.step] at stepped
    split at stepped
    · next enabled =>
      obtain ⟨up, read, stepped⟩ := Option.bind_eq_some_iff.mp stepped
      obtain ⟨b, moved, same⟩ := Option.bind_eq_some_iff.mp stepped
      obtain ⟨server, -, told, rfl⟩ := Boot.server_cases moved
      cases same
      have piece : chunk.chunk <:+: bytes "hello world" := by
        have piece := Pipe.infix_of_read read
        rw [h.up] at piece
        split at piece
        · exact piece
        · exact absurd (List.infix_nil.mp piece) chunk.read
      have served := h.server (Server.step_cases told) (.inl rfl) fun _ _ base same _ _ _ => by
        cases same
        exact ⟨chunk, base_of_clean piece (by decide), piece⟩
      exact { served with up := (Pipe.sent_read read).trans h.up }
    · cases stepped
  | client_read chunk =>
    simp only [Loopback.step] at stepped
    split at stepped
    · obtain ⟨down, read, stepped⟩ := Option.bind_eq_some_iff.mp stepped
      obtain ⟨b, moved, same⟩ := Option.bind_eq_some_iff.mp stepped
      cases same
      exact h.client_read read moved
    · cases stepped

theorem conversation {events : List Event} (h : Trace.follow step init events = some w) : Correct w := by
  have inv : Inv w := by
    refine Trace.follow_induction (P := fun _ w => Inv w) inv_init ?_ h
    intro _ w e w' _ inv stepped
    exact inv.step stepped
  exact inv.correct

def turn (n : Nat) (job : Boot.Job) : List Event :=
  [.other (.loop (.Size n)), .other (.loop (.Pop job)), .other (.run 0 0 0)]

def pushes (jobs : List Boot.Job) : List Event :=
  .other (.loop (.Size 0)) :: jobs.map fun job => .other (.loop (.Push job))

def uv_run : Event := .other (.loop .uv_run)

def sample : List Event :=
  turn 2 .boot ++ turn 2 .server ++ turn 1 .timer ++ pushes [.server, .timer] ++ [.other .timer_cb, uv_run] ++
  turn 2 .server ++ turn 1 .timer ++ turn 1 .client ++ pushes [.server, .timer, .client] ++
  [.accept 1, .on_connect, .server_read 1 ⟨bytes "hello world", [0], by decide⟩, uv_run] ++
  turn 3 .server ++ turn 2 .timer ++ turn 1 .client ++ pushes [.server, .timer, .client] ++ [uv_run] ++
  turn 3 .server ++ turn 2 .timer ++ turn 1 .client ++ pushes [.server, .timer, .client] ++
  [.client_read ⟨response, [0], by decide⟩, uv_run] ++ turn 3 .server ++ turn 2 .timer ++ turn 1 .client

theorem conversation_sample :
    ∃ w, Trace.follow step init sample = some w ∧ w.boot.client.calls = [response] ∧ Correct w := by
  have run : (Trace.follow step init sample).map (·.boot.client.calls) = some [response] := by decide +kernel
  obtain ⟨w, reached, calls⟩ := Option.map_eq_some_iff.mp run
  exact ⟨w, reached, calls, conversation reached⟩

end Loopback

end Mygo
