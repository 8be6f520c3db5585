import Mathlib.Data.List.TakeWhile
import Mygo.Loop.Client
import Mygo.Loop.Handles

namespace Mygo

/-- What `buf` is in a read callback that has read something: the block of `alloc_buffer`, with the
chunk at its beginning and behind it what `malloc` has left there. -/
structure ReadBuffer where
  chunk : Bytes
  tail : Bytes
  read : chunk ≠ []

namespace ReadBuffer

def nread (b : ReadBuffer) : Int := b.chunk.length

def base (b : ReadBuffer) : Bytes := b.chunk ++ b.tail

/-- The chunk has no zero, and what `malloc` has left begins with one. -/
def Terminated (b : ReadBuffer) : Prop := 0 ∉ b.chunk ∧ b.tail.head? = some 0

instance (b : ReadBuffer) : Decidable b.Terminated := inferInstanceAs (Decidable (_ ∧ _))

theorem nread_pos (b : ReadBuffer) : 0 < b.nread :=
  Int.natCast_pos.mpr (List.length_pos_iff.mpr b.read)

end ReadBuffer

/-- `std::string(const char*)` on a block; `none` reads behind it. -/
def std_string (block : Bytes) : Option Bytes :=
  if 0 ∈ block then some (TcpServerTask.c_str block) else none

def send_response (response : Bytes) : Bytes := TcpServerTask.c_str response

def TcpServerTask.SendData_write (s : TcpServerTask) (id : ConnectId) (data : Bytes) : Handle × Bytes :=
  ((s.SendData id).1, send_response (data ++ [0]))

section Blocks

variable {chunk tail data : Bytes}

theorem c_str_append (clean : 0 ∉ chunk) :
    TcpServerTask.c_str (chunk ++ tail) = chunk ++ TcpServerTask.c_str tail := by
  refine List.takeWhile_append_of_pos fun byte member => ?_
  have other : byte ≠ 0 := fun zero => clean (zero ▸ member)
  simpa using other

theorem c_str_clean : 0 ∉ TcpServerTask.c_str chunk := by
  intro member
  simpa using List.mem_takeWhile_imp member

theorem c_str_of_string (read : std_string chunk = some data) : TcpServerTask.c_str chunk = data := by
  rw [std_string] at read
  split at read
  · exact Option.some.inj read
  · cases read

theorem std_string_tail (clean : 0 ∉ chunk) :
    std_string (chunk ++ tail) = some chunk ↔ tail.head? = some 0 := by
  rw [std_string, c_str_append clean]
  cases tail with
  | nil => simp [clean]
  | cons byte rest =>
    by_cases zero : byte = 0
    · subst zero
      simp [TcpServerTask.c_str]
    · simp [TcpServerTask.c_str, zero]

theorem std_string_iff (b : ReadBuffer) : std_string b.base = some b.chunk ↔ b.Terminated := by
  by_cases clean : 0 ∈ b.chunk
  · refine iff_of_false (fun same => ?_) fun terminated => terminated.1 clean
    exact absurd clean (c_str_of_string same ▸ c_str_clean)
  · rw [ReadBuffer.base, std_string_tail clean]
    exact (and_iff_right clean).symm

theorem send_response_iff : send_response (data ++ [0]) = data ↔ 0 ∉ data := by
  constructor
  · intro same
    rw [← same]
    exact c_str_clean
  · intro clean
    rw [send_response, c_str_append clean, show TcpServerTask.c_str [0] = [] from rfl, List.append_nil]

end Blocks

namespace Server

def read_and_run (w : World) (client : Handle) (b : ReadBuffer) : Option World := do
  let _ ← std_string b.base
  Trace.follow step w [.on_read client b.nread b.base, .run 0 0, .run 0 0]

def Delivers (w : World) (client : Handle) (id : ConnectId) (b : ReadBuffer) : Prop :=
  ∃ w', read_and_run w client b = some w' ∧ w'.log.getLast? = some (.OnData id b.chunk)

def echo (w : World) (client : Handle) (b : ReadBuffer) : Option (Handle × Bytes) := do
  let w' ← read_and_run w client b
  match w'.log.getLast? with
  | some (.OnData id data) => some (w'.task.SendData_write id data)
  | _ => none

def Located (w : World) : Prop :=
  ∀ client id, w.net.connection client = some id → w.task.connection_handle_map_ id = some client

theorem Located.step {w w' : World} {e : Event} (located : Located w) (wired : Wired w)
    (numbered : Handles.Numbered w) (h : Step w e w') : Located w' := by
  cases h with
  | starting | idle | connect | data | refuse | empty => exact located
  | @accept client status on unused positive =>
    have task : w.task.on_new_connection 0 client 0 = _ :=
      if_neg (by decide : ¬ (0 : Int) < 0) |>.trans (if_pos rfl)
    have new_id : w.task.cur_connction_id_ + 1 = w.net.accepted.length := wired.counter
    intro other id open_
    simp only [task, TcpServerTask.new_connection_id, new_id]
    by_cases same : other = client
    · subst same
      cases (Function.update_self other _ w.net.connection).symm.trans open_
      exact Function.update_self ..
    · have earlier : w.net.connection other = some id := by
        rwa [← Function.update_of_ne same (some (w.net.accepted.length : ConnectId)) w.net.connection]
      have small := numbered id (wired.known other id earlier).2
      rw [Function.update_of_ne (Int.ne_of_lt small)]
      exact located other id earlier
  | @chunk client nread base id known =>
    have task : w.task.on_read client 1 base = _ := if_pos (by decide)
    rw [task]
    exact located
  | @close nread client base negative =>
    intro other id open_
    by_cases same : other = client
    · simp [same] at open_
    · exact located other id (by rwa [← Function.update_of_ne same none w.net.connection])

section Runs

variable {w : World}

theorem listening_state (on : w.listening = true) :
    w.task.state_.isError = false ∧ w.task.state_.isS0 = false := by
  simp only [World.listening, Task.State.isS1, beq_iff_eq] at on
  simp [Task.State.isError, Task.State.isS0, on]

theorem run_connect {event : ConnectEvent} (on : w.listening = true) (stored : w.task.new_connect_ = some event) :
    step w (.run 0 0) = some { w with
      task := { w.task with new_connect_ := none }
      log := w.log ++ [.OnConnect event.id] } := by
  obtain ⟨error, start⟩ := listening_state on
  simp [step, TcpServerTask.run, error, start, stored]

theorem run_data {event : DataEvent} (on : w.listening = true) (connect : w.task.new_connect_ = none)
    (stored : w.task.new_data_ = some event) : step w (.run 0 0) = some { w with
      task := { w.task with new_data_ := none }
      log := w.log ++ [.OnData event.id event.data] } := by
  obtain ⟨error, start⟩ := listening_state on
  simp [step, TcpServerTask.run, error, start, connect, stored]

theorem run_idle (on : w.listening = true) (connect : w.task.new_connect_ = none)
    (data : w.task.new_data_ = none) : step w (.run 0 0) = some w := by
  obtain ⟨error, start⟩ := listening_state on
  simp [step, TcpServerTask.run, error, start, connect, data]

end Runs

theorem arrives {w : World} {client : Handle} {id : ConnectId} {b : ReadBuffer} {data : Bytes}
    (wired : Wired w) (open_ : w.net.connection client = some id) (read : std_string b.base = some data) :
    ∃ w', step w (.on_read client b.nread b.base) = some w' ∧ w'.listening = true ∧
      w'.task.new_data_ = some ⟨id, data⟩ ∧
      w'.task.connection_handle_map_ = w.task.connection_handle_map_ := by
  obtain ⟨entry, member⟩ := wired.known client id open_
  have on : w.listening = true := by
    by_contra off
    exact absurd member (by simp [(wired.quiet (Bool.not_eq_true _ ▸ off)).2.2])
  simp only [step, open_, if_pos b.nread_pos, TcpServerTask.on_read, entry, c_str_of_string read]
  exact ⟨_, rfl, on, rfl, rfl⟩

theorem read_and_run_string {w : World} {client : Handle} {id : ConnectId} {b : ReadBuffer} {data : Bytes}
    (wired : Wired w) (open_ : w.net.connection client = some id) (read : std_string b.base = some data) :
    ∃ w', read_and_run w client b = some w' ∧ w'.log.getLast? = some (.OnData id data) ∧
      w'.task.connection_handle_map_ = w.task.connection_handle_map_ := by
  obtain ⟨w', arrived, on, data_, same⟩ := arrives wired open_ read
  simp only [read_and_run, read, Option.bind_eq_bind, Option.bind_some, Trace.follow, arrived]
  cases connect : w'.task.new_connect_ with
  | none =>
    rw [run_data on connect data_, Option.bind_some]
    exact ⟨_, Option.bind_eq_some_iff.mpr ⟨_, run_idle on connect rfl, rfl⟩, List.getLast?_concat, same⟩
  | some event =>
    rw [run_connect on connect, Option.bind_some]
    exact ⟨_, Option.bind_eq_some_iff.mpr ⟨_, run_data on rfl data_, rfl⟩, List.getLast?_concat, same⟩

theorem delivers_iff {w : World} {client : Handle} {id : ConnectId} {b : ReadBuffer} (wired : Wired w)
    (open_ : w.net.connection client = some id) : Delivers w client id b ↔ b.Terminated := by
  rw [← std_string_iff]
  cases read : std_string b.base with
  | none =>
    refine iff_of_false ?_ nofun
    rintro ⟨w', run, -⟩
    simp [read_and_run, read] at run
  | some data =>
    obtain ⟨w', run, last, -⟩ := read_and_run_string wired open_ read
    constructor
    · rintro ⟨w'', run', last'⟩
      cases run.symm.trans run'
      cases last.symm.trans last'
      rfl
    · intro same
      cases same
      exact ⟨w', run, last⟩

theorem echo_string {w : World} {client : Handle} {id : ConnectId} {b : ReadBuffer} (wired : Wired w)
    (located : Located w) (open_ : w.net.connection client = some id) :
    echo w client b = (std_string b.base).map (client, ·) := by
  cases read : std_string b.base with
  | none => simp [echo, read_and_run, read]
  | some data =>
    obtain ⟨w', run, last, same⟩ := read_and_run_string wired open_ read
    have clean : 0 ∉ data := c_str_of_string read ▸ c_str_clean
    have handle : (w'.task.SendData id).1 = client := by
      rw [TcpServerTask.SendData, same, located client id open_]
      rfl
    simp [echo, run, last, TcpServerTask.SendData_write, handle, send_response_iff.mpr clean]

end Server

namespace Client

def read_and_run (s : TcpClientTask) (b : ReadBuffer) : Option (List Request) := do
  let _ ← std_string b.base
  let (s, _) ← s.on_read b.nread b.base
  let (_, requests) ← s.run
  some requests

def Delivers (s : TcpClientTask) (b : ReadBuffer) : Prop :=
  read_and_run s b = some [.call_back_ b.chunk]

theorem read_and_run_string {s : TcpClientTask} {b : ReadBuffer} (asserted : s.state_.isS2 = true) :
    read_and_run s b = (std_string b.base).map fun data => [.call_back_ data] := by
  obtain ⟨⟨internal_⟩, need_send_, response_⟩ := s
  have two : internal_ = 2 := beq_iff_eq.mp asserted
  subst two
  rw [read_and_run, TcpClientTask.on_read, if_pos asserted, if_pos b.nread_pos, std_string]
  split
  · rfl
  · rfl

theorem delivers_iff {s : TcpClientTask} {b : ReadBuffer} (asserted : s.state_.isS2 = true) :
    Delivers s b ↔ b.Terminated := by
  rw [← std_string_iff, Delivers, read_and_run_string asserted]
  cases std_string b.base with
  | none => simp
  | some data => simp

end Client

theorem Handles.located {events : List Event} {w : World} (h : Trace.follow step init events = some w) :
    Server.Located w.server := by
  refine Trace.follow_induction (P := fun _ w => Server.Located w.server) ?_ ?_ h
  · intro client id open_
    cases open_
  intro events w e w' reached located he
  cases e with
  | server e =>
    obtain ⟨wired, numbered⟩ := wired_numbered reached
    exact located.step wired numbered (Server.step_cases (server_step he).1)
  | SendData id =>
    cases he
    intro client id' open_
    have entry := located client id' open_
    by_cases same : id' = id
    · subst same
      simp [entry]
    · simp [Function.update_of_ne same, entry]
  | close_cb client =>
    simp only [step] at he
    split at he
    · cases he
      exact located
    · cases he

/-- A chunk goes to a server that echoes and comes back to the client, where `malloc` has left `tail`
behind it. -/
def ComesBack (w : Server.World) (client : Handle) (s : TcpClientTask) (b : ReadBuffer) (tail : Bytes) : Prop :=
  ∃ data, ∃ more : data ≠ [], Server.echo w client b = some (client, data) ∧
    Client.read_and_run s ⟨data, tail, more⟩ = some [.call_back_ b.chunk]

theorem comesBack_iff {w : Server.World} {client : Handle} {id : ConnectId} {s : TcpClientTask} {b : ReadBuffer}
    {tail : Bytes} (wired : Server.Wired w) (located : Server.Located w)
    (open_ : w.net.connection client = some id) (asserted : s.state_.isS2 = true) :
    ComesBack w client s b tail ↔ b.Terminated ∧ tail.head? = some 0 := by
  simp only [ComesBack, Server.echo_string wired located open_, Client.read_and_run_string asserted]
  constructor
  · rintro ⟨data, more, echoed, back⟩
    obtain ⟨data', there, same⟩ := Option.map_eq_some_iff.mp echoed
    obtain ⟨chunk, again, same'⟩ := Option.map_eq_some_iff.mp back
    cases same
    cases same'
    have clean : 0 ∉ data := c_str_of_string there ▸ c_str_clean
    have clean' : 0 ∉ b.chunk := c_str_of_string again ▸ c_str_clean
    -- each way the chunk can only get longer
    have longer : b.chunk ++ TcpServerTask.c_str b.tail = data := by
      rw [← c_str_append clean']
      exact c_str_of_string there
    have longer' : data ++ TcpServerTask.c_str tail = b.chunk := by
      rw [← c_str_append clean]
      exact c_str_of_string again
    have whole : data = b.chunk := by
      have lengths := congrArg List.length longer
      have lengths' := congrArg List.length longer'
      simp only [List.length_append] at lengths lengths'
      have empty : TcpServerTask.c_str tail = [] := List.eq_nil_of_length_eq_zero (by omega)
      rwa [empty, List.append_nil] at longer'
    subst whole
    exact ⟨(std_string_iff b).mp there, (std_string_tail clean).mp again⟩
  · rintro ⟨terminated, first⟩
    refine ⟨b.chunk, b.read, ?_, ?_⟩
    · rw [(std_string_iff b).mpr terminated]
      rfl
    · rw [(std_string_iff ⟨b.chunk, tail, b.read⟩).mpr ⟨terminated.1, first⟩]
      rfl

/-- What is read arrives as it was read exactly when it has no zero byte and one follows it in its
block, what is sent is handed on as it is exactly when it has no zero byte, and a chunk comes back
as it was sent exactly when its strings end with it on both ways. -/
theorem transmitted_iff {events : List Handles.Event} {w : Handles.World} {client : Handle} {id : ConnectId}
    {s : TcpClientTask} (reached : Trace.follow Handles.step Handles.init events = some w)
    (open_ : w.server.net.connection client = some id) (asserted : s.state_.isS2 = true) :
    (∀ b, Server.Delivers w.server client id b ↔ b.Terminated) ∧
      (∀ b, Client.Delivers s b ↔ b.Terminated) ∧
      (∀ receiver data, (w.server.task.SendData_write receiver data).2 = data ↔ 0 ∉ data) ∧
      ∀ b tail, ComesBack w.server client s b tail ↔ b.Terminated ∧ tail.head? = some 0 := by
  obtain ⟨wired, numbered⟩ := Handles.wired_numbered reached
  refine ⟨fun b => Server.delivers_iff wired open_, fun b => Client.delivers_iff asserted, ?_, ?_⟩
  · exact fun _ _ => send_response_iff
  · exact fun b tail => comesBack_iff wired (Handles.located reached) open_ asserted

theorem transmitted_sample :
    ∃ w, Trace.follow Handles.step Handles.init [.server (.run 0 0), .server (.on_new_connection 0 1 0)] = some w ∧
      Server.Delivers w.server 1 0 ⟨[65, 66], [0, 67], by decide⟩ ∧
      ComesBack w.server 1 ⟨⟨2⟩, [], []⟩ ⟨[65, 66], [0, 67], by decide⟩ [0] := by
  obtain ⟨w, reached, open_⟩ : ∃ w, Trace.follow Handles.step Handles.init
      [.server (.run 0 0), .server (.on_new_connection 0 1 0)] = some w ∧
      w.server.net.connection 1 = some 0 := ⟨_, rfl, rfl⟩
  obtain ⟨delivers, -, -, back⟩ := transmitted_iff (s := ⟨⟨2⟩, [], []⟩) reached open_ rfl
  exact ⟨w, reached, (delivers _).mpr (by decide), (back _ _).mpr (by decide)⟩

/-- A zero byte ends what is delivered and what is sent, and without one the string goes on behind
the chunk. -/
theorem zero_byte_cuts :
    ∃ w, Trace.follow Handles.step Handles.init [.server (.run 0 0), .server (.on_new_connection 0 1 0)] = some w ∧
      (Server.read_and_run w.server 1 ⟨[65, 0, 66], [0], by decide⟩).map (·.log) =
        some [.OnConnect 0, .OnData 0 [65]] ∧
      (Server.read_and_run w.server 1 ⟨[65, 66], [67, 0], by decide⟩).map (·.log) =
        some [.OnConnect 0, .OnData 0 [65, 66, 67]] ∧
      Server.read_and_run w.server 1 ⟨[65, 66], [], by decide⟩ = none ∧
      (w.server.task.SendData_write 0 [65, 0, 66]).2 = [65] ∧
      ¬ (∀ b, Server.Delivers w.server 1 0 b) := by
  refine ⟨_, rfl, rfl, rfl, rfl, rfl, fun delivers => ?_⟩
  obtain ⟨w', run, last⟩ := delivers ⟨[65, 0, 66], [0], by decide⟩
  cases run
  exact absurd last (by decide)

end Mygo
