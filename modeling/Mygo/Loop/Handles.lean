import Mygo.Loop.Server

/-! The handles of a server's connections: addresses that are freed and given out again, the maps
between them and the connection ids, and `SendData`. -/

namespace Mygo

def null : Handle := 0

/-- The handle `SendData` writes to; `operator[]` inserts a null pointer for an id that is
missing. -/
def TcpServerTask.SendData (s : TcpServerTask) (id : ConnectId) : Handle × TcpServerTask :=
  let stream := (s.connection_handle_map_ id).getD null
  (stream, { s with connection_handle_map_ := Function.update s.connection_handle_map_ id (some stream) })

namespace Handles

inductive Event
  | server (e : Server.Event)
  | SendData (id : ConnectId)
  | close_cb (client : Handle)

structure Write where
  id : ConnectId
  connection : Option ConnectId

/-- `closing` handles are closed but not freed yet. -/
structure World where
  server : Server.World
  closing : Handle → Bool
  writes : List Write

def init : World := ⟨Server.init, fun _ => false, []⟩

def World.fresh (w : World) : Server.Event → Bool
  | .on_new_connection _ client _ => client ≠ null && !w.closing client
  | _ => true

def closes : Server.Event → Option Handle
  | .on_new_connection status client accepted =>
    if 0 ≤ status ∧ accepted ≠ 0 then some client else none
  | .on_read client nread _ => if nread < 0 then some client else none
  | .run _ _ => none

def step (w : World) : Event → Option World
  | .server e =>
    if w.fresh e then
      (Server.step w.server e).map fun server =>
        { w with
          server := server
          closing := match closes e with
            | some client => Function.update w.closing client true
            | none => w.closing }
    else none
  | .SendData id =>
    let (stream, task) := w.server.task.SendData id
    some { w with
      server := { w.server with task := task }
      writes := w.writes ++ [⟨id, w.server.net.connection stream⟩] }
  | .close_cb client =>
    if w.closing client then some { w with closing := Function.update w.closing client false }
    else none

/-- The maps are inverse to each other, their ids are those of the open connections, and every
call of `SendData` has written to the connection with its id. -/
structure Corresponds (w : World) : Prop where
  inverse : ∀ id client, w.server.task.connection_handle_map_ id = some client ↔
    w.server.task.connection_id_map_ client = some id
  ids : ∀ id, (∃ client, w.server.task.connection_handle_map_ id = some client) ↔
    ∃ client, w.server.net.connection client = some id
  writes : ∀ write ∈ w.writes, write.connection = some write.id

/-- No connection is closed, and data is sent on an open connection. -/
def World.Keeps (w : World) : Event → Prop
  | .server (.on_read _ nread _) => 0 ≤ nread
  | .server _ => True
  | .SendData id => ∃ client, w.server.net.connection client = some id
  | .close_cb _ => True

def Numbered (w : Server.World) : Prop := ∀ id ∈ w.net.accepted, id < w.net.accepted.length

theorem Numbered.step {w w' : Server.World} {e : Server.Event} (numbered : Numbered w)
    (h : Server.Step w e w') : Numbered w' := by
  cases h with
  | accept =>
    intro id member
    simp only [List.length_append, List.length_singleton, Int.natCast_add, Int.natCast_one]
    rcases List.mem_append.mp member with old | new
    · exact Int.lt_add_one_of_le (Int.le_of_lt (numbered id old))
    · rw [List.mem_singleton.mp new]
      exact Int.lt_add_one_of_le (Int.le_refl _)
  | starting | idle | connect | data | refuse | chunk | close | empty => exact numbered

structure Mirror (w : Server.World) : Prop where
  handles : ∀ id client, w.task.connection_handle_map_ id = some client ↔
    w.net.connection client = some id
  ids : ∀ client id, w.task.connection_id_map_ client = some id ↔ w.net.connection client = some id

theorem Mirror.step {w w' : Server.World} {e : Server.Event} (mirror : Mirror w)
    (wired : Server.Wired w) (numbered : Numbered w) (h : Server.Step w e w')
    (open_ : ∀ client nread base, e = .on_read client nread base → 0 ≤ nread) : Mirror w' := by
  obtain ⟨handles, ids⟩ := mirror
  cases h with
  | starting | idle | connect | data | refuse | empty => exact ⟨handles, ids⟩
  | @accept client status on unused =>
    have task : w.task.on_new_connection 0 client 0 = _ :=
      if_neg (by decide : ¬ (0 : Int) < 0) |>.trans (if_pos rfl)
    have new_id : w.task.cur_connction_id_ + 1 = w.net.accepted.length := wired.counter
    have unknown : ∀ client', w.net.connection client' ≠ some (w.net.accepted.length : ConnectId) := by
      intro client' h
      exact absurd (numbered _ (wired.known client' _ h).2) (Int.lt_irrefl _)
    rw [task]
    constructor
    · intro id client'
      simp only [TcpServerTask.new_connection_id, new_id]
      by_cases same : client' = client
      · subst same
        by_cases new : id = w.net.accepted.length
        · simp [new]
        · simp [Function.update_of_ne new, handles, unused, Ne.symm new]
      · by_cases new : id = w.net.accepted.length
        · simp [new, Function.update_of_ne same, unknown, Ne.symm same]
        · simp [Function.update_of_ne new, Function.update_of_ne same, handles]
    · intro client' id
      simp only [TcpServerTask.new_connection_id, new_id]
      by_cases same : client' = client
      · simp [same]
      · simp [Function.update_of_ne same, ids]
  | @chunk client nread base id known =>
    have task : w.task.on_read client 1 base = _ := if_pos (by decide)
    have entry : w.task.connection_id_map_ client = some id := (ids client id).mpr known
    have same : Function.update w.task.connection_id_map_ client (some id) = w.task.connection_id_map_ := by
      rw [← entry, Function.update_eq_self]
    rw [task]
    exact ⟨handles, by simpa [entry, same] using ids⟩
  | @close nread client base negative => exact absurd (open_ client nread base rfl) (by omega)

theorem server_step {w w' : World} {e : Server.Event} (h : step w (.server e) = some w') :
    Server.step w.server e = some w'.server ∧ w'.writes = w.writes := by
  simp only [step] at h
  split at h
  · obtain ⟨server, next, rfl⟩ := Option.map_eq_some_iff.mp h
    exact ⟨next, rfl⟩
  · cases h

theorem wired_numbered {events : List Event} {w : World} (h : Trace.follow step init events = some w) :
    Server.Wired w.server ∧ Numbered w.server := by
  refine Trace.follow_induction (P := fun _ w => Server.Wired w.server ∧ Numbered w.server) ?_ ?_ h
  · have start : Trace.follow Server.step Server.init [] = some Server.init := rfl
    exact ⟨Server.wired start, nofun⟩
  · rintro _ w e w' - ⟨wired, numbered⟩ he
    cases e with
    | server e =>
      have next := Server.step_cases (server_step he).1
      exact ⟨wired.step next, numbered.step next⟩
    | SendData id =>
      cases he
      exact ⟨⟨wired.counter, wired.known, wired.sources, wired.quiet⟩, numbered⟩
    | close_cb client =>
      simp only [step] at he
      split at he
      · cases he
        exact ⟨wired, numbered⟩
      · cases he

theorem Mirror.send {w : Server.World} {id : ConnectId} (mirror : Mirror w)
    (known : ∃ client, w.net.connection client = some id) :
    w.net.connection (w.task.SendData id).1 = some id ∧ (w.task.SendData id).2 = w.task := by
  obtain ⟨client, open_⟩ := known
  have entry := (mirror.handles id client).mpr open_
  simp only [TcpServerTask.SendData, entry, Option.getD_some]
  refine ⟨open_, ?_⟩
  rw [← entry, Function.update_eq_self]

theorem mirror_of_keeps {events : List Event}
    (keeps : ∀ pre e w w', pre ++ [e] <+: events → Trace.follow step init pre = some w →
      step w e = some w' → w.Keeps e)
    {pre : List Event} {w : World} (inside : pre <+: events) (reached : Trace.follow step init pre = some w) :
    Mirror w.server ∧ ∀ write ∈ w.writes, write.connection = some write.id := by
  refine Trace.follow_induction (P := fun pre w => pre <+: events →
    Mirror w.server ∧ ∀ write ∈ w.writes, write.connection = some write.id) ?_ ?_ reached inside
  · exact fun _ => ⟨⟨fun _ _ => ⟨nofun, nofun⟩, fun _ _ => ⟨nofun, nofun⟩⟩, nofun⟩
  · intro pre w e w' reached ih he inside
    obtain ⟨mirror, writes⟩ := ih ((List.prefix_append _ _).trans inside)
    have kept := keeps pre e w w' inside reached he
    cases e with
    | server e =>
      obtain ⟨next, same⟩ := server_step he
      obtain ⟨wired, numbered⟩ := wired_numbered reached
      refine ⟨mirror.step wired numbered (Server.step_cases next) ?_, same ▸ writes⟩
      rintro client nread base rfl
      exact kept
    | SendData id =>
      obtain ⟨target, same⟩ := mirror.send kept
      simp only [step, same, target] at he
      cases he
      exact ⟨mirror, List.forall_mem_append.mpr ⟨writes, List.forall_mem_singleton.mpr rfl⟩⟩
    | close_cb client =>
      simp only [step] at he
      split at he
      · cases he
        exact ⟨mirror, writes⟩
      · cases he

/-- A closed connection leaves its entries behind, and a missing id gets one. -/
theorem keeps_of_corresponds {w w' : World} {e : Event} (wired : Server.Wired w.server)
    (before : Corresponds w) (he : step w e = some w') (after : Corresponds w') : w.Keeps e := by
  cases e with
  | server e =>
    cases e with
    | on_read client nread base =>
      by_contra negative
      have closed : nread < 0 := Int.not_le.mp negative
      have idle : w.server.task.on_read client nread base = w.server.task :=
        if_neg (Int.not_lt.mpr (Int.le_of_lt closed))
      have next := (server_step he).1
      simp only [Server.step, idle, if_neg (Int.not_lt.mpr (Int.le_of_lt closed)), if_pos closed] at next
      split at next
      · cases next
      · next id open_ =>
        have task := congrArg Server.World.task (Option.some.inj next)
        have net := congrArg Server.World.net (Option.some.inj next)
        -- the entry of the closed connection stays, so another open one must have its id
        obtain ⟨entry, kept⟩ := (before.ids id).mpr ⟨client, open_⟩
        obtain ⟨other, still⟩ := (after.ids id).mp ⟨entry, by rw [← task]; exact kept⟩
        rw [← net] at still
        have differs : other ≠ client := by
          rintro rfl
          simp at still
        have still' : w.server.net.connection other = some id := by
          simpa [Function.update_of_ne differs] using still
        have first := (before.inverse id client).mpr (wired.known client id open_).1
        have second := (before.inverse id other).mpr (wired.known other id still').1
        exact differs (Option.some.inj (second.symm.trans first))
    | run => exact trivial
    | on_new_connection => exact trivial
  | SendData id =>
    cases he
    exact (after.ids id).mp ⟨_, Function.update_self _ _ _⟩
  | close_cb client => exact trivial

/-- The maps correspond to the open connections, in every state of a run, exactly when the run
closes no connection and sends only on open ones. -/
theorem corresponds_iff_keeps (events : List Event) :
    (∀ pre w, pre <+: events → Trace.follow step init pre = some w → Corresponds w) ↔
      ∀ pre e w w', pre ++ [e] <+: events → Trace.follow step init pre = some w →
        step w e = some w' → w.Keeps e := by
  constructor
  · intro good pre e w w' inside reached he
    have reached' := Trace.follow_snoc.mpr ⟨w, reached, he⟩
    exact keeps_of_corresponds (wired_numbered reached).1
      (good pre w ((List.prefix_append _ _).trans inside) reached) he (good _ w' inside reached')
  · intro keeps pre w inside reached
    obtain ⟨mirror, writes⟩ := mirror_of_keeps keeps inside reached
    refine ⟨fun id client => (mirror.handles id client).trans (mirror.ids client id).symm, ?_, writes⟩
    exact fun id => exists_congr (mirror.handles id)

/-- The address of a closed connection is given to a later one, which gets the data sent to the
first. -/
theorem reused_handle_gets_data :
    ∃ w, Trace.follow step init [.server (.run 0 0), .server (.on_new_connection 0 1 0),
        .server (.on_read 1 (-1) []), .close_cb 1, .server (.on_new_connection 0 1 0), .SendData 0] =
        some w ∧
      w.writes.map (fun write => (write.id, write.connection)) = [(0, some 1)] ∧ ¬ Corresponds w := by
  refine ⟨_, rfl, rfl, fun corresponds => ?_⟩
  exact absurd (corresponds.writes _ (List.mem_singleton.mpr rfl)) (by decide)

end Handles

end Mygo
