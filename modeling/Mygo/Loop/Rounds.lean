import Mathlib.Logic.Relation
import Mygo.Lib.Worklist
import Mygo.Loop.Queue

namespace Mygo

universe u

namespace Loop

variable {T : Type u} [DecidableEq T]

structure Draining (T : Type u) where
  loop : Loop T
  posting : List T
  others : List T

/-- The steps of the inner loop and of those who post meanwhile; `posts` relates a task to the lists
that one run of it may post. -/
inductive Drains (posts : T → List T → Prop) : Draining T → Draining T → Prop
  | Size : l.step (.Size n) = some l' → Drains posts ⟨l, p, o⟩ ⟨l', p, o⟩
  | Pop : l.step (.Pop t) = some l' → posts t made → Drains posts ⟨l, p, o⟩ ⟨l', made, o⟩
  | PostTask : l.step (.PostTask t) = some l' → Drains posts ⟨l, t :: p, o⟩ ⟨l', p, o⟩
  | ran : l.step (.ran t state) = some l' → Drains posts ⟨l, [], o⟩ ⟨l', [], o⟩
  | other : l.step (.PostTask t) = some l' → Drains posts ⟨l, p, t :: o⟩ ⟨l', p, o⟩

def Child (posts : T → List T → Prop) (b a : T) : Prop := ∃ made, posts a made ∧ b ∈ made

def Calls_uv_run (l : Loop T) : Prop :=
  ∃ rest, l.control = .Push rest ∧ ∃ l', Trace.follow step l (rest.map .Push ++ [.uv_run]) = some l'

/-- The inner loop stops, and until `uv_run` is called it needs no other thread to go on. -/
structure RoundEnds (posts : T → List T → Prop) (s : Draining T) : Prop where
  stops : Worklist.Ends (Drains posts) s
  reaches : ∀ s', Relation.ReflTransGen (Drains posts) s s' →
    Calls_uv_run s'.loop ∨ ∃ s'', Drains posts s' s'' ∧ s''.others = s'.others

namespace Draining

variable {posts : T → List T → Prop} {s s' : Draining T}

def tasks (s : Draining T) : List T := s.loop.pending_tasks_ ++ s.posting ++ s.others

inductive Going : Draining T → Prop
  | Size : Going ⟨⟨q, nf, .Size⟩, [], o⟩
  | Pop : Going ⟨⟨t :: q, nf, .Pop⟩, [], o⟩
  | run : Going ⟨⟨q, nf, .run t⟩, p, o⟩
  | Push : Going ⟨⟨q, nf, .Push rest⟩, [], o⟩

theorem Going.step (going : Going s) (h : Drains posts s s') : Going s' := by
  cases h with
  | Size h =>
    cases step_cases h with
    | drained =>
      cases going
      exact .Push
    | Size =>
      cases going
      exact .Pop
  | Pop h =>
    cases step_cases h
    exact .run
  | ran h =>
    cases step_cases h with
    | keep | drop => exact .Size
  | PostTask h =>
    cases step_cases h
    cases going
    exact .run
  | other h =>
    cases step_cases h
    cases going with
    | Size => exact .Size
    | Pop => exact .Pop
    | run => exact .run
    | Push => exact .Push

def phase (s : Draining T) : Nat :=
  match s.loop.control with
  | .run _ => 2
  | .Size => 1
  | .Pop | .Push _ => 0

def rank (s : Draining T) : Nat := 3 * (s.posting.length + s.others.length) + s.phase

theorem Going.decreases (going : Going s) (h : Drains posts s s') :
    Worklist.Replaces (Child posts) s'.tasks s.tasks ∨
      (s'.tasks : Multiset T) = s.tasks ∧ s'.rank < s.rank := by
  cases h with
  | Size h =>
    right
    cases step_cases h with
    | drained | Size => exact ⟨rfl, by simp [rank, phase]⟩
  | @Pop l' t made l p o h posted =>
    left
    cases step_cases h
    cases going
    next q nf =>
    refine ⟨t, made, (q ++ o : List T), fun b member => ⟨made, posted, member⟩, ?_, ?_⟩
    · simp [tasks]
    · refine Multiset.coe_eq_coe.mpr ?_
      rw [tasks, ← List.append_assoc]
      exact List.perm_append_comm.append_right o
  | ran h =>
    right
    cases step_cases h with
    | keep | drop => exact ⟨rfl, by simp [rank, phase]⟩
  | PostTask h =>
    right
    cases step_cases h
    cases going
    exact ⟨by simp [tasks], by simp [rank, phase]⟩
  | @other l' l p t o h =>
    right
    cases step_cases h
    next q nf c =>
    refine ⟨Multiset.coe_eq_coe.mpr ?_, ?_⟩
    · simp only [tasks, List.append_assoc, List.singleton_append]
      exact (List.perm_middle.symm.append_left q).trans (by simp)
    · simp only [rank, phase, List.length_cons]
      omega

theorem Going.acc (going : Going s) (h : Drains posts s s') (acc : ∀ t ∈ s.tasks, Acc (Child posts) t) :
    ∀ t ∈ s'.tasks, Acc (Child posts) t := by
  intro t member
  rcases going.decreases h with ⟨a, made, rest, children, before, after⟩ | ⟨same, -⟩
  · have old : ∀ b ∈ ({a} + rest : Multiset T), Acc (Child posts) b := fun b hb =>
      acc b (Multiset.mem_coe.mp (before ▸ hb))
    have new : t ∈ made + rest := after ▸ Multiset.mem_coe.mpr member
    rcases Multiset.mem_add.mp new with child | kept
    · exact (old a (Multiset.mem_add.mpr (.inl (Multiset.mem_singleton_self a)))).inv (children t child)
    · exact old t (Multiset.mem_add.mpr (.inr kept))
  · exact acc t (Multiset.mem_coe.mp (same ▸ Multiset.mem_coe.mpr member))

theorem calls_uv_run (l : Loop T) (pushing : l.control = .Push rest) : Calls_uv_run l := by
  refine ⟨rest, pushing, ?_⟩
  induction rest generalizing l with
  | nil =>
    obtain ⟨q, nf, c⟩ := l
    cases pushing
    exact ⟨_, rfl⟩
  | cons t rest ih =>
    obtain ⟨q, nf, c⟩ := l
    cases pushing
    obtain ⟨l', reached⟩ := ih ⟨q ++ [t], nf, .Push rest⟩ rfl
    refine ⟨l', ?_⟩
    simpa [Trace.follow, step, Channel.Push] using reached

theorem Going.progress (returns : ∀ t, ∃ made, posts t made) (going : Going s) :
    Calls_uv_run s.loop ∨ ∃ s', Drains posts s s' ∧ s'.others = s.others := by
  cases going with
  | @Size q nf o =>
    right
    cases q with
    | nil => exact ⟨_, .Size (n := 0) rfl, rfl⟩
    | cons t q => exact ⟨_, .Size (n := q.length + 1) (if_pos rfl), rfl⟩
  | @Pop t q nf o =>
    right
    obtain ⟨made, posted⟩ := returns t
    exact ⟨_, .Pop (if_pos rfl) posted, rfl⟩
  | @run q nf t p o =>
    right
    cases p with
    | nil =>
      have returned : Loop.step ⟨q, nf, .run t⟩ (.ran t .Finished) = some ⟨q, nf, .Size⟩ := if_pos rfl
      exact ⟨_, .ran returned, rfl⟩
    | cons x p => exact ⟨_, .PostTask rfl, rfl⟩
  | Push => exact .inl (calls_uv_run _ rfl)

structure Endless (posts : T → List T → Prop) (s : Draining T) : Prop where
  going : Going s
  draining : ∀ rest, s.loop.control ≠ .Push rest
  task : ∃ t ∈ s.tasks, ¬ Acc (Child posts) t

theorem Endless.keeps (returns : ∀ t, ∃ made, posts t made) (endless : Endless posts s) :
    ∃ s', Drains posts s s' ∧ Endless posts s' := by
  obtain ⟨going, draining, t, member, infinite⟩ := endless
  cases going with
  | @Size q nf o =>
    cases q with
    | nil =>
      -- only another thread can still post such a task
      cases o with
      | nil => cases member
      | cons u o =>
        refine ⟨_, .other rfl, .Size, nofun, t, ?_, infinite⟩
        simpa [tasks, Channel.Push] using member
    | cons u q => exact ⟨_, .Size (n := q.length + 1) (if_pos rfl), .Pop, nofun, t, member, infinite⟩
  | @Pop u q nf o =>
    by_cases same : t = u
    · subst same
      obtain ⟨b, infinite', made, posted, child⟩ := exists_not_acc_lt_of_not_acc infinite
      exact ⟨_, .Pop (if_pos rfl) posted, .run, nofun, b, by simp [tasks, child], infinite'⟩
    · obtain ⟨made, posted⟩ := returns u
      refine ⟨_, .Pop (if_pos rfl) posted, .run, nofun, t, ?_, infinite⟩
      have other : t ∈ q ∨ t ∈ o := by simpa [tasks, same] using member
      rcases other with queued | later
      · simp [tasks, queued]
      · simp [tasks, later]
  | @run q nf u p o =>
    cases p with
    | nil =>
      have returned : Loop.step ⟨q, nf, .run u⟩ (.ran u .Finished) = some ⟨q, nf, .Size⟩ := if_pos rfl
      exact ⟨_, .ran returned, .Size, nofun, t, member, infinite⟩
    | cons x p =>
      refine ⟨_, .PostTask rfl, .run, nofun, t, ?_, infinite⟩
      simpa [tasks, Channel.Push] using member
  | Push => exact absurd rfl (draining _)

end Draining

omit [DecidableEq T] in
theorem tasks_start (pending_tasks_ others : List T) :
    Draining.tasks ⟨⟨pending_tasks_, [], .Size⟩, [], others⟩ = pending_tasks_ ++ others := by
  simp [Draining.tasks]

theorem RoundEnds.acc {posts : T → List T → Prop} {pending_tasks_ others : List T}
    (returns : ∀ t, ∃ made, posts t made)
    (h : RoundEnds posts ⟨⟨pending_tasks_, [], .Size⟩, [], others⟩) :
    ∀ t ∈ pending_tasks_ ++ others, Acc (Child posts) t := by
  intro t member
  by_contra infinite
  have endless : Draining.Endless posts ⟨⟨pending_tasks_, [], .Size⟩, [], others⟩ :=
    ⟨.Size, nofun, t, tasks_start pending_tasks_ others ▸ member, infinite⟩
  exact Worklist.not_acc_of_keeps (fun s => Draining.Endless.keeps returns) endless
    (Worklist.ends_iff_acc.mp h.stops)

/-- A round ends exactly when no task of the queue and none that another thread posts begins an
endless chain of tasks of which each is posted by a run of the one before. -/
theorem roundEnds_iff {posts : T → List T → Prop} (returns : ∀ t, ∃ made, posts t made)
    (pending_tasks_ others : List T) :
    RoundEnds posts ⟨⟨pending_tasks_, [], .Size⟩, [], others⟩ ↔
      ∀ t ∈ pending_tasks_ ++ others, Acc (Child posts) t := by
  constructor
  · exact RoundEnds.acc returns
  · intro acc
    constructor
    · rw [Worklist.ends_iff_acc]
      exact Worklist.acc_of_replaces (I := fun s => Draining.Going s ∧ ∀ t ∈ s.tasks, Acc (Child posts) t)
        (fun s => (s.tasks : Multiset T)) Draining.rank
        (fun s s' inv next => ⟨inv.1.step next, inv.1.acc next inv.2⟩)
        (fun s inv t member => inv.2 t member)
        (fun s s' inv next => inv.1.decreases next)
        ⟨.Size, tasks_start pending_tasks_ others ▸ acc⟩
    · intro s' reached
      have going : Draining.Going s' := by
        induction reached with
        | refl => exact .Size
        | tail _ next ih => exact ih.step next
      exact going.progress returns

theorem roundEnds_smaller :
    RoundEnds (fun t made => made = List.range t) ⟨⟨[2, 1], [], .Size⟩, [], [3]⟩ := by
  have returns : ∀ t : Nat, ∃ made, made = List.range t := fun t => ⟨_, rfl⟩
  refine (roundEnds_iff returns [2, 1] [3]).mpr fun t _ => ?_
  refine Subrelation.accessible ?_ (Nat.lt_wfRel.wf.apply t)
  rintro b a ⟨made, rfl, member⟩
  exact List.mem_range.mp member

/-- A task whose function posts the next: its round never ends. -/
theorem round_of_reposting_endless : ¬ RoundEnds (fun t made => made = [t + 1]) ⟨⟨[0], [], .Size⟩, [], []⟩ := by
  intro ends
  have returns : ∀ t : Nat, ∃ made, made = [t + 1] := fun t => ⟨_, rfl⟩
  have acc := ends.acc returns 0 (by decide)
  refine Worklist.not_acc_of_keeps (P := fun _ => True) (fun t _ => ?_) trivial acc
  exact ⟨t + 1, ⟨[t + 1], rfl, List.mem_singleton.mpr rfl⟩, trivial⟩

end Loop

end Mygo
