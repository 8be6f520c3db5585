import Mathlib.Tactic

universe u

namespace RoundRobin

variable {T : Type u}

structure Schedule (T : Type u) where
  waiting : List T
  active : Option T

def Schedule.order (s : Schedule T) : List T := s.waiting ++ s.active.toList

inductive Event (T : Type u)
  | join (t : T)
  | start (t : T)
  | yield (t : T)
  | leave (t : T)
  deriving DecidableEq

inductive Step : Schedule T → Event T → Schedule T → Prop
  | join (a b : List T) (t : T) (active : Option T) : Step ⟨a ++ b, active⟩ (.join t) ⟨a ++ t :: b, active⟩
  | start (t : T) (rest : List T) : Step ⟨t :: rest, none⟩ (.start t) ⟨rest, some t⟩
  | yield (t : T) (rest : List T) : Step ⟨rest, some t⟩ (.yield t) ⟨rest ++ [t], none⟩
  | leave (t : T) (rest : List T) : Step ⟨rest, some t⟩ (.leave t) ⟨rest, none⟩

inductive Run : Schedule T → List (Event T) → Schedule T → Prop
  | nil (s : Schedule T) : Run s [] s
  | cons {s s₁ s' : Schedule T} {e : Event T} {es : List (Event T)} (first : Step s e s₁) (rest : Run s₁ es s') :
      Run s (e :: es) s'

theorem Run.append {s s₁ s' : Schedule T} {es es' : List (Event T)} (h : Run s es s₁) (h' : Run s₁ es' s') :
    Run s (es ++ es') s' := by
  induction h with
  | nil => exact h'
  | cons first _ ih => exact .cons first (ih h')

theorem Run.single {s s' : Schedule T} {e : Event T} (h : Step s e s') : Run s [e] s' := .cons h (.nil s')

def Event.joins : Event T → List T
  | .join t => [t]
  | _ => []

def joined (es : List (Event T)) : List T := es.flatMap Event.joins

def Fresh (s : Schedule T) (es : List (Event T)) : Prop := (s.order ++ joined es).Nodup

variable {s s₁ s' : Schedule T} {e : Event T} {es : List (Event T)} {t v : T}

theorem Fresh.order (h : Fresh s es) : s.order.Nodup := h.sublist (List.sublist_append_left _ _)

theorem Fresh.not_joined (h : Fresh s es) (member : t ∈ s.order) : t ∉ joined es :=
  fun again => List.disjoint_of_nodup_append h member again

theorem Fresh.step (h : Fresh s (e :: es)) (step : Step s e s₁) : Fresh s₁ es := by
  unfold Fresh joined at h ⊢
  cases step with
  | join a b t active =>
    classical
    refine (List.Perm.nodup_iff ?_).mp h
    rw [List.perm_iff_count]
    intro x
    simp [Schedule.order, Event.joins, List.count_cons]
    omega
  | start t rest =>
    refine (List.Perm.nodup_iff ?_).mp h
    simp only [Schedule.order, Event.joins, Option.toList, List.flatMap_cons, List.nil_append, List.append_nil]
    exact (List.perm_append_singleton t rest).symm.append_right _
  | yield t rest => simpa [Schedule.order, Event.joins] using h
  | leave t rest =>
    refine h.sublist ?_
    simp only [Schedule.order, Event.joins, Option.toList, List.flatMap_cons, List.nil_append, List.append_nil]
    exact (List.sublist_append_left _ _).append_right _

theorem Run.nodup (run : Run s es s') (fresh : Fresh s es) : s'.order.Nodup := by
  induction run with
  | nil => exact fresh.order
  | cons first _ ih => exact ih (fresh.step first)

section Pairs

variable {l rest : List T} {u w : T}

theorem pair_tail (h : [u, v].Sublist (w :: rest)) (other : w ≠ u) : [u, v].Sublist rest := by
  rcases List.sublist_cons_iff.mp h with later | ⟨r, same, -⟩
  · exact later
  · cases same
    exact absurd rfl other

theorem pair_init (h : [u, v].Sublist (rest ++ [w])) (other : w ≠ v) : [u, v].Sublist rest := by
  obtain ⟨a, b, same, first, last⟩ := List.sublist_append_iff.mp h
  rcases List.sublist_singleton.mp last with rfl | rfl
  · rw [List.append_nil] at same
    exact same ▸ first
  · have ends := congrArg List.getLast? same
    rw [List.getLast?_append] at ends
    exact absurd (Option.some.inj ends).symm other

theorem pair_turn (h : [u, v].Sublist (w :: rest)) (other : w ≠ u) : [u, v].Sublist (rest ++ [w]) :=
  (pair_tail h other).trans (List.sublist_append_left _ _)

theorem pair_head (nodup : (v :: rest).Nodup) (other : u ≠ v) : ¬ [u, v].Sublist (v :: rest) := by
  intro h
  have later := (pair_tail h other.symm).subset (List.mem_cons_of_mem u List.mem_cons_self)
  exact (List.nodup_cons.mp nodup).1 later

end Pairs

theorem Run.gone (run : Run s es s') (absent : t ∉ s.order) (never : t ∉ joined es) : t ∉ s'.order := by
  induction run with
  | nil => exact absent
  | cons first _ ih =>
    rw [joined, List.flatMap_cons, List.mem_append, not_or] at never
    refine ih ?_ never.2
    cases first with
    | join a b x active =>
      have other : t ≠ x := by simpa [Event.joins] using never.1
      simpa [Schedule.order, other] using absent
    | start x rest =>
      simpa [Schedule.order, and_comm] using absent
    | yield x rest => simpa [Schedule.order] using absent
    | leave x rest =>
      simp only [Schedule.order, Option.toList, List.mem_append, not_or, List.append_nil] at absent ⊢
      exact absent.1

theorem Run.stayed (run : Run s es s') (fresh : Fresh s es) (there : t ∈ s.order) (still : t ∈ s'.order) :
    .leave t ∉ es := by
  induction run with
  | nil => exact nofun
  | @cons s s₁ s' e es first rest ih =>
    have never := fresh.not_joined there
    rw [joined, List.flatMap_cons, List.mem_append, not_or] at never
    have nodup := fresh.order
    have fresh' := fresh.step first
    by_cases there' : t ∈ s₁.order
    · rw [List.mem_cons, not_or]
      refine ⟨?_, ih fresh' there' still⟩
      rintro rfl
      cases first with
      | leave x rest' =>
        have split : (rest' ++ [t]).Nodup := nodup
        have member : t ∈ rest' := by simpa [Schedule.order] using there'
        exact List.disjoint_of_nodup_append split member List.mem_cons_self
    · exact absurd still (rest.gone there' never.2)

theorem Run.waits (run : Run s es s') (fresh : Fresh s es) (behind : v ∉ s.order ∨ [t, v].Sublist s.order)
    (never : v ∉ joined es) (idle : .start t ∉ es) (stays : .leave t ∉ es) (other : t ≠ v) : .start v ∉ es := by
  induction run with
  | nil => exact nofun
  | @cons s s₁ s' e es first rest ih =>
    rw [joined, List.flatMap_cons, List.mem_append, not_or] at never
    rw [List.mem_cons, not_or] at idle stays
    rw [List.mem_cons, not_or]
    have nodup := fresh.order
    have later := fun behind' => ih (fresh.step first) behind' never.2 idle.2 stays.2
    cases first with
    | join a b x active =>
      refine ⟨nofun, later ?_⟩
      have new : v ≠ x := by simpa [Event.joins] using never.1
      rcases behind with gone | ahead
      · exact .inl (by simpa [Schedule.order, new] using gone)
      · refine .inr (ahead.trans ?_)
        simp only [Schedule.order, List.append_assoc, List.cons_append]
        exact (List.Sublist.refl a).append (List.sublist_cons_self _ _)
    | start x rest' =>
      have order : Schedule.order ⟨x :: rest', none⟩ = x :: rest' := List.append_nil _
      rw [order] at behind nodup
      have distinct : x ≠ t := fun same => idle.1 (same ▸ rfl)
      refine ⟨?_, later ?_⟩
      · rintro ⟨⟩
        rcases behind with gone | ahead
        · exact gone List.mem_cons_self
        · exact pair_head nodup other ahead
      · rcases behind with gone | ahead
        · exact .inl (by simpa [Schedule.order, and_comm] using gone)
        · exact .inr (pair_turn ahead distinct)
    | yield x rest' => exact ⟨nofun, later (by simpa [Schedule.order] using behind)⟩
    | leave x rest' =>
      refine ⟨nofun, later ?_⟩
      have order : Schedule.order ⟨rest', none⟩ = rest' := List.append_nil _
      rw [order]
      have full : Schedule.order ⟨rest', some x⟩ = rest' ++ [x] := rfl
      rw [full] at behind nodup
      rcases behind with gone | ahead
      · exact .inl fun member => gone (List.mem_append_left _ member)
      · by_cases same : x = v
        · subst same
          exact .inl fun member => List.disjoint_of_nodup_append nodup member List.mem_cons_self
        · exact .inr (pair_init ahead same)

theorem Run.once [DecidableEq T] (run : Run s es s') (fresh : Fresh s es) (there : t ∈ s.order) (idle : .start t ∉ es)
    (stays : .leave t ∉ es) (other : t ≠ v) : es.count (.start v) ≤ 1 := by
  induction run with
  | nil => exact Nat.zero_le _
  | @cons s s₁ s' e es first rest ih =>
    rw [List.mem_cons, not_or] at idle stays
    have fresh' := fresh.step first
    by_cases turn : e = .start v
    · subst turn
      have none : .start v ∉ es := by
        cases first with
        | start _ rest' =>
          have waiting : t ∈ rest' := by
            simpa [Schedule.order, other] using there
          have pair : [t, v].Sublist (rest' ++ [v]) := (List.singleton_sublist.mpr waiting).append (.refl [v])
          have never := fresh'.not_joined (List.mem_append_right _ List.mem_cons_self)
          exact rest.waits fresh' (.inr pair) never idle.2 stays.2 other
      rw [List.count_cons_self, List.count_eq_zero.mpr none]
    · rw [List.count_cons_of_ne turn]
      refine ih fresh' ?_ idle.2 stays.2
      cases first with
      | join a b x active =>
        simp only [Schedule.order, List.mem_append, List.mem_cons] at there ⊢
        tauto
      | start x rest' =>
        simpa [Schedule.order, or_comm] using there
      | yield x rest' => simpa [Schedule.order] using there
      | leave x rest' =>
        have distinct : t ≠ x := fun same => stays.1 (same ▸ rfl)
        simpa [Schedule.order, distinct] using there

theorem Run.ahead (run : Run s es s') (ahead : [v, t].Sublist s.order) (idle : .start v ∉ es) (stays : .leave t ∉ es) :
    [v, t].Sublist s'.order := by
  induction run with
  | nil => exact ahead
  | cons first rest ih =>
    rw [List.mem_cons, not_or] at idle stays
    refine ih ?_ idle.2 stays.2
    cases first with
    | join a b x active =>
      refine ahead.trans ?_
      simp only [Schedule.order, List.append_assoc, List.cons_append]
      exact (List.Sublist.refl a).append (List.sublist_cons_self _ _)
    | start x rest' =>
      have order : Schedule.order ⟨x :: rest', none⟩ = x :: rest' := List.append_nil _
      rw [order] at ahead
      exact pair_turn ahead fun same => idle.1 (same ▸ rfl)
    | yield x rest' => simpa [Schedule.order] using ahead
    | leave x rest' =>
      have order : Schedule.order ⟨rest', none⟩ = rest' := List.append_nil _
      rw [order]
      exact pair_init ahead fun same => stays.1 (same ▸ rfl)

/-- Between two turns of `t` everybody who was there has one. -/
theorem Run.turns [DecidableEq T] {s'' : Schedule T} (first : Step s (.start t) s₁) (run : Run s₁ es s')
    (again : Step s' (.start t) s'') (fresh : Fresh s₁ es) (idle : .start t ∉ es) (there : v ∈ s.order)
    (other : t ≠ v) : es.count (.start v) = 1 := by
  have mine : t ∈ s₁.order := by
    cases first with
    | start _ rest => exact List.mem_append_right _ List.mem_cons_self
  obtain ⟨rest, last⟩ : ∃ rest, s' = ⟨t :: rest, none⟩ := by
    cases again with
    | start _ rest => exact ⟨rest, rfl⟩
  have still : t ∈ s'.order := by
    rw [last]
    exact List.mem_cons_self
  have stays := run.stayed fresh mine still
  refine Nat.le_antisymm (run.once fresh mine idle stays other) ?_
  by_contra idler
  have never : .start v ∉ es := List.count_eq_zero.mp (by omega)
  have ahead : [v, t].Sublist s₁.order := by
    cases first with
    | start _ rest' =>
      have waiting : v ∈ rest' := by simpa [Schedule.order, other.symm] using there
      exact (List.singleton_sublist.mpr waiting).append (.refl [t])
  have ahead' := run.ahead ahead never stays
  have nodup := run.nodup fresh
  rw [last] at ahead' nodup
  have order : Schedule.order ⟨t :: rest, none⟩ = t :: rest := List.append_nil _
  rw [order] at ahead' nodup
  exact pair_head nodup other.symm ahead'

end RoundRobin
