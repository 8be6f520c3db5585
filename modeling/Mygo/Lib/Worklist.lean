import Mathlib.Logic.Hydra
import Mathlib.Order.WellFounded

universe u v

namespace Worklist

variable {α : Type u} {σ : Type v} {child : α → α → Prop} {step : σ → σ → Prop}

def Replaces (child : α → α → Prop) (after before : Multiset α) : Prop :=
  ∃ a made rest, (∀ b ∈ made, child b a) ∧ before = {a} + rest ∧ after = made + rest

def Descends (child : α → α → Prop) (b a : α) : Prop := child b a ∧ Acc child a

theorem acc_descends {a : α} (h : Acc child a) : Acc (Descends child) a := by
  induction h with
  | intro a _ ih => exact .intro a fun b below => ih b below.1

instance : Std.Irrefl (Descends child) where
  irrefl := by
    rintro a ⟨self, acc⟩
    induction acc with
    | intro a _ ih => exact ih a self self

theorem acc_bag {bag : Multiset α} (h : ∀ a ∈ bag, Acc child a) :
    Acc (Relation.CutExpand (Descends child)) bag :=
  Relation.acc_of_singleton fun a member => (acc_descends (h a member)).cutExpand

theorem Replaces.cutExpand {after before : Multiset α} (h : Replaces child after before)
    (acc : ∀ a ∈ before, Acc child a) : Relation.CutExpand (Descends child) after before := by
  obtain ⟨a, made, rest, children, rfl, rfl⟩ := h
  rw [Relation.cutExpand_add_right]
  refine Relation.cutExpand_singleton fun b member => ⟨children b member, ?_⟩
  exact acc a (Multiset.mem_add.mpr (.inl (Multiset.mem_singleton_self a)))

/-- A system whose steps replace an element by children of it, or else lower a rank, stops when no
descent from an element of its collection is infinite. -/
theorem acc_of_replaces {I : σ → Prop} (bag : σ → Multiset α) (rank : σ → Nat)
    (keep : ∀ s s', I s → step s s' → I s') (acc : ∀ s, I s → ∀ a ∈ bag s, Acc child a)
    (decreases : ∀ s s', I s → step s s' →
      Replaces child (bag s') (bag s) ∨ bag s' = bag s ∧ rank s' < rank s)
    {s : σ} (start : I s) : Acc (fun s' s => step s s') s := by
  have order : Acc (Prod.Lex (Relation.CutExpand (Descends child)) (· < ·)) (bag s, rank s) :=
    Prod.lexAccessible (acc_bag (acc s start)) (fun n => Nat.lt_wfRel.wf.apply n) (rank s)
  generalize same : (bag s, rank s) = m at order
  induction order generalizing s with
  | intro m _ ih =>
    subst same
    refine .intro s fun s' next => ih _ ?_ (keep s s' start next) rfl
    rcases decreases s s' start next with replaced | ⟨bags, lower⟩
    · exact .left _ _ (replaced.cutExpand (acc s start))
    · rw [bags]
      exact .right _ lower

theorem not_acc_of_keeps {P : σ → Prop} (keeps : ∀ s, P s → ∃ s', step s s' ∧ P s') {s : σ} (start : P s) :
    ¬ Acc (fun s' s => step s s') s := by
  intro acc
  induction acc with
  | intro s _ ih =>
    obtain ⟨s', next, kept⟩ := keeps s start
    exact ih s' next kept

def Ends (step : σ → σ → Prop) (s : σ) : Prop :=
  ¬ ∃ run : Nat → σ, run 0 = s ∧ ∀ n, step (run n) (run (n + 1))

theorem ends_iff_acc {s : σ} : Ends step s ↔ Acc (fun s' s => step s s') s :=
  not_iff_comm.mp (not_acc_iff_exists_descending_chain (r := fun s' s => step s s'))

end Worklist
