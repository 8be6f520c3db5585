import Mathlib.Data.List.Infix

universe u v

namespace Prefix

variable {τ : Type u} {α : Type v} [BEq α] [LawfulBEq α] {spelling : τ → List α} {table : List τ}
  {t : τ} {cs : List α}

def first (spelling : τ → List α) (table : List τ) (cs : List α) : Option τ :=
  table.find? fun t => (spelling t).isPrefixOf cs

theorem first_none : first spelling table cs = none ↔ ∀ t ∈ table, ¬ spelling t <+: cs := by
  simp [first, List.find?_eq_none]

theorem mem_of_first (h : first spelling table cs = some t) : t ∈ table ∧ spelling t <+: cs := by
  have found : table.find? (fun t => (spelling t).isPrefixOf cs) = some t := h
  exact ⟨List.mem_of_find?_eq_some found, by simpa using List.find?_some found⟩

theorem first_longest (ordered : table.Pairwise fun t t' => ¬ spelling t <+: spelling t')
    (member : t ∈ table) (begins : spelling t <+: cs)
    (longest : ∀ t' ∈ table, spelling t' <+: cs → (spelling t').length ≤ (spelling t).length) :
    first spelling table cs = some t := by
  induction table with
  | nil => cases member
  | cons t' table ih =>
    obtain ⟨later, ordered⟩ := List.pairwise_cons.mp ordered
    by_cases match' : spelling t' <+: cs
    · rw [first, List.find?_cons_of_pos (by simpa using match')]
      rcases List.mem_cons.mp member with rfl | member
      · rfl
      · have short := longest t' List.mem_cons_self match'
        exact absurd (List.prefix_of_prefix_length_le match' begins short) (later t member)
    · have other : t ∈ table := by
        rcases List.mem_cons.mp member with rfl | member
        · exact absurd begins match'
        · exact member
      rw [first, List.find?_cons_of_neg (by simpa using match')]
      exact ih ordered other fun t' member => longest t' (List.mem_cons_of_mem _ member)

theorem longest_first (ordered : table.Pairwise fun t t' => ¬ spelling t <+: spelling t')
    (h : first spelling table cs = some t) {t' : τ} (member : t' ∈ table) (begins : spelling t' <+: cs) :
    (spelling t').length ≤ (spelling t).length := by
  induction table with
  | nil => cases h
  | cons t₀ table ih =>
    obtain ⟨later, ordered⟩ := List.pairwise_cons.mp ordered
    by_cases match' : spelling t₀ <+: cs
    · rw [first, List.find?_cons_of_pos (by simpa using match')] at h
      cases h
      rcases List.mem_cons.mp member with rfl | member
      · exact Nat.le_refl _
      · refine Nat.le_of_not_lt fun longer => later t' member ?_
        exact List.prefix_of_prefix_length_le match' begins (Nat.le_of_lt longer)
    · rw [first, List.find?_cons_of_neg (by simpa using match')] at h
      rcases List.mem_cons.mp member with rfl | member
      · exact absurd begins match'
      · exact ih ordered h member

end Prefix
