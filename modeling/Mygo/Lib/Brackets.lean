import Mathlib.Tactic

universe u

variable {α : Type u}

/-- The brackets numbered from `n` up to `k`, in the order of their openings. -/
inductive Brackets (Plain : α → Prop) (opens closes : Nat → α) : Nat → List α → Nat → Prop
  | nil (n : Nat) : Brackets Plain opens closes n [] n
  | plain {n k : Nat} {a : α} {l : List α} (other : Plain a) (rest : Brackets Plain opens closes n l k) :
      Brackets Plain opens closes n (a :: l) k
  | pair {n m k : Nat} {inner rest : List α} (inside : Brackets Plain opens closes (n + 1) inner m)
      (after : Brackets Plain opens closes m rest k) :
      Brackets Plain opens closes n (opens n :: (inner ++ closes n :: rest)) k

namespace Brackets

variable {Plain : α → Prop} {opens closes : Nat → α} {n m k N : Nat} {l l' : List α}

theorem all_plain (plain : ∀ a ∈ l, Plain a) (n : Nat) : Brackets Plain opens closes n l n := by
  induction l with
  | nil => exact .nil n
  | cons a l ih =>
    obtain ⟨first, others⟩ := List.forall_mem_cons.mp plain
    exact .plain first (ih others)

theorem append (h : Brackets Plain opens closes n l m) (h' : Brackets Plain opens closes m l' k) :
    Brackets Plain opens closes n (l ++ l') k := by
  induction h with
  | nil => exact h'
  | plain other _ ih => exact .plain other (ih h')
  | pair inside _ _ ih =>
    rw [List.cons_append, List.append_assoc, List.cons_append]
    exact .pair inside (ih h')

theorem le (h : Brackets Plain opens closes n l k) : n ≤ k := by
  induction h with
  | nil => exact Nat.le_refl _
  | plain _ _ ih => exact ih
  | pair _ _ ih ih' => omega

structure Marked (Plain : α → Prop) (opens closes : Nat → α) (N : Nat) : Prop where
  opens_inj : ∀ x y, x < N → y < N → opens x = opens y → x = y
  closes_inj : ∀ x y, x < N → y < N → closes x = closes y → x = y
  apart : ∀ x y, opens x ≠ closes y
  opens_marked : ∀ x, ¬ Plain (opens x)
  closes_marked : ∀ x, ¬ Plain (closes x)

theorem range (h : Brackets Plain opens closes n l k) {a : α} (member : a ∈ l) :
    Plain a ∨ ∃ x, n ≤ x ∧ x < k ∧ (a = opens x ∨ a = closes x) := by
  induction h with
  | nil => cases member
  | plain other _ ih =>
    rcases List.mem_cons.mp member with rfl | rest
    · exact .inl other
    · exact ih rest
  | pair inside after ih ih' =>
    have lower := inside.le
    have upper := after.le
    rcases List.mem_cons.mp member with rfl | member
    · exact .inr ⟨_, Nat.le_refl _, by omega, .inl rfl⟩
    rcases List.mem_append.mp member with inner | member
    · rcases ih inner with other | ⟨x, low, high, mark⟩
      · exact .inl other
      · exact .inr ⟨x, by omega, by omega, mark⟩
    rcases List.mem_cons.mp member with rfl | rest
    · exact .inr ⟨_, Nat.le_refl _, by omega, .inr rfl⟩
    · rcases ih' rest with other | ⟨x, low, high, mark⟩
      · exact .inl other
      · exact .inr ⟨x, by omega, high, mark⟩

def Span (opens closes : Nat → α) (l : List α) (x i j : Nat) : Prop :=
  l[i]? = some (opens x) ∧ l[j]? = some (closes x)

section Pair

variable {o c a : α} {inner rest : List α} {i : Nat}

theorem at_inner (found : inner[i]? = some a) : (o :: (inner ++ c :: rest))[i + 1]? = some a := by
  obtain ⟨small, -⟩ := List.getElem?_eq_some_iff.mp found
  rw [List.getElem?_cons_succ, List.getElem?_append_left small, found]

theorem at_close : (o :: (inner ++ c :: rest))[inner.length + 1]? = some c := by simp

theorem at_rest (found : rest[i]? = some a) : (o :: (inner ++ c :: rest))[inner.length + 2 + i]? = some a := by
  rw [Nat.add_right_comm, List.getElem?_cons_succ, List.getElem?_append_right (by omega),
    show inner.length + i + 1 - inner.length = i + 1 by omega, List.getElem?_cons_succ, found]

theorem at_pair (found : (o :: (inner ++ c :: rest))[i]? = some a) :
    (i = 0 ∧ a = o) ∨ (∃ p, i = p + 1 ∧ p < inner.length ∧ inner[p]? = some a) ∨
      (i = inner.length + 1 ∧ a = c) ∨ ∃ q, i = inner.length + 2 + q ∧ rest[q]? = some a := by
  cases i with
  | zero => exact .inl ⟨rfl, (Option.some.inj found).symm⟩
  | succ i =>
    rw [List.getElem?_cons_succ] at found
    rcases Nat.lt_trichotomy i inner.length with inside | rfl | behind
    · rw [List.getElem?_append_left inside] at found
      exact .inr (.inl ⟨i, rfl, inside, found⟩)
    · rw [List.getElem?_append_right (Nat.le_refl _), Nat.sub_self] at found
      exact .inr (.inr (.inl ⟨rfl, (Option.some.inj found).symm⟩))
    · obtain ⟨q, rfl⟩ := Nat.exists_eq_add_of_lt behind
      rw [List.getElem?_append_right (by omega),
        show inner.length + q + 1 - inner.length = q + 1 by omega, List.getElem?_cons_succ] at found
      exact .inr (.inr (.inr ⟨q, by omega, found⟩))

end Pair

theorem opened (marked : Marked Plain opens closes N) (h : Brackets Plain opens closes n l k) {x : Nat}
    (small : x < N) (few : k ≤ N) (member : opens x ∈ l) : n ≤ x ∧ x < k := by
  rcases h.range member with other | ⟨y, low, high, same | same⟩
  · exact absurd other (marked.opens_marked x)
  · obtain rfl := marked.opens_inj x y small (by omega) same
    exact ⟨low, high⟩
  · exact absurd same (marked.apart x y)

theorem closed (marked : Marked Plain opens closes N) (h : Brackets Plain opens closes n l k) {x : Nat}
    (small : x < N) (few : k ≤ N) (member : closes x ∈ l) : n ≤ x ∧ x < k := by
  rcases h.range member with other | ⟨y, low, high, same | same⟩
  · exact absurd other (marked.closes_marked x)
  · exact absurd same.symm (marked.apart y x)
  · obtain rfl := marked.closes_inj x y small (by omega) same
    exact ⟨low, high⟩

theorem exists_span (h : Brackets Plain opens closes n l k) {x : Nat} (low : n ≤ x) (high : x < k) :
    ∃ i j, i < j ∧ Span opens closes l x i j := by
  induction h with
  | nil => omega
  | plain _ _ ih =>
    obtain ⟨i, j, less, span⟩ := ih low high
    exact ⟨i + 1, j + 1, by omega, span⟩
  | @pair n m k inner rest inside after ih ih' =>
    rcases Nat.eq_or_lt_of_le low with rfl | beyond
    · exact ⟨0, inner.length + 1, by omega, rfl, at_close⟩
    by_cases inner_ : x < m
    · obtain ⟨i, j, less, first, last⟩ := ih beyond inner_
      exact ⟨i + 1, j + 1, by omega, at_inner first, at_inner last⟩
    · obtain ⟨i, j, less, first, last⟩ := ih' (Nat.le_of_not_lt inner_) high
      exact ⟨_, _, by omega, at_rest first, at_rest last⟩

theorem span_pair (marked : Marked Plain opens closes N) {inner rest : List α}
    (inside : Brackets Plain opens closes (n + 1) inner m) (after : Brackets Plain opens closes m rest k)
    (few : k ≤ N) {x i j : Nat} (small : x < N)
    (span : Span opens closes (opens n :: (inner ++ closes n :: rest)) x i j) :
    (x = n ∧ i = 0 ∧ j = inner.length + 1) ∨
      (∃ p q, i = p + 1 ∧ j = q + 1 ∧ p < inner.length ∧ q < inner.length ∧ Span opens closes inner x p q) ∨
      ∃ p q, i = inner.length + 2 + p ∧ j = inner.length + 2 + q ∧ Span opens closes rest x p q := by
  have lower := inside.le
  have upper := after.le
  obtain ⟨first, last⟩ := span
  have first' : (x = n ∧ i = 0) ∨ (∃ p, i = p + 1 ∧ p < inner.length ∧ inner[p]? = some (opens x) ∧ n < x ∧ x < m) ∨
      ∃ q, i = inner.length + 2 + q ∧ rest[q]? = some (opens x) ∧ m ≤ x := by
    rcases at_pair first with ⟨rfl, same⟩ | ⟨p, rfl, less, found⟩ | ⟨-, same⟩ | ⟨q, rfl, found⟩
    · exact .inl ⟨marked.opens_inj x n small (by omega) same, rfl⟩
    · have bounds := inside.opened marked small (by omega) (List.mem_of_getElem? found)
      exact .inr (.inl ⟨p, rfl, less, found, bounds⟩)
    · exact absurd same (marked.apart x n)
    · have bounds := after.opened marked small few (List.mem_of_getElem? found)
      exact .inr (.inr ⟨q, rfl, found, bounds.1⟩)
  have last' : (x = n ∧ j = inner.length + 1) ∨
      (∃ p, j = p + 1 ∧ p < inner.length ∧ inner[p]? = some (closes x) ∧ n < x ∧ x < m) ∨
      ∃ q, j = inner.length + 2 + q ∧ rest[q]? = some (closes x) ∧ m ≤ x := by
    rcases at_pair last with ⟨-, same⟩ | ⟨p, rfl, less, found⟩ | ⟨rfl, same⟩ | ⟨q, rfl, found⟩
    · exact absurd same.symm (marked.apart n x)
    · have bounds := inside.closed marked small (by omega) (List.mem_of_getElem? found)
      exact .inr (.inl ⟨p, rfl, less, found, bounds⟩)
    · exact .inl ⟨marked.closes_inj x n small (by omega) same, rfl⟩
    · have bounds := after.closed marked small few (List.mem_of_getElem? found)
      exact .inr (.inr ⟨q, rfl, found, bounds.1⟩)
  rcases first' with ⟨rfl, rfl⟩ | ⟨p, rfl, lessP, foundP, beyond, within⟩ | ⟨p, rfl, foundP, beyond⟩ <;>
    rcases last' with ⟨same, rfl⟩ | ⟨q, rfl, lessQ, foundQ, beyond', within'⟩ | ⟨q, rfl, foundQ, beyond'⟩
  · exact .inl ⟨rfl, rfl, rfl⟩
  · omega
  · omega
  · omega
  · exact .inr (.inl ⟨p, q, rfl, rfl, lessP, lessQ, foundP, foundQ⟩)
  · omega
  · omega
  · omega
  · exact .inr (.inr ⟨p, q, rfl, rfl, foundP, foundQ⟩)

theorem span_plain (marked : Marked Plain opens closes N) {a : α} {l : List α} (other : Plain a) {x i j : Nat}
    (span : Span opens closes (a :: l) x i j) :
    ∃ p q, i = p + 1 ∧ j = q + 1 ∧ Span opens closes l x p q := by
  obtain ⟨first, last⟩ := span
  cases i with
  | zero =>
    cases Option.some.inj first
    exact absurd other (marked.opens_marked x)
  | succ p =>
    cases j with
    | zero =>
      cases Option.some.inj last
      exact absurd other (marked.closes_marked x)
    | succ q => exact ⟨p, q, rfl, rfl, first, last⟩

theorem span_unique (marked : Marked Plain opens closes N) (h : Brackets Plain opens closes n l k) (few : k ≤ N)
    {x i j i' j' : Nat} (small : x < N) (span : Span opens closes l x i j) (span' : Span opens closes l x i' j') :
    i < j ∧ i = i' ∧ j = j' := by
  induction h generalizing i j i' j' with
  | nil => cases span.1
  | plain other after ih =>
    obtain ⟨p, q, rfl, rfl, tail⟩ := span_plain marked other span
    obtain ⟨p', q', rfl, rfl, tail'⟩ := span_plain marked other span'
    obtain ⟨less, rfl, rfl⟩ := ih few tail tail'
    exact ⟨by omega, rfl, rfl⟩
  | pair inside after ih ih' =>
    have lower := inside.le
    have upper := after.le
    rcases span_pair marked inside after few small span with
      ⟨rfl, rfl, rfl⟩ | ⟨p, q, rfl, rfl, lessP, lessQ, tail⟩ | ⟨p, q, rfl, rfl, tail⟩
    · rcases span_pair marked inside after few small span' with
        ⟨-, rfl, rfl⟩ | ⟨p', q', rfl, rfl, -, -, tail'⟩ | ⟨p', q', rfl, rfl, tail'⟩
      · exact ⟨by omega, rfl, rfl⟩
      · have bounds := inside.opened marked small (by omega) (List.mem_of_getElem? tail'.1)
        omega
      · have bounds := after.opened marked small few (List.mem_of_getElem? tail'.1)
        omega
    · have bounds := inside.opened marked small (by omega) (List.mem_of_getElem? tail.1)
      rcases span_pair marked inside after few small span' with
        ⟨rfl, -⟩ | ⟨p', q', rfl, rfl, -, -, tail'⟩ | ⟨p', q', rfl, rfl, tail'⟩
      · omega
      · obtain ⟨less, rfl, rfl⟩ := ih (by omega) tail tail'
        exact ⟨by omega, rfl, rfl⟩
      · have bounds' := after.opened marked small few (List.mem_of_getElem? tail'.1)
        omega
    · have bounds := after.opened marked small few (List.mem_of_getElem? tail.1)
      rcases span_pair marked inside after few small span' with
        ⟨rfl, -⟩ | ⟨p', q', rfl, rfl, -, -, tail'⟩ | ⟨p', q', rfl, rfl, tail'⟩
      · omega
      · have bounds' := inside.opened marked small (by omega) (List.mem_of_getElem? tail'.1)
        omega
      · obtain ⟨less, rfl, rfl⟩ := ih' few tail tail'
        exact ⟨by omega, rfl, rfl⟩

theorem span_nested (marked : Marked Plain opens closes N) (h : Brackets Plain opens closes n l k) (few : k ≤ N)
    {x y i j i' j' : Nat} (small : x < N) (small' : y < N) (span : Span opens closes l x i j)
    (span' : Span opens closes l y i' j') (less : i < i') : j < i' ∨ j' < j := by
  induction h generalizing i j i' j' with
  | nil => cases span.1
  | plain other after ih =>
    obtain ⟨p, q, rfl, rfl, tail⟩ := span_plain marked other span
    obtain ⟨p', q', rfl, rfl, tail'⟩ := span_plain marked other span'
    have nested := ih few tail tail' (by omega)
    omega
  | pair inside after ih ih' =>
    have upper := after.le
    rcases span_pair marked inside after few small span with
      ⟨rfl, rfl, rfl⟩ | ⟨p, q, rfl, rfl, lessP, lessQ, tail⟩ | ⟨p, q, rfl, rfl, tail⟩ <;>
    rcases span_pair marked inside after few small' span' with
      ⟨rfl, rfl, rfl⟩ | ⟨p', q', rfl, rfl, lessP', lessQ', tail'⟩ | ⟨p', q', rfl, rfl, tail'⟩
    case inr.inl.inr.inl =>
      have nested := ih (by omega) tail tail' (by omega)
      omega
    case inr.inr.inr.inr =>
      have nested := ih' few tail tail' (by omega)
      omega
    all_goals omega

end Brackets
