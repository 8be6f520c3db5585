import Mygo.Lib.Descent
import Mygo.Parser.Defs

/-! Every loop and every descent of the parse functions takes something from the stream before it
repeats. -/

namespace Mygo

open Parser

/-- A measure of streams that counts what is left before `Enf`. -/
structure Counts {σ : Type} [Stream σ] (M : Measure σ) : Prop where
  peeks : ∀ s v t, M.valid s → Stream.Peek s = some (v, t) →
    M.valid t ∧ M.rest t = M.rest s ∧ ∀ w, v = some w → (w.type_ ≠ .Enf ↔ 1 ≤ M.rest s)
  nexts : ∀ s t, M.valid s → Stream.Next s = some t →
    M.valid t ∧ M.rest t ≤ M.rest s ∧ (1 ≤ M.rest s → M.rest t + 1 ≤ M.rest s)
  loads : ∀ s t, M.valid s → M.valid t → M.valid (Stream.Load t s) ∧ M.rest (Stream.Load t s) = M.rest s

def Looks {σ α : Type} (M : Measure σ) (p : Parsing σ α) (inside : α → Prop) : Prop :=
  ∀ s, M.valid s → (p s).Meets
    (fun a t => M.valid t ∧ M.rest t = M.rest s ∧ (inside a → 1 ≤ M.rest s)) (fun _ _ => False) True False

namespace Looks

variable {σ α β : Type} {M : Measure σ} {p : Parsing σ α} { inside : α → Prop} {n k low : Nat}

theorem bind {g : α → Parsing σ β} { inside' : β → Prop} (h : Looks M p inside)
    (hg : ∀ a, Looks M (g a) inside') : Looks M (p >>= g) inside' := by
  intro s valid
  refine meets_bind (h s valid) fun a t ⟨valid', same, _⟩ => ?_
  rw [← same]
  exact hg a t valid'

theorem pure (a : α) (none : ¬ inside a) : Looks M (pure a) inside :=
  fun _ valid => ⟨valid, rfl, fun h => absurd h none⟩

variable {f : α → Parsing σ β}

theorem cases (h : Looks M p inside) (c : α → Prop) (seen : ∀ a, c a → inside a)
    (yes : ∀ a, c a → M.Descends 1 n k (f a)) (no : ∀ a, ¬ c a → M.Descends 0 n k (f a)) :
    M.Descends low n k (p >>= f) := by
  intro s valid _
  refine meets_bind ((h s valid).mono (fun _ _ => id) (fun _ _ => False.elim) id False.elim)
    fun a t ⟨valid', same, left⟩ => ?_
  rw [← same]
  by_cases holds : c a
  · exact yes a holds t valid' (same ▸ left (seen a holds))
  · exact no a holds t valid' (Nat.zero_le _)

theorem go (h : Looks M p inside) (hf : ∀ a, M.Descends 0 n k (f a)) : M.Descends low n k (p >>= f) :=
  h.cases (fun _ => False) (fun _ => False.elim) (fun _ => False.elim) fun a _ => hf a

end Looks

namespace Counts

variable {σ : Type} [Stream σ] {M : Measure σ} (counts : Counts M)

section Stream

variable {α : Type} {n k low rounds : Nat} {T : TokenType}

include counts

theorem peek_meets {s : σ} (valid : M.valid s) :
    (peek s : Parse σ Err (Option Value)).Meets (fun v t => M.valid t ∧ M.rest t = M.rest s ∧
      ∀ w, v = some w → (w.type_ ≠ .Enf ↔ 1 ≤ M.rest s)) (fun _ _ => False) True False := by
  rw [peek]
  cases look : Stream.Peek s with
  | none => trivial
  | some r => exact counts.peeks s r.1 r.2 valid look

theorem peeked_meets {s : σ} (valid : M.valid s) :
    (peeked s : Parse σ Err Value).Meets (fun w t => M.valid t ∧ M.rest t = M.rest s ∧
      (w.type_ ≠ .Enf ↔ 1 ≤ M.rest s)) (fun _ _ => False) True False := by
  refine meets_bind (counts.peek_meets valid) ?_
  rintro (_ | w) t ⟨valid', same, left⟩
  · trivial
  · exact ⟨valid', same, left w rfl⟩

theorem looks_peek : Looks M peek fun v => ∃ w, v = some w ∧ w.type_ ≠ .Enf := fun _ valid =>
  (counts.peek_meets valid).mono
    (fun _ _ ⟨valid', same, left⟩ => ⟨valid', same, fun ⟨w, seen, before⟩ => (left w seen).mp before⟩)
    (fun _ _ => id) id id

theorem looks_peeked : Looks M peeked fun w => w.type_ ≠ .Enf := fun _ valid =>
  (counts.peeked_meets valid).mono (fun _ _ ⟨valid', same, left⟩ => ⟨valid', same, left.mp⟩)
    (fun _ _ => id) id id

theorem looks_peek_type : Looks M peek_type fun t => t ≠ .Enf := by
  intro s valid
  exact meets_bind (counts.looks_peeked s valid) fun v t post => post

theorem looks_is_token (before : T ≠ .Enf) : Looks M (is_token T) fun b => b = true := by
  refine counts.looks_peek.bind fun v => ?_
  cases v with
  | none => exact .pure _ Bool.false_ne_true
  | some w =>
    intro s valid
    refine meets_bind (counts.looks_peeked s valid) fun v t ⟨valid', same, left⟩ => ?_
    refine ⟨valid', same, fun is_T => left ?_⟩
    rw [of_decide_eq_true is_T]
    exact before

theorem descends_next : M.Descends low n 0 next := by
  intro s valid _
  rw [next]
  cases move : Stream.Next s with
  | none => trivial
  | some t =>
    obtain ⟨valid', less, -⟩ := counts.nexts s t valid move
    exact ⟨valid', less⟩

theorem descends_inside : M.Descends 1 n 1 next := by
  intro s valid inside
  rw [next]
  cases move : Stream.Next s with
  | none => trivial
  | some t =>
    obtain ⟨valid', -, less⟩ := counts.nexts s t valid move
    exact ⟨valid', less inside⟩

theorem descends_guard {p : Loc → Parsing σ α} (h : ∀ start, M.Descends 0 n k (p start)) :
    M.Descends low n k (guard p) :=
  Measure.Descends.guarded (fun s valid _ => h (Stream.loc s) s valid (Nat.zero_le _)) counts.loads

theorem descends_skip_token (before : T ≠ .Enf) (bound : n ≤ rounds) :
    M.Descends low n 0 (skip_token T rounds : Parsing σ Unit) := by
  induction rounds generalizing n low with
  | zero =>
    obtain rfl := Nat.le_zero.mp bound
    exact .spent
  | succ rounds ih =>
    refine (counts.looks_is_token before).cases (· = true) (fun _ => id) ?_ ?_
    · rintro _ rfl
      exact (counts.descends_inside.bind_first fun _ => ih (Nat.sub_le_of_le_add bound)).loosen
    · intro b other
      rw [if_neg other]
      exact .pure ()

theorem descends_skip_token_once (before : T ≠ .Enf) :
    M.Descends low n 0 (skip_token_once T : Parsing σ Unit) := by
  refine (counts.looks_is_token before).go fun b => ?_
  split
  · exact counts.descends_next
  · exact .pure ()

end Stream

section Errors

variable {α : Type} {n k low : Nat} {T : TokenType}

theorem descends_fail (msg : String) : M.Descends low n k (fail msg : Parsing σ α) :=
  (Measure.Descends.read _).bind_later fun _ => .raise _

theorem descends_fatal (msg : String) : M.Descends low n k (fatal msg : Parsing σ α) :=
  (Measure.Descends.read _).bind_later fun _ => .raise _

theorem descends_append (e : Err) (msg : String) : M.Descends low n k (append e msg : Parsing σ α) :=
  (Measure.Descends.read _).bind_later fun _ => .raise _

theorem descends_located (g : Loc → α) :
    M.Descends low n 0 (do let l ← loc; pure (g l) : Parsing σ α) :=
  (Measure.Descends.read _).bind_later fun l => .pure (g l)

include counts

theorem descends_expect_with {error : String → Parsing σ Value} {null other : String}
    (before : T ≠ .Enf) (fails : ∀ msg, M.Descends 0 n 1 (error msg)) :
    M.Descends low n 1 (expect_with error null other T) := by
  refine counts.looks_peek.go fun v => ?_
  cases v with
  | none => exact fails null
  | some _ =>
    refine counts.looks_peeked.cases (fun v => v.type_ = T) ?_ ?_ ?_
    · rintro v rfl
      exact before
    · intro v same
      rw [if_pos same]
      exact counts.descends_inside.bind_first fun _ => .pure v
    · intro v differs
      rw [if_neg differs]
      exact fails other

theorem descends_expect_token (before : T ≠ .Enf) :
    M.Descends low n 1 (expect_token T : Parsing σ Value) :=
  counts.descends_expect_with before fun msg => descends_fail msg

theorem descends_expect_token_fatal (before : T ≠ .Enf) :
    M.Descends low n 1 (expect_token_fatal T : Parsing σ Value) :=
  counts.descends_expect_with before fun msg => descends_fatal msg

theorem descends_expect_token_err (before : T ≠ .Enf) (err : String) :
    M.Descends low n 1 (expect_token_err T err : Parsing σ Value) :=
  counts.descends_expect_with before fun msg => descends_fail msg

end Errors

section Ends

variable {n low : Nat}

include counts

theorem expect_enf_ends {s : σ} (valid : M.valid s) :
    (expect_token .Enf s : Parse σ Err Value).Meets (fun _ t => M.valid t ∧ M.rest t = 0)
      (fun _ t => M.valid t ∧ M.rest t ≤ M.rest s) True False := by
  have quiet : ∀ {α : Type} {Q : α → σ → Prop} {r : Parse σ Err α}, r.Meets Q (fun _ _ => False) True False →
      r.Meets Q (fun _ t => M.valid t ∧ M.rest t ≤ M.rest s) True False :=
    fun h => h.mono (fun _ _ => id) (fun _ _ => False.elim) id id
  refine meets_bind (quiet (counts.peek_meets valid)) fun v t ⟨valid', same, _⟩ => ?_
  cases v with
  | none => exact ⟨valid', same.le⟩
  | some _ =>
    refine meets_bind (quiet (counts.peeked_meets valid')) fun w u ⟨valid'', same', left⟩ => ?_
    split
    · next enf =>
      have ended : M.rest u = 0 := by
        by_contra more
        exact left.mpr (by omega) enf
      refine meets_bind (Q := fun _ x => M.valid x ∧ M.rest x = 0) ?_ fun _ _ => id
      rw [next]
      cases move : Stream.Next u with
      | none => trivial
      | some x =>
        obtain ⟨valid3, less, -⟩ := counts.nexts u x valid'' move
        exact ⟨valid3, by omega⟩
    · exact ⟨valid'', by rw [same', same]⟩

theorem descends_expect_enf : M.Descends low n 0 (expect_token .Enf : Parsing σ Value) := by
  intro s valid _
  refine (counts.expect_enf_ends valid).mono ?_ (fun _ _ => id) id False.elim
  exact fun _ t ⟨valid', ended⟩ => ⟨valid', by omega⟩

end Ends

section Expressions

variable {n k low rounds : Nat} {expr : Parsing σ Expr}

open Mygo.Expr

include counts

theorem descends_parse_token : M.Descends low n 1 (parse_token : Parsing σ Expr) := by
  refine counts.descends_guard fun start => ?_
  refine counts.looks_peek.cases (fun v => ∃ w, v = some w ∧ is_atomic w.type_ = true) ?_ ?_ ?_
  · rintro _ ⟨w, rfl, atomic⟩
    refine ⟨w, rfl, fun enf => ?_⟩
    rw [enf] at atomic
    cases atomic
  · rintro _ ⟨w, rfl, atomic⟩
    simp only [atomic, if_true]
    exact counts.descends_inside.bind_first fun _ => descends_located _
  · intro v other
    cases v with
    | none => exact descends_fail _
    | some w =>
      simp only
      rw [if_neg fun atomic => other ⟨w, rfl, atomic⟩]
      exact descends_fail _

theorem descends_parse_args (h : M.Descends 0 n 1 expr) (bound : n ≤ rounds) :
    M.Descends low n 0 (parse_args expr rounds) := by
  induction rounds generalizing n low with
  | zero =>
    obtain rfl := Nat.le_zero.mp bound
    exact .spent
  | succ rounds ih =>
    refine h.inside.attempt_later (fun e => ?_) fun _ => .pure []
    refine (counts.looks_is_token (T := .Comma) nofun).go fun b => ?_
    split
    · refine counts.descends_next.bind_later fun _ => ?_
      exact (ih h.lower (Nat.sub_le_of_le_add bound)).bind_later fun es => .pure (e :: es)
    · exact .pure [e]

theorem descends_parse_funcall (h : M.Descends 0 (n - 1) 1 expr) (bound : n - 1 ≤ rounds) :
    M.Descends low n 1 (parse_funcall expr rounds) := by
  refine counts.descends_guard fun start => ?_
  refine counts.descends_parse_token.attempt_first (fun f => ?_) fun _ => descends_fail _
  refine (counts.descends_expect_token (T := .LParent) nofun).loosen.bind_later fun _ => ?_
  refine (counts.descends_parse_args h bound).bind_later fun args => ?_
  refine (counts.descends_expect_token (T := .RParent) nofun).loosen.bind_later fun _ => ?_
  exact descends_located _

theorem descends_parse_operand (start : Loc) (b : Bool) :
    M.Descends low n 1 (parse_operand start b : Parsing σ Expr) := by
  refine counts.descends_parse_token.attempt_first (fun e => ?_) fun _ => descends_fail _
  exact descends_located _

theorem descends_parse_atomic (h : M.Descends 0 (n - 1) 1 expr) (bound : n - 1 ≤ rounds) :
    M.Descends low n 1 (parse_atomic expr rounds) := by
  refine counts.descends_guard fun start => ?_
  refine (counts.descends_parse_funcall h bound).attempt_first (fun fc => descends_located _) fun _ => ?_
  refine counts.looks_peek_type.go fun t => ?_
  split
  · exact counts.descends_next.bind_later fun _ => counts.descends_parse_operand start true
  · exact counts.descends_parse_operand start false

theorem descends_parse_operators {is_op : TokenType → Bool} {msg : String} (before : is_op .Enf = false)
    (h : M.Descends 0 n 1 expr) (bound : n ≤ rounds) :
    M.Descends low n 0 (parse_operators is_op expr msg rounds) := by
  induction rounds generalizing n low with
  | zero =>
    obtain rfl := Nat.le_zero.mp bound
    exact .spent
  | succ rounds ih =>
    refine counts.looks_peek_type.cases (fun t => is_op t = true) ?_ ?_ ?_
    · rintro t op rfl
      exact nomatch before.symm.trans op
    · intro t op
      rw [if_pos op]
      refine (counts.descends_inside.bind_first fun _ => ?_).loosen
      refine h.lower.loosen.attempt_later (fun e => ?_) fun _ => descends_fail _
      exact (ih h.lower (Nat.sub_le_of_le_add bound)).bind_later fun _ => .pure _
    · intro t other
      rw [if_neg other]
      exact .pure ([], [])

theorem descends_parse_chain {is_op : TokenType → Bool} {first_msg msg : String}
    (before : is_op .Enf = false) (h : M.Descends 0 n 1 expr) (bound : n - 1 ≤ rounds) :
    M.Descends low n 1 (parse_chain is_op expr first_msg msg rounds) := by
  refine counts.descends_guard fun start => ?_
  refine h.attempt_first (fun e => ?_) fun _ => descends_fail _
  refine counts.looks_peek_type.go fun t => ?_
  split
  · refine (counts.descends_parse_operators before h.lower bound).bind_later fun _ => ?_
    exact descends_located _
  · exact descends_located _

theorem descends_parse_with_star (h : M.Descends 0 (n - 1) 1 expr) (bound : n - 1 ≤ rounds) :
    M.Descends low n 1 (parse_with_star expr rounds) :=
  counts.descends_parse_chain rfl (counts.descends_parse_atomic h bound) bound

theorem descends_parse_with_plus (h : M.Descends 0 (n - 1) 1 expr) (bound : n - 1 ≤ rounds) :
    M.Descends low n 1 (parse_with_plus expr rounds) :=
  counts.descends_parse_chain rfl (counts.descends_parse_with_star h bound) bound

theorem descends_parse_with_greater (h : M.Descends 0 (n - 1) 1 expr) (bound : n - 1 ≤ rounds) :
    M.Descends low n 1 (parse_with_greater expr rounds) := by
  have operand : M.Descends 0 n 1 (parse_with_plus expr rounds) := counts.descends_parse_with_plus h bound
  refine counts.descends_guard fun start => ?_
  refine operand.attempt_first (fun e => ?_) fun _ => descends_fail _
  refine counts.looks_peek_type.go fun t => ?_
  split
  · refine counts.descends_next.bind_later fun _ => ?_
    refine operand.lower.loosen.attempt_later (fun e' => ?_) fun _ => descends_fail _
    exact descends_located _
  · exact descends_located _

theorem descends_expr (bound : n ≤ rounds) : M.Descends low n 1 (Expr.parse rounds : Parsing σ Expr) := by
  induction rounds generalizing n low with
  | zero =>
    obtain rfl := Nat.le_zero.mp bound
    exact .spent
  | succ rounds ih =>
    have less : n - 1 ≤ rounds := Nat.sub_le_of_le_add bound
    exact counts.descends_parse_with_greater (ih less) less

end Expressions

section Types

variable {n k low rounds : Nat}

include counts

theorem descends_fields (bound : n ≤ rounds) (left : Nat) :
    M.Descends low n 0 (Struct.parse_fields rounds left : Parsing σ (List (Bytes × Bytes))) := by
  induction left generalizing low with
  | zero => exact .crash
  | succ left ih =>
    refine counts.looks_peeked.go fun first => ?_
    split
    · refine counts.descends_next.bind_later fun _ => ?_
      refine counts.looks_peeked.go fun second => ?_
      split
      · refine counts.descends_next.bind_later fun _ => ?_
        refine (counts.descends_expect_token (T := .Enl) nofun).loosen.bind_later fun _ => ?_
        refine (counts.descends_skip_token (T := .Enl) nofun bound).bind_later fun _ => ?_
        exact ih.bind_later fun _ => .pure _
      · exact descends_fail _
    · exact .pure []

theorem descends_struct (bound : n ≤ rounds) :
    M.Descends low n 1 (Struct.parse rounds : Parsing σ Struct) := by
  refine counts.descends_guard fun start => ?_
  have less : n - 1 ≤ rounds := (Nat.sub_le n 1).trans bound
  refine (counts.descends_expect_token (T := .Struct) nofun).bind_first fun _ => ?_
  refine (counts.descends_expect_token (T := .LBrace) nofun).loosen.bind_later fun _ => ?_
  refine (counts.descends_skip_token (T := .Enl) nofun less).bind_later fun _ => ?_
  refine (counts.descends_fields less _).bind_later fun _ => ?_
  refine (counts.descends_expect_token (T := .RBrace) nofun).loosen.bind_later fun _ => ?_
  exact descends_located _

theorem descends_var_type (bound : n ≤ rounds) :
    M.Descends low n 0 (VarType.parse rounds : Parsing σ VarType) := by
  intro s valid _
  change M.Leaves n 0 s ((attempt (Struct.parse rounds) >>= _) s)
  refine meets_bind (meets_attempt (counts.descends_struct bound s valid (Nat.zero_le _))) ?_
  rintro (_ | stct) t ⟨valid', less⟩
  · refine meets_bind ((counts.looks_is_token (T := .Symbol) nofun t valid').mono (fun _ _ => id)
      (fun _ _ => False.elim) id False.elim) ?_
    intro b u ⟨valid'', same, _⟩
    split
    · have name : M.Descends 0 n 0 (do
          let name ← peeked
          next
          let end_ ← loc
          pure ⟨Stream.loc s, end_, false, none, name.str_data_⟩ : Parsing σ VarType) := by
        refine counts.looks_peeked.go fun name => ?_
        exact counts.descends_next.bind_later fun _ => descends_located _
      exact (name u valid'' (Nat.zero_le _)).later (j := 0) (same.le.trans less) (Nat.le_refl _)
    · obtain ⟨loaded, back⟩ := counts.loads s u valid valid''
      exact ⟨loaded, back.le⟩
  · exact (descends_located (n := n) _ t valid' (Nat.zero_le _)).later (j := 0)
      ((Nat.le_add_right _ 1).trans less) (Nat.le_refl _)

theorem descends_typedef (bound : n ≤ rounds) :
    M.Descends low n 1 (Typedef.parse rounds : Parsing σ Typedef) := by
  refine counts.descends_guard fun start => ?_
  have less : n - 1 ≤ rounds := (Nat.sub_le n 1).trans bound
  refine (counts.descends_expect_token (T := .Typedef) nofun).bind_first fun _ => ?_
  refine (counts.descends_var_type less).attempt_later (fun old_type => ?_) fun e => ?_
  · refine counts.looks_peeked.go fun name => ?_
    split
    · exact counts.descends_next.bind_later fun _ => descends_located _
    · exact descends_fatal _
  · exact (Measure.Descends.read _).bind_later fun _ => .raise _

end Types

section Statements

variable {n k low rounds : Nat}

include counts

theorem descends_declaration (bound : n ≤ rounds) :
    M.Descends low n 1 (Declaration.parse rounds : Parsing σ Declaration) := by
  refine counts.descends_guard fun start => ?_
  have less : n - 1 ≤ rounds := (Nat.sub_le n 1).trans bound
  refine (counts.descends_expect_token (T := .Var) nofun).bind_first fun _ => ?_
  refine (counts.descends_expect_token_fatal (T := .Symbol) nofun).loosen.bind_later fun v => ?_
  refine (counts.descends_var_type less).attempt.bind_later fun var_type => ?_
  refine (counts.descends_expect_token (T := .Assign) nofun).loosen.bind_later fun _ => ?_
  refine (counts.descends_expr less).loosen.attempt_later (fun expr => ?_) fun e => descends_append e _
  exact descends_located _

theorem descends_assignment (bound : n ≤ rounds) :
    M.Descends low n 1 (Assignment.parse rounds : Parsing σ Assignment) := by
  refine counts.descends_guard fun start => ?_
  have less : n - 1 ≤ rounds := (Nat.sub_le n 1).trans bound
  refine (counts.descends_expect_token (T := .Symbol) nofun).bind_first fun v => ?_
  refine (counts.descends_expect_token (T := .Assign) nofun).loosen.bind_later fun _ => ?_
  refine (counts.descends_expr less).loosen.attempt_later (fun expr => ?_) fun e => descends_append e _
  exact descends_located _

theorem descends_return_exprs (bound : n ≤ rounds) (left : Nat) :
    M.Descends low n 0 (Return.parse_exprs rounds left : Parsing σ (List Expr)) := by
  induction left generalizing low with
  | zero => exact .crash
  | succ left ih =>
    refine (counts.descends_expr bound).loosen.attempt_later (fun e => ?_) fun _ => .pure []
    exact ih.bind_later fun es => .pure (e :: es)

theorem descends_return (bound : n ≤ rounds) :
    M.Descends low n 1 (Return.parse rounds : Parsing σ Return) := by
  refine counts.descends_guard fun start => ?_
  have less : n - 1 ≤ rounds := (Nat.sub_le n 1).trans bound
  refine (counts.descends_expect_token (T := .Return) nofun).bind_first fun _ => ?_
  exact (counts.descends_return_exprs less _).bind_later fun _ => descends_located _

theorem descends_function_args (left : Nat) :
    M.Descends low n 0 (Function.parse_args left : Parsing σ (List (Bytes × Bytes))) := by
  induction left generalizing low with
  | zero => exact .pure []
  | succ left ih =>
    refine counts.looks_peek_type.go fun t => ?_
    split
    · refine (counts.descends_expect_token_fatal (T := .Symbol) nofun).loosen.bind_later fun _ => ?_
      refine (counts.descends_expect_token_fatal (T := .Symbol) nofun).loosen.bind_later fun _ => ?_
      refine (counts.descends_skip_token_once (T := .Comma) nofun).bind_later fun _ => ?_
      exact ih.bind_later fun args => .pure _
    · exact .pure []

theorem descends_function_returns (left : Nat) :
    M.Descends low n 0 (Function.parse_returns left : Parsing σ (List Bytes)) := by
  induction left generalizing low with
  | zero => exact .crash
  | succ left ih =>
    refine (counts.looks_is_token (T := .Symbol) nofun).go fun b => ?_
    split
    · refine counts.looks_peeked.go fun t => ?_
      refine counts.descends_next.bind_later fun _ => ?_
      exact ih.bind_later fun returns => .pure _
    · exact .pure []

variable {block : Parsing σ Block}

theorem descends_function (h : M.Descends 0 (n - 1) 0 block) (bound : n ≤ rounds) :
    M.Descends low n 1 (Function.parse block rounds) := by
  refine counts.descends_guard fun start => ?_
  have less : n - 1 ≤ rounds := (Nat.sub_le n 1).trans bound
  refine (counts.descends_expect_token (T := .Func) nofun).bind_first fun _ => ?_
  refine counts.looks_peeked.go fun name => ?_
  refine counts.descends_next.bind_later fun _ => ?_
  refine (counts.descends_expect_token_fatal (T := .LParent) nofun).loosen.bind_later fun _ => ?_
  refine (counts.descends_function_args _).bind_later fun args => ?_
  refine (counts.descends_expect_token_fatal (T := .RParent) nofun).loosen.bind_later fun _ => ?_
  refine (counts.descends_function_returns _).bind_later fun returns => ?_
  refine (counts.descends_expect_token_err (T := .LBrace) nofun _).loosen.bind_later fun _ => ?_
  refine (counts.descends_skip_token (T := .Enl) nofun less).bind_later fun _ => ?_
  refine h.attempt_later (fun body => ?_) fun e => descends_append e _
  refine (counts.descends_expect_token (T := .RBrace) nofun).loosen.bind_later fun _ => ?_
  exact descends_located _

theorem descends_braced (h : M.Descends 0 n 0 block) (msg : String) (bound : n ≤ rounds) :
    M.Descends low n 0 (parse_braced block msg rounds) := by
  refine (counts.descends_expect_token (T := .LBrace) nofun).loosen.bind_later fun _ => ?_
  refine (counts.descends_skip_token (T := .Enl) nofun bound).bind_later fun _ => ?_
  refine h.attempt_later (fun body => ?_) fun e => ?_
  · exact (counts.descends_expect_token (T := .RBrace) nofun).loosen.bind_later fun _ => .pure body
  · exact (Measure.Descends.read _).bind_later fun l => descends_append e _

theorem descends_branches (h : M.Descends 0 n 0 block) (bound : n ≤ rounds) (left : Nat) :
    M.Descends low n 0 (If.parse_branches block rounds left) := by
  induction left generalizing low with
  | zero => exact .crash
  | succ left ih =>
    refine (counts.descends_expr bound).loosen.attempt_later (fun cond => ?_) fun _ => descends_fail _
    refine (counts.descends_braced h _ bound).bind_later fun body => ?_
    refine (counts.looks_is_token (T := .Else) nofun).go fun b => ?_
    split
    · refine counts.descends_next.bind_later fun _ => ?_
      split
      · exact .crash
      · refine (counts.looks_is_token (T := .If) nofun).go fun b => ?_
        split
        · refine counts.descends_next.bind_later fun _ => ?_
          exact ih.bind_later fun _ => .pure _
        · exact (counts.descends_braced h _ bound).bind_later fun tail => .pure _
    · exact .pure _

theorem descends_if (h : M.Descends 0 (n - 1) 0 block) (bound : n ≤ rounds) :
    M.Descends low n 1 (If.parse block rounds) := by
  refine counts.descends_guard fun start => ?_
  have less : n - 1 ≤ rounds := (Nat.sub_le n 1).trans bound
  refine (counts.descends_expect_token (T := .If) nofun).bind_first fun _ => ?_
  exact (counts.descends_branches h less _).bind_later fun _ => descends_located _

theorem descends_for (h : M.Descends 0 (n - 1) 0 block) (bound : n ≤ rounds) :
    M.Descends low n 1 (For.parse block rounds) := by
  refine counts.descends_guard fun start => ?_
  have less : n - 1 ≤ rounds := (Nat.sub_le n 1).trans bound
  refine (counts.descends_expect_token (T := .For) nofun).bind_first fun _ => ?_
  refine (counts.descends_declaration less).attempt.bind_later fun decl => ?_
  refine (counts.descends_expect_token (T := .Semicolon) nofun).loosen.bind_later fun _ => ?_
  refine (counts.descends_expr less).attempt.bind_later fun expr => ?_
  refine (counts.descends_expect_token (T := .Semicolon) nofun).loosen.bind_later fun _ => ?_
  refine (counts.descends_assignment less).attempt.bind_later fun asgn => ?_
  refine (counts.descends_braced h _ less).bind_later fun body => ?_
  exact descends_located _

omit [Stream σ] counts in
theorem descends_first_of {fs : List (Parsing σ Node)} (h : ∀ f ∈ fs, M.Descends 0 n 1 f) :
    M.Descends low n 0 (Block.first_of fs) := by
  induction fs generalizing low with
  | nil => exact .pure none
  | cons f fs ih =>
    obtain ⟨first, others⟩ := List.forall_mem_cons.mp h
    refine first.inside.loosen.attempt_later (fun node => .pure _) fun e => ?_
    simp only
    split
    · exact .raise e
    · exact ih others

theorem descends_funcs (h : M.Descends 0 (n - 1) 0 block) (bound : n ≤ rounds) :
    ∀ f ∈ Block.parse_funcs block rounds, M.Descends 0 n 1 f := by
  simp only [Block.parse_funcs, List.forall_mem_cons]
  exact ⟨(counts.descends_declaration bound).map, (counts.descends_assignment bound).map,
    (counts.descends_expr bound).map, counts.descends_if h bound, counts.descends_function h bound,
    (counts.descends_return bound).map, counts.descends_for h bound, (counts.descends_typedef bound).map,
    nofun⟩

theorem descends_nodes (h : M.Descends 0 (n - 1) 0 block) (bound : n ≤ rounds) (left : Nat) :
    M.Descends low n 0 (Block.parse_nodes block rounds left) := by
  induction left generalizing low with
  | zero => exact .crash
  | succ left ih =>
    refine (counts.descends_skip_token (T := .Enl) nofun bound).bind_later fun _ => ?_
    refine (descends_first_of (counts.descends_funcs h bound)).bind_later fun node => ?_
    cases node with
    | none => exact .pure []
    | some node => exact ih.bind_later fun nodes => .pure (node :: nodes)

theorem descends_block (bound : n ≤ rounds - 1) :
    M.Descends low n 0 (Block.parse rounds : Parsing σ Block) := by
  induction rounds generalizing n low with
  | zero =>
    obtain rfl := Nat.le_zero.mp bound
    exact .spent
  | succ rounds ih =>
    refine counts.descends_guard fun start => ?_
    have inner : M.Descends 0 (n - 1) 0 (Block.parse rounds : Parsing σ Block) :=
      ih (Nat.sub_le_sub_right bound 1)
    exact (counts.descends_nodes inner bound _).bind_later fun nodes => descends_located _

theorem descends_root (bound : n ≤ rounds - 1) :
    M.Descends low n 0 (Root.parse rounds : Parsing σ Root) := by
  refine counts.descends_guard fun start => ?_
  refine (counts.descends_block bound).attempt_later (fun block => ?_) fun e => descends_append e _
  refine (counts.descends_skip_token (T := .Enl) nofun (bound.trans (Nat.sub_le rounds 1))).bind_later
    fun _ => ?_
  exact counts.descends_expect_enf.bind_later fun _ => descends_located _

theorem root_ends {s : σ} (valid : M.valid s) :
    (Root.parse rounds s).Meets (fun _ t => M.rest t = 0) (fun _ _ => True) True True := by
  refine meets_guarded (meets_bind ((counts.descends_block (Nat.zero_le _)).attempt.keeps valid) ?_)
  rintro (e | block) t valid'
  · trivial
  · refine meets_bind ((counts.descends_skip_token (T := .Enl) nofun (Nat.zero_le _)).keeps valid') ?_
    intro _ u valid''
    refine meets_bind (Q := fun _ t => M.rest t = 0) ?_ fun _ _ => id
    exact (counts.expect_enf_ends valid'').mono (fun _ _ => And.right) (fun _ _ _ => trivial) id fun _ => trivial

end Statements

end Counts

end Mygo
