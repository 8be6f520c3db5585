import Mygo.Lib.Simulate
import Mygo.Parser.Program

namespace Mygo

open Parser

def Value.Alike (v w : Value) : Prop := v.erase = w.erase

theorem Value.Alike.type {v w : Value} (h : v.Alike w) : v.type_ = w.type_ := by
  have types := congrArg Value.type_ (show v.erase = w.erase from h)
  exact types

theorem Value.Alike.str {v w : Value} (h : v.Alike w) : v.str_data_ = w.str_data_ := by
  have strings := congrArg Value.str_data_ (show v.erase = w.erase from h)
  exact strings

/-- Only whether it is fatal is looked at in an error. -/
def Err.Alike (e d : Err) : Prop := e.is_fatal_ = d.is_fatal_

/-- A relation between streams that show the same tokens and go on together. -/
structure Similar {σ τ : Type} [Stream σ] [Stream τ] (R : σ → τ → Prop) : Prop where
  peeks : ∀ s t, R s t → Stream.Peek s = none ∧ Stream.Peek t = none ∨
    ∃ v w s' t', Stream.Peek s = some (some v, s') ∧ Stream.Peek t = some (some w, t') ∧ v.Alike w ∧ R s' t'
  nexts : ∀ s t, R s t → Stream.Next s = none ∧ Stream.Next t = none ∨
    ∃ s' t', Stream.Next s = some s' ∧ Stream.Next t = some t' ∧ R s' t'
  loads : ∀ s t s' t', R s t → R s' t' → R (Stream.Load s s') (Stream.Load t t')

@[simp] theorem Expr.erase_setLoc (start end_ : Loc) (e : Expr) : (e.setLoc start end_).erase = e.erase := by
  cases e <;> simp [setLoc, erase]

@[simp] abbrev Same {α γ : Type} (erase : α → γ) (a b : α) : Prop := erase a = erase b

theorem toOption_same {α β ε : Type} {erase : α → β} {E : ε → ε → Prop} {r r' : Except ε α}
    (h : Attempts E (Same erase) r r') : r.toOption.map erase = r'.toOption.map erase := by
  cases r with
  | ok a =>
    cases r' with
    | ok b => exact congrArg some h
    | error => exact h.elim
  | error =>
    cases r' with
    | ok => exact h.elim
    | error => rfl

abbrev Follows {σ τ α γ : Type} (R : σ → τ → Prop) (erase : α → γ) (p : Parsing σ α) (q : Parsing τ α) : Prop :=
  Simulates R Err.Alike (Same erase) p q

namespace Similar

variable {σ τ : Type} [Stream σ] [Stream τ] {R : σ → τ → Prop} (sim : Similar R)
variable {α β : Type} {V : α → β → Prop} {T : TokenType} {rounds : Nat}

section Macros

theorem loc : Simulates R Err.Alike (fun _ _ => True) loc loc := Simulates.read fun _ _ _ => trivial

theorem fail (msg : String) : Simulates R Err.Alike V (fail msg) (fail msg) := loc.bind fun _ _ _ => .raise rfl

theorem fatal (msg : String) : Simulates R Err.Alike V (fatal msg) (fatal msg) := loc.bind fun _ _ _ => .raise rfl

theorem append {e d : Err} (h : e.Alike d) (msg : String) :
    Simulates R Err.Alike V (append e msg) (append d msg) :=
  loc.bind fun _ _ _ => .raise h

include sim

theorem peek_bind {f : Option Value → Parsing σ α} {g : Option Value → Parsing τ β}
    (some_ : ∀ v w, v.Alike w → Simulates R Err.Alike V (f (some v)) (g (some w))) :
    Simulates R Err.Alike V (peek >>= f) (peek >>= g) := by
  intro s t related
  rw [run_bind, run_bind, peek, peek]
  rcases sim.peeks s t related with ⟨left, right⟩ | ⟨v, w, s', t', left, right, alike, related'⟩
  · rw [left, right]
    trivial
  · rw [left, right]
    exact some_ v w alike s' t' related'

theorem peeked : Simulates R Err.Alike Value.Alike peeked peeked :=
  sim.peek_bind fun _ _ alike => .pure alike

theorem peek_type : Simulates R Err.Alike Eq peek_type peek_type :=
  sim.peeked.bind fun _ _ alike => .pure alike.type

theorem is_token : Simulates R Err.Alike Eq (is_token T) (is_token T) := by
  refine sim.peek_bind fun v w _ => sim.peeked.bind fun v w alike => .pure ?_
  rw [alike.type]

theorem next : Simulates R Err.Alike Eq next next := by
  intro s t related
  rw [Mygo.next, Mygo.next]
  rcases sim.nexts s t related with ⟨left, right⟩ | ⟨s', t', left, right, related'⟩
  · rw [left, right]
    trivial
  · rw [left, right]
    exact ⟨rfl, related'⟩

theorem guard {p : Loc → Parsing σ α} {q : Loc → Parsing τ β} (h : ∀ l l', Simulates R Err.Alike V (p l) (q l')) :
    Simulates R Err.Alike V (guard p) (guard q) := by
  refine Simulates.guarded (fun s t s' t' => sim.loads s t s' t') ?_
  exact fun s t related => h _ _ s t related

theorem if_token {p p' : Parsing σ α} {q q' : Parsing τ β} (yes : Simulates R Err.Alike V p q)
    (no : Simulates R Err.Alike V p' q') :
    Simulates R Err.Alike V (do if ← Mygo.is_token T then p else p') (do if ← Mygo.is_token T then q else q') := by
  refine sim.is_token.bind ?_
  rintro b _ rfl
  exact .cond Iff.rfl (fun _ => yes) fun _ => no

theorem skip_token (rounds : Nat) : Simulates R Err.Alike Eq (skip_token T rounds) (skip_token T rounds) := by
  induction rounds with
  | zero => exact .spent
  | succ rounds ih => exact sim.if_token (sim.next.bind fun _ _ _ => ih) (.pure rfl)

theorem skip_token_once : Simulates R Err.Alike Eq (skip_token_once T) (skip_token_once T) :=
  sim.if_token sim.next (.pure rfl)

theorem expect_with {error : String → Parsing σ Value} {error' : String → Parsing τ Value} {null other : String}
    (errors : ∀ msg, Simulates R Err.Alike Value.Alike (error msg) (error' msg)) :
    Simulates R Err.Alike Value.Alike (expect_with error null other T) (expect_with error' null other T) := by
  refine sim.peek_bind fun _ _ _ => sim.peeked.bind fun v w alike => ?_
  exact .cond (by rw [alike.type]) (fun _ => sim.next.bind fun _ _ _ => .pure alike) fun _ => errors other

theorem expect_token : Simulates R Err.Alike Value.Alike (expect_token T) (expect_token T) :=
  sim.expect_with fun msg => fail msg

theorem expect_token_fatal : Simulates R Err.Alike Value.Alike (expect_token_fatal T) (expect_token_fatal T) :=
  sim.expect_with fun msg => fatal msg

theorem expect_token_err (err : String) :
    Simulates R Err.Alike Value.Alike (expect_token_err T err) (expect_token_err T err) :=
  sim.expect_with fun msg => fail msg

end Macros

section Functions

include sim

theorem parse_token : Follows R Expr.erase Expr.parse_token Expr.parse_token := by
  refine sim.guard fun l l' => sim.peek_bind fun v w alike => ?_
  refine .cond (by rw [alike.type])
    (fun _ => sim.next.bind fun _ _ _ => loc.bind fun _ _ _ => .pure ?_) fun _ => fail _
  exact congrArg (Expr.TOKEN .init .init) alike

section Operands

variable {expr : Parsing σ Expr} {expr' : Parsing τ Expr}

theorem parse_args (h : Follows R Expr.erase expr expr') (rounds : Nat) :
    Follows R Expr.eraseAll (Expr.parse_args expr rounds) (Expr.parse_args expr' rounds) := by
  induction rounds with
  | zero => exact .spent
  | succ rounds ih =>
    refine h.attempt_bind (fun e e' same => sim.if_token ?_ (.pure ?_)) fun _ _ _ => .pure rfl
    · refine sim.next.bind fun _ _ _ => ih.bind fun es es' rest => .pure ?_
      rw [Same, Expr.eraseAll, Expr.eraseAll, same, rest]
    · simp [Expr.eraseAll, same]

theorem parse_funcall (h : Follows R Expr.erase expr expr') (rounds : Nat) :
    Follows R Expr.erase (Expr.parse_funcall expr rounds) (Expr.parse_funcall expr' rounds) := by
  refine sim.guard fun l l' => sim.parse_token.attempt_bind (fun f f' same => ?_) fun _ _ _ => fail _
  refine sim.expect_token.bind fun _ _ _ => (sim.parse_args h rounds).bind fun args args' rest => ?_
  refine sim.expect_token.bind fun _ _ _ => loc.bind fun _ _ _ => .pure ?_
  rw [Same, Expr.erase, Expr.erase, Expr.eraseAll, Expr.eraseAll, same, rest]

theorem parse_operand (start start' : Loc) (b : Bool) :
    Follows R Expr.erase (Expr.parse_operand start b)
      (Expr.parse_operand start' b) := by
  refine sim.parse_token.attempt_bind (fun e e' same => ?_) fun _ _ _ => fail _
  refine loc.bind fun _ _ _ => .pure ?_
  cases b with
  | true => simp [Expr.erase, Expr.eraseAll, same]
  | false => simpa using same

theorem parse_atomic (h : Follows R Expr.erase expr expr') (rounds : Nat) :
    Follows R Expr.erase (Expr.parse_atomic expr rounds) (Expr.parse_atomic expr' rounds) := by
  refine sim.guard fun l l' => (sim.parse_funcall h rounds).attempt_bind (fun fc fc' same => ?_) fun _ _ _ => ?_
  · exact loc.bind fun _ _ _ => .pure (by simpa using same)
  · refine sim.peek_type.bind ?_
    rintro t _ rfl
    refine .cond Iff.rfl (fun _ => ?_) fun _ => sim.parse_operand l l' false
    exact sim.next.bind fun _ _ _ => sim.parse_operand l l' true

def erase_operators (r : List TokenType × List Expr) : List TokenType × List Expr := (r.1, Expr.eraseAll r.2)

theorem parse_operators {operand : Parsing σ Expr} {operand' : Parsing τ Expr} (is_op : TokenType → Bool)
    (h : Follows R Expr.erase operand operand') (msg : String) (rounds : Nat) :
    Follows R erase_operators (Expr.parse_operators is_op operand msg rounds)
      (Expr.parse_operators is_op operand' msg rounds) := by
  induction rounds with
  | zero => exact .spent
  | succ rounds ih =>
    refine sim.peek_type.bind ?_
    rintro t _ rfl
    refine .cond Iff.rfl (fun _ => sim.next.bind fun _ _ _ => ?_) fun _ => .pure rfl
    refine h.attempt_bind (fun e e' same => ?_) fun _ _ _ => fail msg
    refine ih.bind fun r r' rest => .pure ?_
    obtain ⟨ops, es⟩ := Prod.mk.inj rest
    simp [erase_operators, Expr.eraseAll, ops, es, same]

theorem parse_chain {operand : Parsing σ Expr} {operand' : Parsing τ Expr} (is_op : TokenType → Bool)
    (h : Follows R Expr.erase operand operand') (first_msg msg : String) (rounds : Nat) :
    Follows R Expr.erase (Expr.parse_chain is_op operand first_msg msg rounds)
      (Expr.parse_chain is_op operand' first_msg msg rounds) := by
  refine sim.guard fun l l' => h.attempt_bind (fun e e' same => ?_) fun _ _ _ => fail first_msg
  refine sim.peek_type.bind ?_
  rintro t _ rfl
  refine .cond Iff.rfl (fun _ => ?_) fun _ => loc.bind fun _ _ _ => .pure (by simpa using same)
  refine (sim.parse_operators is_op h msg rounds).bind fun r r' rest => loc.bind fun _ _ _ => .pure ?_
  obtain ⟨ops, es⟩ := Prod.mk.inj rest
  simp [Expr.erase, Expr.eraseAll, ops, es, same]

theorem parse_with_greater (h : Follows R Expr.erase expr expr') (rounds : Nat) :
    Follows R Expr.erase (Expr.parse_with_greater expr rounds)
      (Expr.parse_with_greater expr' rounds) := by
  have plus : Follows R Expr.erase (Expr.parse_with_plus expr rounds)
      (Expr.parse_with_plus expr' rounds) :=
    sim.parse_chain _ (sim.parse_chain _ (sim.parse_atomic h rounds) _ _ rounds) _ _ rounds
  refine sim.guard fun l l' => plus.attempt_bind (fun e e' same => ?_) fun _ _ _ => fail _
  refine sim.peek_type.bind ?_
  rintro t _ rfl
  refine .cond Iff.rfl (fun _ => sim.next.bind fun _ _ _ => ?_)
    fun _ => loc.bind fun _ _ _ => .pure (by simpa using same)
  refine plus.attempt_bind (fun e₁ e₁' same₁ => ?_) fun _ _ _ => fail _
  exact loc.bind fun _ _ _ => .pure (by simp [Expr.erase, Expr.eraseAll, same, same₁])

end Operands

theorem expr (rounds : Nat) :
    Follows R Expr.erase (Expr.parse rounds : Parsing σ Expr) (Expr.parse rounds : Parsing τ Expr) := by
  induction rounds with
  | zero => exact .spent
  | succ rounds ih => exact sim.parse_with_greater ih rounds

end Functions

section Statements

include sim

theorem struct_fields (rounds left : Nat) :
    Simulates R Err.Alike Eq (Struct.parse_fields rounds left) (Struct.parse_fields rounds left) := by
  induction left with
  | zero => exact .crash
  | succ left ih =>
    refine sim.peeked.bind fun v w first => .cond (by rw [first.type]) (fun _ => ?_) fun _ => .pure rfl
    refine sim.next.bind fun _ _ _ => sim.peeked.bind fun v' w' second => ?_
    refine .cond (by rw [second.type]) (fun _ => sim.next.bind fun _ _ _ => ?_) fun _ => fail _
    refine sim.expect_token.bind fun _ _ _ => (sim.skip_token rounds).bind fun _ _ _ => ih.bind ?_
    rintro fields _ rfl
    exact .pure (by rw [first.str, second.str])

theorem struct (rounds : Nat) : Follows R Struct.erase (Struct.parse rounds) (Struct.parse rounds) := by
  refine sim.guard fun l l' => sim.expect_token.bind fun _ _ _ => sim.expect_token.bind fun _ _ _ => ?_
  refine (sim.skip_token rounds).bind fun _ _ _ => (sim.struct_fields rounds 10000).bind ?_
  rintro fields _ rfl
  exact sim.expect_token.bind fun _ _ _ => loc.bind fun _ _ _ => .pure rfl

theorem var_type (rounds : Nat) :
    Follows R VarType.erase (VarType.parse rounds) (VarType.parse rounds) := by
  intro s t related
  refine Simulates.bind (V := fun _ _ => True) loc (fun l l' _ => ?_) s t related
  refine (sim.struct rounds).attempt_bind (fun stct stct' same => ?_) fun _ _ _ => sim.if_token ?_ ?_
  · exact loc.bind fun _ _ _ => .pure (by simp [VarType.erase, same])
  · refine sim.peeked.bind fun v w alike => sim.next.bind fun _ _ _ => loc.bind fun _ _ _ => .pure ?_
    simp [VarType.erase, alike.str]
  · refine Simulates.bind (V := Eq) ?_ fun _ _ _ => .pure rfl
    exact fun s' t' related' => ⟨rfl, sim.loads s' t' s t related' related⟩

theorem declaration (rounds : Nat) :
    Follows R Declaration.erase (Declaration.parse rounds) (Declaration.parse rounds) := by
  refine sim.guard fun l l' => sim.expect_token.bind fun _ _ _ => sim.expect_token_fatal.bind fun v w alike => ?_
  refine (sim.var_type rounds).attempt.bind fun r r' same => sim.expect_token.bind fun _ _ _ => ?_
  refine (sim.expr rounds).attempt_bind (fun e e' expr => ?_) fun e d h => append h _
  refine loc.bind fun _ _ _ => .pure ?_
  simp [Declaration.erase, alike.str, toOption_same same, expr]

theorem assignment (rounds : Nat) :
    Follows R Assignment.erase (Assignment.parse rounds) (Assignment.parse rounds) := by
  refine sim.guard fun l l' => sim.expect_token.bind fun v w alike => sim.expect_token.bind fun _ _ _ => ?_
  refine (sim.expr rounds).attempt_bind (fun e e' expr => ?_) fun e d h => append h _
  exact loc.bind fun _ _ _ => .pure (by simp [Assignment.erase, alike.str, expr])

theorem return_exprs (rounds left : Nat) :
    Follows R Expr.eraseAll (Return.parse_exprs rounds left) (Return.parse_exprs rounds left) := by
  induction left with
  | zero => exact .crash
  | succ left ih =>
    refine (sim.expr rounds).attempt_bind (fun e e' same => ?_) fun _ _ _ => .pure rfl
    exact ih.bind fun es es' rest => .pure (by simp [Expr.eraseAll, same, rest])

theorem return_ (rounds : Nat) : Follows R Return.erase (Return.parse rounds) (Return.parse rounds) := by
  refine sim.guard fun l l' => sim.expect_token.bind
    fun _ _ _ => (sim.return_exprs rounds 100).bind fun es es' same => ?_
  exact loc.bind fun _ _ _ => .pure (by simp [Return.erase, same])

theorem typedef_ (rounds : Nat) :
    Follows R Typedef.erase (Typedef.parse rounds) (Typedef.parse rounds) := by
  refine sim.guard fun l l' => sim.expect_token.bind fun _ _ _ => ?_
  refine (sim.var_type rounds).attempt_bind (fun type type' same => ?_)
    fun _ _ _ => loc.bind fun _ _ _ => .raise rfl
  refine sim.peeked.bind fun v w alike => .cond (by rw [alike.type])
    (fun _ => sim.next.bind fun _ _ _ => ?_) fun _ => fatal _
  exact loc.bind fun _ _ _ => .pure (by simp [Typedef.erase, alike.str, same])

theorem function_args (left : Nat) :
    Simulates R Err.Alike Eq (Function.parse_args left) (Function.parse_args left) := by
  induction left with
  | zero => exact .pure rfl
  | succ left ih =>
    refine sim.peek_type.bind ?_
    rintro t _ rfl
    refine .cond Iff.rfl (fun _ => ?_) fun _ => .pure rfl
    refine sim.expect_token_fatal.bind fun v w name => sim.expect_token_fatal.bind fun v' w' type => ?_
    refine sim.skip_token_once.bind fun _ _ _ => ih.bind ?_
    rintro args _ rfl
    exact .pure (by rw [name.str, type.str])

theorem function_returns (left : Nat) :
    Simulates R Err.Alike Eq (Function.parse_returns left) (Function.parse_returns left) := by
  induction left with
  | zero => exact .crash
  | succ left ih =>
    refine sim.if_token (sim.peeked.bind fun v w alike => sim.next.bind fun _ _ _ => ih.bind ?_) (.pure rfl)
    rintro returns _ rfl
    exact .pure (by rw [alike.str])

section Blocks

variable {block : Parsing σ Block} {block' : Parsing τ Block}
variable (h : Follows R Node.eraseBlock block block') (rounds : Nat)

include h

theorem function : Follows R Node.erase (Function.parse block rounds) (Function.parse block' rounds) := by
  refine sim.guard fun l l' => sim.expect_token.bind fun _ _ _ => sim.peeked.bind fun v w name => ?_
  refine sim.next.bind fun _ _ _ => sim.expect_token_fatal.bind fun _ _ _ => (sim.function_args 1000).bind ?_
  rintro args _ rfl
  refine sim.expect_token_fatal.bind fun _ _ _ => (sim.function_returns 99).bind ?_
  rintro returns _ rfl
  refine (sim.expect_token_err _).bind fun _ _ _ => (sim.skip_token rounds).bind fun _ _ _ => ?_
  refine h.attempt_bind (fun b b' same => ?_) fun e d error => append error _
  refine sim.expect_token.bind fun _ _ _ => loc.bind fun _ _ _ => .pure ?_
  simp [Node.erase, name.str, same]

theorem braced (msg : String) :
    Follows R Node.eraseBlock (parse_braced block msg rounds) (parse_braced block' msg rounds) := by
  refine sim.expect_token.bind fun _ _ _ => (sim.skip_token rounds).bind fun _ _ _ => ?_
  refine h.attempt_bind (fun b b' same => sim.expect_token.bind fun _ _ _ => .pure same) fun e d error => ?_
  exact loc.bind fun _ _ _ => loc.bind fun _ _ _ => .raise error

def erase_branches (r : List (Expr × Block) × Option Block) : List (Expr × Block) × Option Block :=
  (Node.eraseBranches r.1, Node.eraseTail r.2)

theorem branches (left : Nat) :
    Follows R erase_branches (If.parse_branches block rounds left)
      (If.parse_branches block' rounds left) := by
  induction left with
  | zero => exact .crash
  | succ left ih =>
    refine (sim.expr rounds).attempt_bind (fun cond cond' same => ?_) fun _ _ _ => fail _
    refine (sim.braced h rounds _).bind fun body body' inner => sim.if_token ?_ (.pure ?_)
    · refine sim.next.bind fun _ _ _ => .cond Iff.rfl (fun _ => .crash) fun _ => sim.if_token ?_ ?_
      · refine sim.next.bind fun _ _ _ => ih.bind fun r r' rest => .pure ?_
        obtain ⟨later, tail⟩ := Prod.mk.inj rest
        simp [erase_branches, Node.eraseBranches, same, inner, later, tail]
      · refine (sim.braced h rounds _).bind fun tail tail' last => .pure ?_
        simp [erase_branches, Node.eraseBranches, Node.eraseTail, same, inner, last]
    · simp [erase_branches, Node.eraseBranches, same, inner]

theorem if_ : Follows R Node.erase (If.parse block rounds) (If.parse block' rounds) := by
  refine sim.guard fun l l' => sim.expect_token.bind
    fun _ _ _ => (sim.branches h rounds 1000).bind fun r r' same => ?_
  obtain ⟨branches, tail⟩ := Prod.mk.inj same
  exact loc.bind fun _ _ _ => .pure (by simp [Node.erase, branches, tail])

theorem for_ : Follows R Node.erase (For.parse block rounds) (For.parse block' rounds) := by
  refine sim.guard fun l l' => sim.expect_token.bind fun _ _ _ => ?_
  refine (sim.declaration rounds).attempt.bind fun decl decl' init_ => sim.expect_token.bind fun _ _ _ => ?_
  refine (sim.expr rounds).attempt.bind fun expr expr' cond => sim.expect_token.bind fun _ _ _ => ?_
  refine (sim.assignment rounds).attempt.bind fun asgn asgn' step => ?_
  refine (sim.braced h rounds _).bind fun body body' inner => loc.bind fun _ _ _ => .pure ?_
  simp [Node.erase, toOption_same init_, toOption_same cond, toOption_same step, inner]

end Blocks

omit [Stream σ] [Stream τ] sim in
theorem first_of [Stream σ] [Stream τ] {fs : List (Parsing σ Node)} {fs' : List (Parsing τ Node)}
    (h : List.Forall₂ (Follows R Node.erase) fs fs') :
    Follows R (Option.map Node.erase) (Block.first_of fs) (Block.first_of fs') := by
  induction h with
  | nil => exact .pure rfl
  | cons first _ ih =>
    refine first.attempt_bind (fun node node' same => .pure (by simp [same])) fun e d error => ?_
    exact .cond (by rw [error]) (fun _ => .raise error) fun _ => ih

theorem nodes {block : Parsing σ Block} {block' : Parsing τ Block}
    (h : Follows R Node.eraseBlock block block') (rounds left : Nat) :
    Follows R Node.eraseNodes (Block.parse_nodes block rounds left)
      (Block.parse_nodes block' rounds left) := by
  have funcs : List.Forall₂ (Follows R Node.erase) (Block.parse_funcs block rounds)
      (Block.parse_funcs block' rounds) :=
    .cons ((sim.declaration rounds).map fun _ _ same => congrArg Node.Declaration same) <|
    .cons ((sim.assignment rounds).map fun _ _ same => congrArg Node.Assignment same) <|
    .cons ((sim.expr rounds).map fun _ _ same => congrArg Node.Expr same) <|
    .cons (sim.if_ h rounds) <| .cons (sim.function h rounds) <|
    .cons ((sim.return_ rounds).map fun _ _ same => congrArg Node.Return same) <|
    .cons (sim.for_ h rounds) <|
    .cons ((sim.typedef_ rounds).map fun _ _ same => congrArg Node.Typedef same) .nil
  induction left with
  | zero => exact .crash
  | succ left ih =>
    refine (sim.skip_token rounds).bind fun _ _ _ => (first_of funcs).bind fun node node' same => ?_
    cases node with
    | none =>
      cases node' with
      | none => exact .pure rfl
      | some node' => cases same
    | some node =>
      cases node' with
      | none => cases same
      | some node' =>
        refine ih.bind fun nodes nodes' rest => .pure ?_
        simp [Node.eraseNodes, Option.some.inj same, rest]

theorem block (rounds : Nat) :
    Follows R Node.eraseBlock (Block.parse rounds : Parsing σ Block)
      (Block.parse rounds : Parsing τ Block) := by
  induction rounds with
  | zero => exact .spent
  | succ rounds ih =>
    refine sim.guard fun l l' => (sim.nodes ih rounds 100000).bind fun nodes nodes' same => ?_
    exact loc.bind fun _ _ _ => .pure (by simp [Node.eraseBlock, same])

/-- Streams that show the same tokens are parsed alike: with the same tree up to its locations, or to the
same kind of error. -/
theorem root (rounds : Nat) :
    Follows R Root.erase (Root.parse rounds : Parsing σ Root) (Root.parse rounds : Parsing τ Root) := by
  refine sim.guard fun l l' => (sim.block rounds).attempt_bind (fun b b' same => ?_)
    fun e d error => append error _
  refine (sim.skip_token rounds).bind fun _ _ _ => sim.expect_token.bind fun _ _ _ => loc.bind
    fun _ _ _ => .pure ?_
  simp [Root.erase, same]

end Statements

end Similar

end Mygo
