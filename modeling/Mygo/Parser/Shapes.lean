import Mygo.Parser.Backtrack

namespace Mygo

namespace Expr

mutual

/-- Every operator stands between two operands, except for the minus of one operand. -/
def Shaped : Expr → Prop
  | .TOKEN _ _ _ => True
  | .OPS _ _ ops exprs =>
    (exprs.length = ops.length + 1 ∨ ops = [.Sub] ∧ exprs.length = 1) ∧ ShapedAll exprs
  | .FUNCALL _ _ exprs => ShapedAll exprs

def ShapedAll : List Expr → Prop
  | [] => True
  | e :: es => Shaped e ∧ ShapedAll es

end

end Expr

def Typedef.Shaped (tf : Typedef) : Prop := tf.old_type_.is_struct_ = true → tf.old_type_.stct_ ≠ none

mutual

def Node.Shaped : Node → Prop
  | .Declaration decl => decl.var_type ≠ none
  | .Assignment asgm => asgm.expr.Shaped
  | .Expr e => e.Shaped
  | .If _ _ branches tail => Node.ShapedBranches branches ∧ Node.ShapedTail tail
  | .Function _ _ _ _ _ block => block.Shaped
  | .Return _ => True
  | .For _ _ _ _ _ block => block.Shaped
  | .Typedef tf => tf.Shaped

def Node.ShapedBranches : List (Expr × Block) → Prop
  | [] => True
  | (_, block) :: branches => block.Shaped ∧ Node.ShapedBranches branches

def Node.ShapedTail : Option Block → Prop
  | none => True
  | some block => block.Shaped

def Block.Shaped : Block → Prop
  | .mk _ _ nodes => Node.ShapedAll nodes

def Node.ShapedAll : List Node → Prop
  | [] => True
  | node :: nodes => node.Shaped ∧ Node.ShapedAll nodes

end

structure Root.Shaped (ast : Root) : Prop where
  nodes : Node.ShapedAll ast.nodes
  count : ast.nodes.length < 100000

open Parser

variable {σ : Type} [Stream σ] {α : Type}

theorem yields_guard {P : α → Prop} {p : Loc → Parsing σ α} (h : ∀ start, Yields P (p start)) :
    Yields P (guard p) :=
  Yields.guarded fun s => h (Stream.loc s) s

omit [Stream σ] in
theorem yields_error (P : α → Prop) (f : Loc → Err) [Stream σ] :
    Yields P (do raise (f (← loc)) : Parsing σ α) :=
  .after fun _ => yields_raise _

namespace Expr

theorem Shaped.setLoc {e : Expr} (h : e.Shaped) (start end_ : Loc) : (e.setLoc start end_).Shaped := by
  cases e with
  | TOKEN => trivial
  | OPS => exact h
  | FUNCALL => exact h

variable {expr : Parsing σ Expr} {rounds : Nat}

theorem yields_token : Yields Shaped (parse_token : Parsing σ Expr) := by
  refine yields_guard fun start => .after fun v => ?_
  cases v with
  | none => exact yields_error _ _
  | some w =>
    simp only
    split
    · exact .after fun _ => .after fun _ => yields_pure trivial
    · exact yields_error _ _

theorem yields_args (h : Yields Shaped expr) : Yields ShapedAll (parse_args expr rounds) := by
  induction rounds with
  | zero => exact yields_spent
  | succ rounds ih =>
    refine h.attempt.bind ?_
    rintro (_ | e) shaped
    · exact yields_pure trivial
    · refine .after fun b => ?_
      split
      · exact .after fun _ => ih.bind fun es shaped' => yields_pure ⟨shaped e rfl, shaped'⟩
      · exact yields_pure ⟨shaped e rfl, trivial⟩

theorem yields_funcall (h : Yields Shaped expr) : Yields Shaped (parse_funcall expr rounds) := by
  refine yields_guard fun start => yields_token.attempt.bind ?_
  rintro (_ | f) shaped
  · exact yields_error _ _
  · refine .after fun _ => (yields_args h).bind fun args shaped' => ?_
    exact .after fun _ => .after fun _ => yields_pure ⟨shaped f rfl, shaped'⟩

theorem yields_operand (start : Loc) (b : Bool) :
    Yields Shaped (parse_operand start b : Parsing σ Expr) := by
  refine yields_token.attempt.bind ?_
  rintro (_ | e) shaped
  · exact yields_error _ _
  · refine .after fun end_ => yields_pure ?_
    split
    · exact ⟨.inr ⟨rfl, rfl⟩, shaped e rfl, trivial⟩
    · exact (shaped e rfl).setLoc start end_

theorem yields_atomic (h : Yields Shaped expr) : Yields Shaped (parse_atomic expr rounds) := by
  refine yields_guard fun start => (yields_funcall h).attempt.bind ?_
  rintro (_ | fc) shaped
  · refine .after fun t => ?_
    split
    · exact .after fun _ => yields_operand start true
    · exact yields_operand start false
  · exact .after fun end_ => yields_pure ((shaped fc rfl).setLoc start end_)

theorem yields_operators {is_op : TokenType → Bool} {msg : String} (h : Yields Shaped expr) :
    Yields (fun r => r.2.length = r.1.length ∧ ShapedAll r.2) (parse_operators is_op expr msg rounds) := by
  induction rounds with
  | zero => exact yields_spent
  | succ rounds ih =>
    refine .after fun t => ?_
    split
    · refine .after fun _ => h.attempt.bind ?_
      rintro (_ | e) shaped
      · exact yields_error _ _
      · refine ih.bind fun r ⟨same, shaped'⟩ => yields_pure ⟨?_, shaped e rfl, shaped'⟩
        exact congrArg Nat.succ same
    · exact yields_pure ⟨rfl, trivial⟩

theorem yields_chain {is_op : TokenType → Bool} {first_msg msg : String} (h : Yields Shaped expr) :
    Yields Shaped (parse_chain is_op expr first_msg msg rounds) := by
  refine yields_guard fun start => h.attempt.bind ?_
  rintro (_ | e) shaped
  · exact yields_error _ _
  · refine .after fun t => ?_
    split
    · refine (yields_operators h).bind fun r ⟨same, shaped'⟩ => .after fun _ => yields_pure ?_
      exact ⟨.inl (congrArg Nat.succ same), shaped e rfl, shaped'⟩
    · exact .after fun end_ => yields_pure ((shaped e rfl).setLoc start end_)

theorem yields_greater (h : Yields Shaped expr) : Yields Shaped (parse_with_greater expr rounds) := by
  have operand : Yields Shaped (parse_with_plus expr rounds) := yields_chain (yields_chain (yields_atomic h))
  refine yields_guard fun start => operand.attempt.bind ?_
  rintro (_ | e) shaped
  · exact yields_error _ _
  · refine .after fun t => ?_
    split
    · refine .after fun _ => operand.attempt.bind ?_
      rintro (_ | e') shaped'
      · exact yields_error _ _
      · exact .after fun _ => yields_pure ⟨.inl rfl, shaped e rfl, shaped' e' rfl, trivial⟩
    · exact .after fun end_ => yields_pure ((shaped e rfl).setLoc start end_)

theorem yields_parse (rounds : Nat) : Yields Shaped (Expr.parse rounds : Parsing σ Expr) := by
  induction rounds with
  | zero => exact yields_spent
  | succ rounds ih => exact yields_greater ih

end Expr

section Statements

variable {rounds : Nat} {block : Parsing σ Block}

theorem yields_var_type (rounds : Nat) :
    Yields (fun t => t.is_struct_ = true → t.stct_ ≠ none) (VarType.parse rounds : Parsing σ VarType) := by
  intro s
  refine Yields.after (p := attempt (Struct.parse rounds)) ?_ s
  rintro (_ | stct)
  · refine .after fun b => ?_
    split
    · exact .after fun name => .after fun _ => .after fun _ => yields_pure nofun
    · exact .after fun _ => yields_pure nofun
  · exact .after fun _ => yields_pure fun _ => Option.some_ne_none stct

theorem yields_typedef (rounds : Nat) : Yields Typedef.Shaped (Typedef.parse rounds : Parsing σ Typedef) := by
  refine yields_guard fun start => .after fun _ => (yields_var_type rounds).attempt.bind ?_
  rintro (e | old_type) shaped
  · exact .after fun _ => yields_raise _
  · refine .after fun name => ?_
    split
    · exact .after fun _ => .after fun _ => yields_pure (shaped old_type rfl)
    · exact yields_error _ _

theorem yields_declaration (rounds : Nat) :
    Yields (fun decl => decl.var_type ≠ none) (Declaration.parse rounds : Parsing σ Declaration) := by
  refine yields_guard fun start => .after fun _ => .after fun v => ?_
  refine (sure_var_type rounds).attempt.bind ?_
  rintro (_ | t) sure
  · exact absurd rfl (sure _)
  · refine .after fun _ => .after ?_
    rintro (e | expr)
    · exact yields_error _ _
    · exact .after fun _ => yields_pure (Option.some_ne_none t)

theorem yields_assignment (rounds : Nat) :
    Yields (fun asgm => asgm.expr.Shaped) (Assignment.parse rounds : Parsing σ Assignment) := by
  refine yields_guard fun start => .after fun v => .after fun _ => (Expr.yields_parse rounds).attempt.bind ?_
  rintro (e | expr) shaped
  · exact yields_error _ _
  · exact .after fun _ => yields_pure (shaped expr rfl)

theorem yields_function (h : Yields Block.Shaped block) : Yields Node.Shaped (Function.parse block rounds) := by
  refine yields_guard fun start => .after fun _ => .after fun name => .after fun _ => ?_
  refine .after fun _ => .after fun args => .after fun _ => .after fun returns => .after fun _ => ?_
  refine .after fun _ => h.attempt.bind ?_
  rintro (e | body) shaped
  · exact yields_error _ _
  · exact .after fun _ => .after fun _ => yields_pure (shaped body rfl)

theorem yields_braced {msg : String} (h : Yields Block.Shaped block) :
    Yields Block.Shaped (parse_braced block msg rounds) := by
  refine .after fun _ => .after fun _ => h.attempt.bind ?_
  rintro (e | body) shaped
  · exact .after fun l => yields_error _ _
  · exact .after fun _ => yields_pure (shaped body rfl)

theorem yields_branches (h : Yields Block.Shaped block) (left : Nat) :
    Yields (fun r => Node.ShapedBranches r.1 ∧ Node.ShapedTail r.2) (If.parse_branches block rounds left) := by
  induction left with
  | zero => exact yields_crash
  | succ left ih =>
    refine .after ?_
    rintro (_ | cond)
    · exact yields_error _ _
    · refine (yields_braced h).bind fun body shaped => .after fun b => ?_
      split
      · refine .after fun _ => ?_
        split
        · exact yields_crash
        · refine .after fun b => ?_
          split
          · exact .after fun _ => ih.bind fun r ⟨shaped', last⟩ => yields_pure ⟨⟨shaped, shaped'⟩, last⟩
          · exact (yields_braced h).bind fun tail last => yields_pure ⟨⟨shaped, trivial⟩, last⟩
      · exact yields_pure ⟨⟨shaped, trivial⟩, trivial⟩

theorem yields_if (h : Yields Block.Shaped block) : Yields Node.Shaped (If.parse block rounds) :=
  yields_guard fun _ => .after fun _ => (yields_branches h _).bind fun _ shaped =>
    .after fun _ => yields_pure shaped

theorem yields_for (h : Yields Block.Shaped block) : Yields Node.Shaped (For.parse block rounds) :=
  yields_guard fun _ => .after fun _ => .after fun _ => .after fun _ => .after fun _ => .after fun _ =>
    .after fun _ => (yields_braced h).bind fun _ shaped => .after fun _ => yields_pure shaped

theorem yields_funcs (h : Yields Block.Shaped block) :
    ∀ f ∈ Block.parse_funcs block rounds, Yields Node.Shaped f := by
  simp only [Block.parse_funcs, List.forall_mem_cons]
  exact ⟨(yields_declaration rounds).map fun _ => id, (yields_assignment rounds).map fun _ => id,
    (Expr.yields_parse rounds).map fun _ => id, yields_if h, yields_function h,
    (yields_any _).map fun _ => id, yields_for h, (yields_typedef rounds).map fun _ => id, List.forall_mem_nil _⟩

omit [Stream σ] in
theorem yields_first_of {P : Node → Prop} {fs : List (Parsing σ Node)} (h : ∀ f ∈ fs, Yields P f) :
    Yields (fun r => ∀ node, r = some node → P node) (Block.first_of fs) := by
  induction fs with
  | nil => exact yields_pure nofun
  | cons f fs ih =>
    obtain ⟨first, others⟩ := List.forall_mem_cons.mp h
    refine first.attempt.bind ?_
    rintro (e | node) shaped
    · simp only
      split
      · exact yields_raise e
      · exact ih others
    · refine yields_pure fun node' same => ?_
      cases same
      exact shaped node rfl

theorem yields_nodes (h : Yields Block.Shaped block) (left : Nat) :
    Yields (fun nodes => Node.ShapedAll nodes ∧ nodes.length < left) (Block.parse_nodes block rounds left) := by
  induction left with
  | zero => exact yields_crash
  | succ left ih =>
    refine .after fun _ => (yields_first_of (yields_funcs h)).bind ?_
    rintro (_ | node) shaped
    · exact yields_pure ⟨trivial, Nat.succ_pos left⟩
    · refine ih.bind fun nodes ⟨shaped', count⟩ => yields_pure ⟨⟨shaped node rfl, shaped'⟩, ?_⟩
      exact Nat.succ_lt_succ count

theorem yields_block (rounds : Nat) :
    Yields (fun b => Node.ShapedAll b.nodes_ ∧ b.nodes_.length < 100000) (Block.parse rounds : Parsing σ Block) := by
  induction rounds with
  | zero => exact yields_spent
  | succ rounds ih =>
    have inner : Yields Block.Shaped (Block.parse rounds : Parsing σ Block) :=
      ih.mono fun b shaped => by
        cases b
        exact shaped.1
    exact yields_guard fun start => (yields_nodes inner _).bind fun nodes shaped =>
      .after fun _ => yields_pure shaped

theorem yields_root (rounds : Nat) : Yields Root.Shaped (Root.parse rounds : Parsing σ Root) := by
  refine yields_guard fun start => (yields_block rounds).attempt.bind ?_
  rintro (e | block) shaped
  · exact yields_error _ _
  · obtain ⟨nodes, count⟩ := shaped block rfl
    exact .after fun _ => .after fun _ => .after fun _ => yields_pure ⟨nodes, count⟩

end Statements

end Mygo
