import Mygo.Parser.Shapes

namespace Mygo

inductive Counted
  | args | returns | values | fields | branches | stmts

def Counted.bound : Counted → Nat
  | .args => 1001
  | .returns => 99
  | .values => 100
  | .fields => 10000
  | .branches => 1001
  | .stmts => 100000

def VarType.Within (limit : Counted → Nat → Prop) (t : VarType) : Prop :=
  ∀ stct ∈ t.stct_, limit .fields stct.fields_.length

def Declaration.Within (limit : Counted → Nat → Prop) (d : Declaration) : Prop :=
  ∀ t ∈ d.var_type, t.Within limit

mutual

def Node.Within (limit : Counted → Nat → Prop) : Node → Prop
  | .Declaration decl => decl.Within limit
  | .Assignment _ => True
  | .Expr _ => True
  | .If _ _ branches tail =>
    limit .branches (branches.length + tail.toList.length) ∧ Node.WithinBranches limit branches ∧
      Node.WithinTail limit tail
  | .Function _ _ _ args returns block =>
    limit .args args.length ∧ limit .returns returns.length ∧ block.Within limit
  | .Return ret => limit .values ret.ret_exprs.length
  | .For _ _ decl _ _ block => (∀ d ∈ decl, d.Within limit) ∧ block.Within limit
  | .Typedef tdef => tdef.old_type_.Within limit

def Block.Within (limit : Counted → Nat → Prop) : Block → Prop
  | .mk _ _ nodes => limit .stmts nodes.length ∧ Node.WithinAll limit nodes

def Node.WithinAll (limit : Counted → Nat → Prop) : List Node → Prop
  | [] => True
  | node :: nodes => node.Within limit ∧ Node.WithinAll limit nodes

def Node.WithinBranches (limit : Counted → Nat → Prop) : List (Expr × Block) → Prop
  | [] => True
  | (_, block) :: branches => block.Within limit ∧ Node.WithinBranches limit branches

def Node.WithinTail (limit : Counted → Nat → Prop) : Option Block → Prop
  | none => True
  | some block => block.Within limit

end

def Root.Within (limit : Counted → Nat → Prop) (root : Root) : Prop := root.block_.Within limit

section Decidable

variable {limit : Counted → Nat → Prop} [∀ k n, Decidable (limit k n)]

instance (t : VarType) : Decidable (t.Within limit) :=
  inferInstanceAs (Decidable (∀ stct ∈ t.stct_, limit .fields stct.fields_.length))

instance (d : Declaration) : Decidable (d.Within limit) :=
  inferInstanceAs (Decidable (∀ t ∈ d.var_type, t.Within limit))

mutual

def Node.decidableWithin : (node : Node) → Decidable (node.Within limit)
  | .Declaration decl => inferInstanceAs (Decidable (decl.Within limit))
  | .Assignment _ => .isTrue trivial
  | .Expr _ => .isTrue trivial
  | .If _ _ branches tail =>
    have := Node.decidableBranches branches
    have := Node.decidableTail tail
    inferInstanceAs (Decidable (_ ∧ _ ∧ _))
  | .Function _ _ _ _ _ block =>
    have := Block.decidableWithin block
    inferInstanceAs (Decidable (_ ∧ _ ∧ _))
  | .Return ret => inferInstanceAs (Decidable (limit .values ret.ret_exprs.length))
  | .For _ _ decl _ _ block =>
    have := Block.decidableWithin block
    inferInstanceAs (Decidable ((∀ d ∈ decl, d.Within limit) ∧ _))
  | .Typedef tdef => inferInstanceAs (Decidable (tdef.old_type_.Within limit))

def Block.decidableWithin : (block : Block) → Decidable (block.Within limit)
  | .mk _ _ nodes =>
    have := Node.decidableAll nodes
    inferInstanceAs (Decidable (_ ∧ _))

def Node.decidableAll : (nodes : List Node) → Decidable (Node.WithinAll limit nodes)
  | [] => .isTrue trivial
  | node :: nodes =>
    have := Node.decidableWithin node
    have := Node.decidableAll nodes
    inferInstanceAs (Decidable (_ ∧ _))

def Node.decidableBranches : (branches : List (Expr × Block)) → Decidable (Node.WithinBranches limit branches)
  | [] => .isTrue trivial
  | (_, block) :: branches =>
    have := Block.decidableWithin block
    have := Node.decidableBranches branches
    inferInstanceAs (Decidable (_ ∧ _))

def Node.decidableTail : (tail : Option Block) → Decidable (Node.WithinTail limit tail)
  | none => .isTrue trivial
  | some block => Block.decidableWithin block

end

instance (root : Root) : Decidable (root.Within limit) := root.block_.decidableWithin

end Decidable

open Parser

variable {σ : Type} [Stream σ] {rounds : Nat} {block : Parsing σ Block}

abbrev bounded (k : Counted) (n : Nat) : Prop := n < k.bound

theorem limits_fields (left : Nat) :
    Yields (fun fields => fields.length < left) (Struct.parse_fields rounds left : Parsing σ _) := by
  induction left with
  | zero => exact yields_crash
  | succ left ih =>
    refine .after fun first => ?_
    split
    · refine .after fun _ => .after fun second => ?_
      split
      · exact .after fun _ => .after fun _ => .after fun _ => ih.bind fun fields count =>
          yields_pure (Nat.succ_lt_succ count)
      · exact yields_error _ _
    · exact yields_pure (Nat.succ_pos left)

theorem limits_struct :
    Yields (fun stct => stct.fields_.length < 10000) (Struct.parse rounds : Parsing σ Struct) :=
  yields_guard fun _ => .after fun _ => .after fun _ => .after fun _ => (limits_fields 10000).bind fun _ count =>
    .after fun _ => .after fun _ => yields_pure count

theorem limits_type : Yields (VarType.Within bounded) (VarType.parse rounds : Parsing σ VarType) := by
  intro s
  refine limits_struct.attempt.bind ?_ s
  rintro (_ | stct) count
  · refine .after fun b => ?_
    split
    · exact .after fun name => .after fun _ => .after fun _ => yields_pure nofun
    · exact .after fun _ => yields_pure nofun
  · refine .after fun _ => yields_pure ?_
    rintro _ ⟨⟩
    exact count stct rfl

theorem limits_declaration :
    Yields (Declaration.Within bounded) (Declaration.parse rounds : Parsing σ Declaration) := by
  refine yields_guard fun start => .after fun _ => .after fun v => limits_type.attempt.bind ?_
  intro r within
  refine .after fun _ => .after ?_
  rintro (e | expr)
  · exact yields_error _ _
  · refine .after fun _ => yields_pure fun t typed => within t ?_
    cases r with
    | error e => cases typed
    | ok t' =>
      cases typed
      rfl

theorem limits_exprs (left : Nat) :
    Yields (fun es => es.length < left) (Return.parse_exprs rounds left : Parsing σ _) := by
  induction left with
  | zero => exact yields_crash
  | succ left ih =>
    refine .after ?_
    rintro (_ | e)
    · exact yields_pure (Nat.succ_pos left)
    · exact ih.bind fun es count => yields_pure (Nat.succ_lt_succ count)

theorem limits_return :
    Yields (fun ret => ret.ret_exprs.length < 100) (Return.parse rounds : Parsing σ Return) :=
  yields_guard fun _ => .after fun _ => (limits_exprs 100).bind fun _ count => .after fun _ => yields_pure count

theorem limits_typedef :
    Yields (fun tdef => tdef.old_type_.Within bounded) (Typedef.parse rounds : Parsing σ Typedef) := by
  refine yields_guard fun start => .after fun _ => limits_type.attempt.bind ?_
  rintro (e | old_type) within
  · exact .after fun _ => yields_raise _
  · refine .after fun name => ?_
    split
    · exact .after fun _ => .after fun _ => yields_pure (within old_type rfl)
    · exact yields_error _ _

theorem limits_args (left : Nat) :
    Yields (fun args => args.length < left + 1) (Function.parse_args left : Parsing σ _) := by
  induction left with
  | zero => exact yields_pure (Nat.succ_pos 0)
  | succ left ih =>
    refine .after fun t => ?_
    split
    · exact .after fun _ => .after fun _ => .after fun _ => ih.bind fun args count =>
        yields_pure (Nat.succ_lt_succ count)
    · exact yields_pure (Nat.succ_pos _)

theorem limits_returns (left : Nat) :
    Yields (fun returns => returns.length < left) (Function.parse_returns left : Parsing σ _) := by
  induction left with
  | zero => exact yields_crash
  | succ left ih =>
    refine .after fun b => ?_
    split
    · exact .after fun _ => .after fun _ => ih.bind fun returns count => yields_pure (Nat.succ_lt_succ count)
    · exact yields_pure (Nat.succ_pos left)

theorem limits_function (h : Yields (Block.Within bounded) block) :
    Yields (Node.Within bounded) (Function.parse block rounds) := by
  refine yields_guard fun start => .after fun _ => .after fun name => .after fun _ => .after fun _ => ?_
  refine (limits_args 1000).bind fun args few => .after fun _ => (limits_returns 99).bind fun returns few' => ?_
  refine .after fun _ => .after fun _ => h.attempt.bind ?_
  rintro (e | body) within
  · exact yields_error _ _
  · exact .after fun _ => .after fun _ => yields_pure ⟨few, few', within body rfl⟩

theorem limits_braced {msg : String} (h : Yields (Block.Within bounded) block) :
    Yields (Block.Within bounded) (parse_braced block msg rounds) := by
  refine .after fun _ => .after fun _ => h.attempt.bind ?_
  rintro (e | body) within
  · exact .after fun l => yields_error _ _
  · exact .after fun _ => yields_pure (within body rfl)

theorem limits_branches (h : Yields (Block.Within bounded) block) (left : Nat) :
    Yields (fun r => r.1.length + r.2.toList.length ≤ left ∧ Node.WithinBranches bounded r.1 ∧
      Node.WithinTail bounded r.2) (If.parse_branches block rounds left) := by
  induction left with
  | zero => exact yields_crash
  | succ left ih =>
    refine .after ?_
    rintro (_ | cond)
    · exact yields_error _ _
    · refine (limits_braced h).bind fun body within => .after fun b => ?_
      split
      · refine .after fun _ => ?_
        split
        · exact yields_crash
        · next more =>
          refine .after fun b => ?_
          split
          · refine .after fun _ => ih.bind fun r ⟨count, within', last⟩ => yields_pure ⟨?_, ⟨within, within'⟩, last⟩
            simp only [List.length_cons]
            omega
          · refine (limits_braced h).bind fun tail last => yields_pure ⟨?_, ⟨within, trivial⟩, last⟩
            simp only [List.length_cons, List.length_nil, Option.toList]
            omega
      · exact yields_pure ⟨Nat.le_add_left 1 left, ⟨within, trivial⟩, trivial⟩

theorem limits_if (h : Yields (Block.Within bounded) block) :
    Yields (Node.Within bounded) (If.parse block rounds) :=
  yields_guard fun _ => .after fun _ => (limits_branches h 1000).bind fun _ ⟨count, within⟩ =>
    .after fun _ => yields_pure ⟨Nat.lt_succ_of_le count, within⟩

theorem limits_for (h : Yields (Block.Within bounded) block) :
    Yields (Node.Within bounded) (For.parse block rounds) := by
  refine yields_guard fun _ => .after fun _ => limits_declaration.attempt.bind fun decl within => ?_
  refine .after fun _ => .after fun _ => .after fun _ => .after fun _ => (limits_braced h).bind fun body within' => ?_
  refine .after fun _ => yields_pure ⟨fun d there => within d ?_, within'⟩
  cases decl with
  | error e => cases there
  | ok d' =>
    cases there
    rfl

theorem limits_funcs (h : Yields (Block.Within bounded) block) :
    ∀ f ∈ Block.parse_funcs block rounds, Yields (Node.Within bounded) f := by
  simp only [Block.parse_funcs, List.forall_mem_cons]
  exact ⟨limits_declaration.map fun _ => id, (yields_any _).map fun _ => id, (yields_any _).map fun _ => id,
    limits_if h, limits_function h, limits_return.map fun _ => id, limits_for h, limits_typedef.map fun _ => id,
    List.forall_mem_nil _⟩

theorem limits_nodes (h : Yields (Block.Within bounded) block) (left : Nat) :
    Yields (fun nodes => nodes.length < left ∧ Node.WithinAll bounded nodes)
      (Block.parse_nodes block rounds left) := by
  induction left with
  | zero => exact yields_crash
  | succ left ih =>
    refine .after fun _ => (yields_first_of (limits_funcs h)).bind ?_
    rintro (_ | node) within
    · exact yields_pure ⟨Nat.succ_pos left, trivial⟩
    · refine ih.bind fun nodes ⟨count, within'⟩ => yields_pure ⟨?_, within node rfl, within'⟩
      exact Nat.succ_lt_succ count

theorem limits_block (rounds : Nat) : Yields (Block.Within bounded) (Block.parse rounds : Parsing σ Block) := by
  induction rounds with
  | zero => exact yields_spent
  | succ rounds ih =>
    exact yields_guard fun start => (limits_nodes ih 100000).bind fun nodes within =>
      .after fun _ => yields_pure within

/-- The parts of an accepted program are below the bounds of the loops. -/
theorem limits_root (rounds : Nat) : Yields (Root.Within bounded) (Root.parse rounds : Parsing σ Root) := by
  refine yields_guard fun start => (limits_block rounds).attempt.bind ?_
  rintro (e | block) within
  · exact yields_error _ _
  · exact .after fun _ => .after fun _ => .after fun _ => yields_pure (within block rfl)

end Mygo
