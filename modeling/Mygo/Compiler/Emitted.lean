import Mygo.Compiler.Slots

namespace Mygo

inductive Emitted : Instruction → Prop
  | set {k : Int} (hk : IsInt k) (x : Address) : Emitted ⟨.Set32, stackTop k, x, 0⟩
  | negate {k : Int} (hk : IsInt k) :
      Emitted ⟨.MulI32D, stackTop k, i32u64 (-1), stackTop k⟩
  | arith {k l : Int} (hk : IsInt k) (hl : IsInt l) (op : BinOp) :
      Emitted ⟨.case1 op .I32, stackTop k, stackTop l, stackTop k⟩
  | move {k l : Int} (hk : IsInt k) (hl : IsInt l) : Emitted ⟨.Move, stackTop k, stackTop l, 0⟩
  | print {k : Int} (hk : IsInt k) : Emitted ⟨.Call, SC_PRINT_I32, stackTop k, 0⟩
  | jump (label : Address) : Emitted ⟨.JumpEqI32, 0, 0, label⟩
  | label (label : Address) : Emitted ⟨.Label, label, 0, 0⟩

namespace ByteCodeVM

variable {F : FloatOps} {vm vm' : ByteCodeVM}

theorem put_ok {addr : Address} {w : Nat} {v : BitVec w} (h : vm.put addr v = .ok vm') :
    ∃ m, vm' = vm.after 1 m := by
  unfold put store at h
  split at h
  · next u hu =>
    cases h
    split at hu
    · cases hu
      exact ⟨_, rfl⟩
    · cases hu
  · cases h

theorem load_zero (w : Nat) : vm.load 0 w = .error .address := by
  have untranslated : vm.transAddr 0 = .error .address := by
    rw [transAddr, if_neg (by decide), if_neg (by decide)]
  rw [load, access, untranslated]

theorem exec_jump (label : Address) :
    exec F ⟨.JumpEqI32, 0, 0, label⟩ vm = .error .address := by
  simp only [exec, load_zero]

theorem exec_emitted {i : Instruction} (h : Emitted i) (hexec : exec F i vm = .ok vm') :
    ∃ m o, vm' = { vm with out := vm.out ++ o }.after 1 m := by
  have of_put : ∀ {addr : Address} {w : Nat} {v : BitVec w}, vm.put addr v = .ok vm' →
      ∃ m o, vm' = { vm with out := vm.out ++ o }.after 1 m := by
    intro addr w v hput
    obtain ⟨m, rfl⟩ := put_ok hput
    refine ⟨m, [], ?_⟩
    simp
  cases h with
  | set hk x => exact of_put hexec
  | negate hk =>
    simp only [exec] at hexec
    split at hexec
    · split at hexec
      · exact of_put hexec
      · cases hexec
    · cases hexec
  | arith hk hl op =>
    simp only [exec] at hexec
    split at hexec
    · split at hexec
      · exact of_put hexec
      · cases hexec
    · cases hexec
    · cases hexec
  | move hk hl =>
    simp only [exec] at hexec
    split at hexec
    · exact of_put hexec
    · cases hexec
  | print hk =>
    have builtin : ¬ SC_PRINT_I32 < BUILT_IN_START := by decide
    have first : SC_PRINT_I32 ≠ SC_PRINT_I8 := by decide
    simp only [exec, if_neg builtin, ByteCodeVM.builtin, if_neg first, if_true] at hexec
    split at hexec
    · next u hu =>
      split at hu
      · cases hu
        cases hexec
        exact ⟨_, _, rfl⟩
      · cases hu
    · cases hexec
  | jump label =>
    rw [exec_jump] at hexec
    cases hexec
  | label label => cases hexec

theorem straight_emitted {i : Instruction} (h : Emitted i) : (interp F).Straight i := by
  intro vm vm' hexec
  obtain ⟨m, o, rfl⟩ := exec_emitted h hexec
  exact ⟨rfl, rfl⟩

end ByteCodeVM

namespace Compiler

variable (host : Host)

theorem emitted_opInst {k l : Int} (hk : IsInt k) (hl : IsInt l) (t : TokenType) :
    ∀ i ∈ opInst k l t, Emitted i := by
  intro i hi
  cases t <;> simp only [opInst, List.mem_singleton, List.not_mem_nil] at hi <;> subst hi
  · exact .arith hk hl .Add
  · exact .arith hk hl .Sub
  · exact .arith hk hl .Mul
  · exact .arith hk hl .Div

theorem emitted_callCode {k : Int} (hk : IsInt k) (func_name : Bytes) :
    ∀ i ∈ callCode func_name k, Emitted i := by
  intro i hi
  unfold callCode at hi
  split at hi
  · obtain rfl := List.mem_singleton.mp hi
    exact .print hk
  · cases hi

theorem emitted_moveCode (dst src length : Int) : ∀ i ∈ moveCode dst src length, Emitted i := by
  intro i hi
  obtain ⟨j, -, rfl⟩ := List.mem_map.mp hi
  exact .move (isInt_i32 _) (isInt_i32 _)

mutual

theorem emitted_exprCode (e : Expr) {k : Int} (hk : IsInt k) {code : List Instruction}
    (h : exprCode host e k = some code) : ∀ i ∈ code, Emitted i := by
  cases e with
  | TOKEN s e v =>
    cases h
    intro i hi
    unfold literatureCode at hi
    split at hi
    · obtain rfl := List.mem_singleton.mp hi
      exact .set hk _
    · obtain rfl := List.mem_singleton.mp hi
      exact .set hk _
    · cases hi
  | OPS s e ops exprs => exact emitted_opsCode ops exprs hk h
  | FUNCALL s e exprs => exact emitted_funcallCode exprs hk h

theorem emitted_opsCode (ops : List TokenType) (exprs : List Expr) {k : Int} (hk : IsInt k)
    {code : List Instruction} (h : opsCode host ops exprs k = some code) :
    ∀ i ∈ code, Emitted i := by
  cases exprs with
  | nil => cases h
  | cons e es =>
    obtain ⟨first, hfirst, h⟩ := Option.bind_eq_some_iff.mp h
    have emitted := emitted_exprCode e hk hfirst
    split at h
    · cases h
      intro i hi
      rcases List.mem_append.mp hi with hi | hi
      · exact emitted i hi
      · obtain rfl := List.mem_singleton.mp hi
        exact .negate hk
    · obtain ⟨rest, hrest, h⟩ := Option.bind_eq_some_iff.mp h
      cases h
      have emitted' := emitted_chainCode ops es hk (isInt_i32 _) hrest
      exact List.forall_mem_append.mpr ⟨emitted, emitted'⟩

theorem emitted_chainCode (ops : List TokenType) (es : List Expr) {origin top : Int}
    (ho : IsInt origin) (ht : IsInt top) {code : List Instruction}
    (h : chainCode host origin top ops es = some code) : ∀ i ∈ code, Emitted i := by
  cases ops with
  | nil =>
    rw [chainCode] at h
    cases h
    exact nofun
  | cons t ops =>
    cases es with
    | nil => cases h
    | cons e es =>
      obtain ⟨first, hfirst, h⟩ := Option.bind_eq_some_iff.mp h
      obtain ⟨rest, hrest, h⟩ := Option.bind_eq_some_iff.mp h
      cases h
      have emitted := emitted_exprCode e ht hfirst
      have emitted' := emitted_chainCode ops es ho ht hrest
      exact List.forall_mem_append.mpr
        ⟨List.forall_mem_append.mpr ⟨emitted, emitted_opInst ho ht t⟩, emitted'⟩

theorem emitted_funcallCode (exprs : List Expr) {k : Int} (hk : IsInt k) {code : List Instruction}
    (h : funcallCode host exprs k = some code) : ∀ i ∈ code, Emitted i := by
  cases exprs with
  | nil =>
    cases h
    exact emitted_callCode hk _
  | cons f args =>
    obtain ⟨rest, hrest, h⟩ := Option.bind_eq_some_iff.mp h
    cases h
    exact List.forall_mem_append.mpr ⟨emitted_argsCode args hk hrest, emitted_callCode hk _⟩

theorem emitted_argsCode (es : List Expr) {k : Int} (hk : IsInt k) {code : List Instruction}
    (h : argsCode host es k = some code) : ∀ i ∈ code, Emitted i := by
  cases es with
  | nil =>
    cases h
    exact nofun
  | cons e es =>
    obtain ⟨first, hfirst, h⟩ := Option.bind_eq_some_iff.mp h
    obtain ⟨rest, hrest, h⟩ := Option.bind_eq_some_iff.mp h
    cases h
    exact List.forall_mem_append.mpr
      ⟨emitted_exprCode e hk hfirst, emitted_argsCode es hk hrest⟩

end

structure Generating (c : Compiler) : Prop where
  emitted : ∀ i ∈ c.current_func_.instructions, Emitted i
  top : IsInt c.top

theorem Generating.emit {c : Compiler} (g : c.Generating) {code : List Instruction}
    (h : ∀ i ∈ code, Emitted i) : (c.emit code).Generating :=
  ⟨List.forall_mem_append.mpr ⟨g.emitted, h⟩, g.top⟩

theorem Generating.compile_expr {c c' : Compiler} (g : c.Generating) {e : Expr}
    (h : compile_expr host e c = some c') : c'.Generating := by
  rw [compile_expr_eq] at h
  obtain ⟨code, hcode, rfl⟩ := Option.map_eq_some_iff.mp h
  exact g.emit (emitted_exprCode host e g.top hcode)

theorem Generating.compile_declaration {c c' : Compiler} (g : c.Generating) {decl : Declaration}
    (h : compile_declaration host decl c = some c') : c'.Generating := by
  unfold Compiler.compile_declaration at h
  split at h
  · cases h
  · split at h
    · cases h
      exact ⟨g.emitted, g.top⟩
    · cases h
      exact ⟨g.emitted, isInt_i32 _⟩

theorem Generating.compile_assignment {c c' : Compiler} (g : c.Generating) {asmt : Assignment}
    (h : compile_assignment host asmt c = some c') : c'.Generating := by
  have g' : (c.subscript asmt.var_name).Generating := ⟨g.emitted, g.top⟩
  simp only [Compiler.compile_assignment] at h
  split at h
  · cases h
    exact ⟨g'.emitted, g'.top⟩
  · obtain ⟨c₂, hc₂, h⟩ := Option.bind_eq_some_iff.mp h
    cases h
    exact (g'.compile_expr host hc₂).emit (emitted_moveCode _ _ _)

mutual

theorem generating_statement (stmt : Node) {c c' : Compiler} (g : c.Generating)
    (h : compile_statement host stmt c = some c') : c'.Generating := by
  cases stmt with
  | Declaration decl => exact g.compile_declaration host h
  | Assignment asgm => exact g.compile_assignment host h
  | Expr e => exact g.compile_expr host h
  | If s e branches tail =>
    obtain ⟨c₁, h₁, h⟩ := Option.bind_eq_some_iff.mp h
    obtain ⟨c₂, h₂, h⟩ := Option.bind_eq_some_iff.mp h
    cases h
    have g₀ : c.alloc_new_label.2.Generating := ⟨g.emitted, g.top⟩
    have g₁ := g₀.emit (List.forall_mem_singleton.mpr (.jump c.alloc_new_label.1))
    exact (generating_tail tail (generating_branches branches g₁ h₁) h₂).emit
      (List.forall_mem_singleton.mpr (.label _))
  | Function s e name args rets block =>
    cases h
    exact g
  | Return ret =>
    cases h
    exact g
  | For s e init cond step block => exact generating_block block g h
  | Typedef tdef =>
    cases h
    exact g

theorem generating_branches (branches : List (Expr × Block)) {c c' : Compiler} (g : c.Generating)
    (h : compile_branches host branches c = some c') : c'.Generating := by
  cases branches with
  | nil =>
    cases h
    exact g
  | cons branch branches =>
    obtain ⟨c₁, h₁, h⟩ := Option.bind_eq_some_iff.mp h
    exact generating_branches branches (generating_block branch.2 g h₁) h

theorem generating_tail (tail : Option Block) {c c' : Compiler} (g : c.Generating)
    (h : compile_tail host tail c = some c') : c'.Generating := by
  cases tail with
  | none =>
    cases h
    exact g
  | some block => exact generating_block block g h

theorem generating_block (block : Block) {c c' : Compiler} (g : c.Generating)
    (h : compile_block host block c = some c') : c'.Generating := by
  cases block with
  | mk s e nodes => exact generating_nodes nodes g h

theorem generating_nodes (nodes : List Node) {c c' : Compiler} (g : c.Generating)
    (h : compile_nodes host nodes c = some c') : c'.Generating := by
  cases nodes with
  | nil =>
    cases h
    exact g
  | cons stmt nodes =>
    obtain ⟨c₁, h₁, h⟩ := Option.bind_eq_some_iff.mp h
    exact generating_nodes nodes (generating_statement stmt g h₁) h

end

end Compiler

end Mygo
