import Mygo.Compiler.Meaning

namespace Mygo

open ByteMemory

namespace ByteCodeVM

variable {vm : ByteCodeVM} {F : FloatOps}

def view (vm : ByteCodeVM) : Store := ⟨vm.stack_, vm.out⟩

def advance (vm : ByteCodeVM) (n : Nat) (s : Store) : ByteCodeVM :=
  { vm with pc_ := vm.pc_ + n, stack_ := s.mem, out := s.out }

@[simp] theorem view_advance (vm : ByteCodeVM) (n : Nat) (s : Store) : (vm.advance n s).view = s := rfl

@[simp] theorem advance_advance (vm : ByteCodeVM) (n n' : Nat) (s s' : Store) :
    (vm.advance n s).advance n' s' = vm.advance (n + n') s' := by
  simp [advance, Nat.add_assoc]

@[simp] theorem advance_zero (vm : ByteCodeVM) : vm.advance 0 vm.view = vm := rfl

theorem Flat.advance (h : vm.Flat) (n : Nat) (s : Store) : (vm.advance n s).Flat := h

theorem load_get (flat : vm.Flat) {k : Int} (hk : IsInt k) :
    vm.load (stackTop k) 32 = vm.view.get k := by
  unfold Store.get
  split
  · next fits =>
    obtain ⟨k, rfl⟩ := Int.eq_ofNat_of_zero_le fits.1
    exact load_slot flat (by have := fits.2; omega)
  · next outside => rw [load, access_outside flat hk outside]

theorem put_set (flat : vm.Flat) {k : Int} (hk : IsInt k) (v : BitVec 32) :
    vm.put (stackTop k) v = (vm.view.set k v).map (vm.advance 1) := by
  unfold Store.set
  split
  · next fits =>
    obtain ⟨k, rfl⟩ := Int.eq_ofNat_of_zero_le fits.1
    exact put_slot flat (by have := fits.2; omega) v
  · next outside => 
    rw [put, ByteCodeVM.store, access_outside flat hk outside]
    rfl

theorem exec_move' (flat : vm.Flat) {k l : Int} (hk : IsInt k) (hl : IsInt l) :
    exec F ⟨.Move, stackTop k, stackTop l, 0⟩ vm = (vm.view.move k l).map (vm.advance 1) := by
  unfold Store.move
  split
  · next fits =>
    obtain ⟨⟨hl₀, hl₁⟩, hk₀, hk₁⟩ := fits
    obtain ⟨k, rfl⟩ := Int.eq_ofNat_of_zero_le hk₀
    obtain ⟨l, rfl⟩ := Int.eq_ofNat_of_zero_le hl₀
    exact exec_move flat (by omega) (by omega) 0
  · next outside =>
    simp only [exec]
    by_cases fits : SlotFits l 1
    · have outside' : ¬ SlotFits k 1 := fun h => outside ⟨fits, h⟩
      obtain ⟨l, rfl⟩ := Int.eq_ofNat_of_zero_le fits.1
      have operand : vm.load (stackTop l) 8 = _ := load_slot flat (by have := fits.2; omega)
      simp only [operand, put, ByteCodeVM.store, access_outside flat hk outside']
      rfl
    · simp only [load, access_outside flat hl fits]
      rfl

end ByteCodeVM

/-- Wherever it is run, `code` does to the machine's store what `f` does. -/
def Performs (F : FloatOps) (code : List Instruction) (f : Store → Except Fault Store) : Prop :=
  ∀ vm : ByteCodeVM, vm.Flat →
    (ByteCodeVM.interp F).execList code vm = (f vm.view).map (vm.advance code.length)

namespace Performs

variable {F : FloatOps} {code code' : List Instruction} {f g : Store → Except Fault Store}

theorem nil (F : FloatOps) : Performs F [] .ok := fun _ _ => rfl

theorem congr (h : Performs F code f) (same : ∀ s, f s = g s) : Performs F code g := by
  intro vm flat
  rw [h vm flat, same]

theorem append (h : Performs F code f) (h' : Performs F code' g) :
    Performs F (code ++ code') (fun s => f s >>= g) := by
  intro vm flat
  rw [Interp.execList_append, h vm flat]
  cases hf : f vm.view with
  | error e => simp only [hf, Except.map, Interp.bind_error]
  | ok s =>
    have rest := h' (vm.advance code.length s) (flat.advance _ _)
    rw [ByteCodeVM.view_advance] at rest
    simp only [hf, Except.map, Interp.bind_ok, rest, List.length_append]
    cases g s with
    | error e => rfl
    | ok s' => exact congrArg Except.ok (ByteCodeVM.advance_advance _ _ _ _ _)

theorem single {i : Instruction}
    (h : ∀ vm : ByteCodeVM, vm.Flat → ByteCodeVM.exec F i vm = (f vm.view).map (vm.advance 1)) :
    Performs F [i] f := by
  intro vm flat
  simp only [Interp.execList, ByteCodeVM.interp, h vm flat]
  cases f vm.view <;> rfl

end Performs

namespace Compiler

variable (host : Host) (F : FloatOps)

theorem f32u64_word (f : FloatLiteral) : (f32u64 host f).setWidth 32 = host.f32 f := by
  rw [f32u64, BitVec.setWidth_setWidth_of_le _ (by decide), BitVec.setWidth_eq]

theorem performs_set {k : Int} (hk : IsInt k) {x : Address} {v : BitVec 32}
    (hx : x.setWidth 32 = v) : Performs F [⟨.Set32, stackTop k, x, 0⟩] (Store.set k v) := by
  subst hx
  exact .single fun vm flat => ByteCodeVM.put_set flat hk _

theorem performs_negate {k : Int} (hk : IsInt k) :
    Performs F [⟨.MulI32D, stackTop k, i32u64 (-1), stackTop k⟩]
      (fun s => s.get k >>= fun x => s.set k (-x)) := by
  apply Performs.single
  intro vm flat
  have minusOne : (i32u64 (-1)).setWidth 32 = (-1 : BitVec 32) := by decide
  have negated : ∀ x : BitVec 32, x * (-1) = -x := fun x => by
    rw [BitVec.mul_neg]
    exact congrArg (- ·) (BitVec.mul_one _)
  simp only [ByteCodeVM.exec, InsType.width, ByteCodeVM.load_get flat hk, FloatOps.arith, arithInt,
    minusOne, negated]
  cases vm.view.get k with
  | error e => rfl
  | ok x => exact ByteCodeVM.put_set flat hk _

theorem performs_arith {k l : Int} (hk : IsInt k) (hl : IsInt l) (op : BinOp) :
    Performs F [⟨.case1 op .I32, stackTop k, stackTop l, stackTop k⟩] (Store.apply op k l) := by
  apply Performs.single
  intro vm flat
  simp only [ByteCodeVM.exec, InsType.width, ByteCodeVM.load_get flat hk,
    ByteCodeVM.load_get flat hl, FloatOps.arith, Store.apply]
  cases vm.view.get l with
  | error e => rfl
  | ok x =>
    cases vm.view.get k with
    | error e => rfl
    | ok y =>
      simp only [Interp.bind_ok]
      cases arithInt op x y with
      | error e => rfl
      | ok v => exact ByteCodeVM.put_set flat hk _

theorem performs_opInst {k l : Int} (hk : IsInt k) (hl : IsInt l) (t : TokenType) :
    Performs F (opInst k l t) (Store.applyOp t k l) := by
  cases t
  case Plus => exact performs_arith F hk hl .Add
  case Sub => exact performs_arith F hk hl .Sub
  case Star => exact performs_arith F hk hl .Mul
  case Slash => exact performs_arith F hk hl .Div
  all_goals exact .nil F

theorem performs_moveCode (dst src length : Int) :
    Performs F (moveCode dst src length) (Store.copy dst src length.toNat) := by
  rw [moveCode]
  induction length.toNat with
  | zero => exact .nil F
  | succ n ih =>
    rw [List.range_succ, List.map_append]
    exact ih.append (.single fun vm flat => ByteCodeVM.exec_move' flat (isInt_i32 _) (isInt_i32 _))

theorem performs_callCode {k : Int} (hk : IsInt k) (func_name : Bytes) :
    Performs F (callCode func_name k)
      (fun s => if func_name = bytes "print" then s.print k else .ok s) := by
  unfold callCode
  split
  · apply Performs.single
    intro vm flat
    have builtin : ¬ SC_PRINT_I32 < BUILT_IN_START := by decide
    have first : SC_PRINT_I32 ≠ SC_PRINT_I8 := by decide
    simp only [ByteCodeVM.exec, if_neg builtin, ByteCodeVM.builtin, if_neg first, if_true,
      ByteCodeVM.load_get flat hk, Store.print]
    cases vm.view.get k <;> rfl
  · exact .nil F

mutual

theorem performs_exprCode (e : Expr) {k : Int} (hk : IsInt k) {code : List Instruction}
    (h : exprCode host e k = some code) : Performs F code (e.run host k) := by
  cases e with
  | TOKEN s e v =>
    cases h
    unfold literatureCode
    split
    · next hv =>
      simpa only [Expr.run, hv] using performs_set F hk (i32u64_word v.i_data_)
    · next hv =>
      simpa only [Expr.run, hv] using performs_set F hk (f32u64_word host v.f_data_)
    · next hint hfloat =>
      have unchanged : (Expr.TOKEN s e v).run host k = .ok := by
        funext st
        rw [Expr.run]
        split <;> simp_all
      rw [unchanged]
      exact .nil F
  | OPS s e ops exprs => exact performs_opsCode ops exprs hk h
  | FUNCALL s e exprs => exact performs_funcallCode exprs hk h

theorem performs_opsCode (ops : List TokenType) (exprs : List Expr) {k : Int} (hk : IsInt k)
    {code : List Instruction} (h : opsCode host ops exprs k = some code) :
    Performs F code (Expr.runOps host ops exprs k) := by
  cases exprs with
  | nil => cases h
  | cons e es =>
    obtain ⟨first, hfirst, h⟩ := Option.bind_eq_some_iff.mp h
    have operand := performs_exprCode e hk hfirst
    split at h
    · next hunary =>
      cases h
      simpa only [Expr.runOps, if_pos hunary] using operand.append (performs_negate F hk)
    · next hchain =>
      obtain ⟨rest, hrest, h⟩ := Option.bind_eq_some_iff.mp h
      cases h
      have chain := performs_chainCode ops es hk (isInt_i32 _) hrest
      simpa only [Expr.runOps, if_neg hchain] using operand.append chain

theorem performs_chainCode (ops : List TokenType) (es : List Expr) {origin top : Int}
    (ho : IsInt origin) (ht : IsInt top) {code : List Instruction}
    (h : chainCode host origin top ops es = some code) :
    Performs F code (Expr.runChain host origin top ops es) := by
  cases ops with
  | nil =>
    rw [chainCode] at h
    cases h
    cases es <;> exact .nil F
  | cons t ops =>
    cases es with
    | nil => cases h
    | cons e es =>
      obtain ⟨first, hfirst, h⟩ := Option.bind_eq_some_iff.mp h
      obtain ⟨rest, hrest, h⟩ := Option.bind_eq_some_iff.mp h
      cases h
      have operand := performs_exprCode e ht hfirst
      have chain := performs_chainCode ops es ho ht hrest
      have all := (operand.append (performs_opInst F ho ht t)).append chain
      simp only [bind_assoc] at all
      exact all

theorem performs_funcallCode (exprs : List Expr) {k : Int} (hk : IsInt k) {code : List Instruction}
    (h : funcallCode host exprs k = some code) : Performs F code (Expr.runCall host exprs k) := by
  cases exprs with
  | nil =>
    cases h
    exact performs_callCode F hk []
  | cons f args =>
    obtain ⟨rest, hrest, h⟩ := Option.bind_eq_some_iff.mp h
    cases h
    exact (performs_argsCode args hk hrest).append (performs_callCode F hk f.str)

theorem performs_argsCode (es : List Expr) {k : Int} (hk : IsInt k) {code : List Instruction}
    (h : argsCode host es k = some code) : Performs F code (Expr.runArgs host es k) := by
  cases es with
  | nil =>
    cases h
    exact .nil F
  | cons e es =>
    obtain ⟨first, hfirst, h⟩ := Option.bind_eq_some_iff.mp h
    obtain ⟨rest, hrest, h⟩ := Option.bind_eq_some_iff.mp h
    cases h
    exact (performs_exprCode e hk hfirst).append (performs_argsCode es hk hrest)

end

def layout (c : Compiler) : Layout := ⟨c.top, c.current_func_.var_address_map⟩

structure Kept (c c' : Compiler) : Prop where
  table : c'.type_table_ = c.type_table_
  program : c'.program_ = c.program_
  funcs : c'.func_table_ = c.func_table_
  name : c'.current_func_.name = c.current_func_.name

theorem Kept.trans {c c₁ c₂ : Compiler} (h : Kept c c₁) (h' : Kept c₁ c₂) : Kept c c₂ :=
  ⟨h'.table.trans h.table, h'.program.trans h.program, h'.funcs.trans h.funcs,
    h'.name.trans h.name⟩

/-- What was emitted on the way from `c` to `c'` does to the store what `f` does, and `f` knows
the layout of `c'`. -/
structure Simulates (c c' : Compiler) (f : Store → Except Fault (Layout × Store)) : Prop where
  code : ∃ code, c'.current_func_.instructions = c.current_func_.instructions ++ code ∧
    Performs F code fun s => (f s).map Prod.snd
  layout : ∀ s l s', f s = .ok (l, s') → l = c'.layout
  kept : Kept c c'

namespace Simulates

variable {F} {c c₁ c₂ : Compiler} {f : Store → Except Fault (Layout × Store)}

theorem silent (code : c₁.current_func_.instructions = c.current_func_.instructions)
    (kept : Kept c c₁) : Simulates F c c₁ (fun s => .ok (c₁.layout, s)) where
  code := ⟨[], by rw [code, List.append_nil], .nil F⟩
  layout s l s' h := by
    cases h
    rfl
  kept := kept

theorem ofPerforms {code : List Instruction} {f : Store → Except Fault Store}
    (h : Performs F code f) :
    Simulates F c (c.emit code) (fun s => f s >>= fun s' => .ok (c.layout, s')) where
  code := by
    refine ⟨code, rfl, h.congr fun s => ?_⟩
    cases f s <;> rfl
  layout s l s' hf := by
    cases hs : f s with
    | error e => simp [hs] at hf
    | ok s₁ =>
      rw [hs] at hf
      cases hf
      rfl
  kept := ⟨rfl, rfl, rfl, rfl⟩

theorem append {g : Layout → Store → Except Fault (Layout × Store)} (h : Simulates F c c₁ f)
    (h' : Simulates F c₁ c₂ (g c₁.layout)) :
    Simulates F c c₂ (fun s => f s >>= fun p => g p.1 p.2) where
  code := by
    obtain ⟨code, hcode, performs⟩ := h.code
    obtain ⟨code', hcode', performs'⟩ := h'.code
    refine ⟨code ++ code', by rw [hcode', hcode, List.append_assoc],
      (performs.append performs').congr fun s => ?_⟩
    cases hf : f s with
    | error e => rfl
    | ok p =>
      obtain ⟨l, s'⟩ := p
      obtain rfl := h.layout _ _ _ hf
      rfl
  layout s l s' hs := by
    cases hf : f s with
    | error e => simp [hf] at hs
    | ok p =>
      obtain ⟨l₁, s₁⟩ := p
      rw [hf, h.layout _ _ _ hf] at hs
      exact h'.layout _ _ _ hs
  kept := h.kept.trans h'.kept

theorem congr {f' : Store → Except Fault (Layout × Store)} (h : Simulates F c c₁ f)
    (same : ∀ s, f s = f' s) : Simulates F c c₁ f' := by
  rw [← funext same]
  exact h

theorem fault {i : Instruction} {e : Fault} {code : List Instruction}
    (hi : ∀ vm, ByteCodeVM.exec F i vm = .error e)
    (hcode : c₁.current_func_.instructions = c.current_func_.instructions ++ i :: code)
    (kept : Kept c c₁) : Simulates F c c₁ (fun _ => .error e) where
  code := by
    refine ⟨i :: code, hcode, fun vm _ => ?_⟩
    simp only [Interp.execList, ByteCodeVM.interp, hi]
    rfl
  layout _ _ _ h := nomatch h
  kept := kept

end Simulates

structure Grows (c c' : Compiler) : Prop where
  code : ∃ code, c'.current_func_.instructions = c.current_func_.instructions ++ code
  kept : Kept c c'

theorem Grows.refl (c : Compiler) : Grows c c := ⟨⟨[], (List.append_nil _).symm⟩, rfl, rfl, rfl, rfl⟩

theorem Grows.trans {c c₁ c₂ : Compiler} (h : Grows c c₁) (h' : Grows c₁ c₂) : Grows c c₂ := by
  obtain ⟨code, hcode⟩ := h.code
  obtain ⟨code', hcode'⟩ := h'.code
  exact ⟨⟨code ++ code', by rw [hcode', hcode, List.append_assoc]⟩, h.kept.trans h'.kept⟩

theorem Simulates.grows {F : FloatOps} {c c' : Compiler}
    {f : Store → Except Fault (Layout × Store)} (h : Simulates F c c' f) : Grows c c' := by
  obtain ⟨code, hcode, -⟩ := h.code
  exact ⟨⟨code, hcode⟩, h.kept⟩

theorem simulates_expr {e : Expr} {c c' : Compiler} (g : c.Generating)
    (h : compile_expr host e c = some c') :
    Simulates F c c' (fun s => e.run host c.top s >>= fun s' => .ok (c.layout, s')) := by
  rw [compile_expr_eq] at h
  obtain ⟨code, hcode, rfl⟩ := Option.map_eq_some_iff.mp h
  exact .ofPerforms (performs_exprCode host F e g.top hcode)

theorem declaration_effect {decl : Declaration} {c c' : Compiler}
    (h : compile_declaration host decl c = some c') :
    c'.layout = c.layout.declare host c.type_table_ decl ∧
      c'.current_func_.instructions = c.current_func_.instructions ∧ Kept c c' := by
  cases typed : decl.var_type with
  | none => simp only [compile_declaration, typed, reduceCtorEq] at h
  | some t =>
    cases found : c.type_table_.findByName host t.name_ with
    | none =>
      simp only [compile_declaration, typed, found] at h
      cases h
      refine ⟨?_, rfl, rfl, rfl, rfl, rfl⟩
      rw [Layout.declare, typed, Option.bind_some, found]
      rfl
    | some s =>
      simp only [compile_declaration, typed, found] at h
      cases h
      refine ⟨?_, rfl, rfl, rfl, rfl, rfl⟩
      rw [Layout.declare, typed, Option.bind_some, found]
      rfl

/-- `operator[]` has always made an entry by the time it is looked for. -/
theorem assignment_effect {asgm : Assignment} {c c' : Compiler}
    (h : compile_assignment host asgm c = some c') :
    ∃ var code, (c.layout.subscript asgm.var_name).vars asgm.var_name = some var ∧
      exprCode host asgm.expr c.top = some code ∧
      c' = (c.subscript asgm.var_name).emit (code ++ moveCode var.address c.top var.size) := by
  have entry : (c.layout.subscript asgm.var_name).vars asgm.var_name ≠ none := by
    simp only [Layout.subscript, Scope.emplace]
    cases hvar : c.layout.vars asgm.var_name <;> simp [hvar]
  simp only [compile_assignment] at h
  split at h
  · next hnone => exact absurd hnone entry
  · next var hvar =>
    rw [compile_expr_eq] at h
    cases hcode : exprCode host asgm.expr (c.subscript asgm.var_name).top with
    | none => simp [hcode] at h
    | some code =>
      rw [hcode] at h
      cases h
      exact ⟨var, code, hvar, hcode, emit_emit _ _ _⟩

theorem simulates_declaration {decl : Declaration} {c c' : Compiler}
    (h : compile_declaration host decl c = some c') :
    Simulates F c c' (Meaning.runNode host c.type_table_ (.Declaration decl) c.layout) := by
  obtain ⟨layout, code, kept⟩ := declaration_effect host h
  have silent := Simulates.silent (F := F) code kept
  rw [layout] at silent
  exact silent

theorem simulates_assignment {asgm : Assignment} {c c' : Compiler} (g : c.Generating)
    (h : compile_assignment host asgm c = some c') :
    Simulates F c c' (Meaning.runNode host c.type_table_ (.Assignment asgm) c.layout) := by
  obtain ⟨var, code, hvar, hcode, rfl⟩ := assignment_effect host h
  have expr := performs_exprCode host F asgm.expr g.top hcode
  have moves := performs_moveCode F var.address c.top var.size
  have all : Simulates F (c.subscript asgm.var_name) _ _ := .ofPerforms (expr.append moves)
  have all' : Simulates F c _ _ := ⟨all.code, all.layout, all.kept.table, all.kept.program,
    all.kept.funcs, all.kept.name⟩
  refine all'.congr fun s => ?_
  simp only [Meaning.runNode, hvar, bind_assoc]
  rfl

mutual

theorem simulates_statement (F : FloatOps) (stmt : Node) {c c' : Compiler} (g : c.Generating)
    (h : compile_statement host stmt c = some c') :
    Simulates F c c' (Meaning.runNode host c.type_table_ stmt c.layout) := by
  cases stmt with
  | Declaration decl => exact simulates_declaration host F h
  | Assignment asgm => exact simulates_assignment host F g h
  | Expr e => exact simulates_expr host F g h
  | If s e branches tail =>
    obtain ⟨c₁, h₁, h⟩ := Option.bind_eq_some_iff.mp h
    obtain ⟨c₂, h₂, h⟩ := Option.bind_eq_some_iff.mp h
    cases h
    have g₀ : c.alloc_new_label.2.Generating := ⟨g.emitted, g.top⟩
    have g₁ := g₀.emit (List.forall_mem_singleton.mpr (.jump c.alloc_new_label.1))
    have grows := (grows_branches F branches g₁ h₁).trans
      (grows_tail F tail (generating_branches host branches g₁ h₁) h₂)
    obtain ⟨code, hcode⟩ := grows.code
    have kept : Kept c (c₂.emit [⟨.Label, c.alloc_new_label.1, 0, 0⟩]) :=
      ⟨grows.kept.table, grows.kept.program, grows.kept.funcs, grows.kept.name⟩
    have all : (c₂.emit [⟨.Label, c.alloc_new_label.1, 0, 0⟩]).current_func_.instructions =
        c.current_func_.instructions ++ ⟨.JumpEqI32, 0, 0, c.alloc_new_label.1⟩ ::
          (code ++ [⟨.Label, c.alloc_new_label.1, 0, 0⟩]) := by
      simp only [emit, hcode]
      simp [alloc_new_label]
    exact .fault (fun vm => ByteCodeVM.exec_jump c.alloc_new_label.1) all kept
  | Function s e name args rets block =>
    cases h
    exact .silent rfl ⟨rfl, rfl, rfl, rfl⟩
  | Return ret =>
    cases h
    exact .silent rfl ⟨rfl, rfl, rfl, rfl⟩
  | For s e init cond step block => exact simulates_block F block g h
  | Typedef tdef =>
    cases h
    exact .silent rfl ⟨rfl, rfl, rfl, rfl⟩

theorem grows_branches (F : FloatOps) (branches : List (Expr × Block)) {c c' : Compiler} (g : c.Generating)
    (h : compile_branches host branches c = some c') : Grows c c' := by
  cases branches with
  | nil =>
    cases h
    exact .refl c
  | cons branch branches =>
    obtain ⟨c₁, h₁, h⟩ := Option.bind_eq_some_iff.mp h
    exact (simulates_block F branch.2 g h₁).grows.trans
      (grows_branches F branches (generating_block host branch.2 g h₁) h)

theorem grows_tail (F : FloatOps) (tail : Option Block) {c c' : Compiler} (g : c.Generating)
    (h : compile_tail host tail c = some c') : Grows c c' := by
  cases tail with
  | none =>
    cases h
    exact .refl c
  | some block => exact (simulates_block F block g h).grows

theorem simulates_block (F : FloatOps) (block : Block) {c c' : Compiler} (g : c.Generating)
    (h : compile_block host block c = some c') :
    Simulates F c c' (Meaning.runBlock host c.type_table_ block c.layout) := by
  cases block with
  | mk s e nodes => exact simulates_nodes F nodes g h

theorem simulates_nodes (F : FloatOps) (nodes : List Node) {c c' : Compiler} (g : c.Generating)
    (h : compile_nodes host nodes c = some c') :
    Simulates F c c' (Meaning.runNodes host c.type_table_ nodes c.layout) := by
  cases nodes with
  | nil =>
    cases h
    exact .silent rfl ⟨rfl, rfl, rfl, rfl⟩
  | cons stmt nodes =>
    obtain ⟨c₁, h₁, h⟩ := Option.bind_eq_some_iff.mp h
    have first := simulates_statement F stmt g h₁
    have rest := simulates_nodes F nodes (generating_statement host stmt g h₁) h
    rw [first.kept.table] at rest
    exact first.append rest

end

structure Compiled (table : TypeTable) (func : Bytes × Block) (info : FuncInfo) : Prop where
  name : info.name = func.1
  emitted : ∀ i ∈ info.instructions, Emitted i
  performs : Performs F info.instructions fun s =>
    (Meaning.runBlock host table func.2 .empty s).map Prod.snd

def Adding (R : TypeTable → Bytes × Block → FuncInfo → Prop) : Prop :=
  ∀ {func_name : Bytes} {block : Block} {c c' : Compiler},
    compile_func host func_name block c = some c' →
    ∃ info, c'.func_table_ = c.func_table_ ++ [info] ∧ c'.program_ = c.program_ ∧
      c'.type_table_ = c.type_table_ ∧ R c.type_table_ (func_name, block) info

theorem compiled_func : Adding host (Compiled host F) := by
  intro func_name block c c' h
  obtain ⟨c₁, h₁, h⟩ := Option.bind_eq_some_iff.mp h
  cases h
  have generating : (c.setCurrentFunc (.new func_name)).Generating :=
    ⟨nofun, (by decide : IsInt 0)⟩
  have simulates := simulates_block host F block generating h₁
  obtain ⟨code, hcode, performs⟩ := simulates.code
  have emitted := (generating_block host block generating h₁).emitted
  obtain rfl : c₁.current_func_.instructions = code := hcode
  exact ⟨_, congrArg (· ++ _) simulates.kept.funcs, simulates.kept.program, simulates.kept.table,
    simulates.kept.name, emitted, performs⟩

theorem compiled_funcs {R : TypeTable → Bytes × Block → FuncInfo → Prop} (each : Adding host R)
    {nodes : List Node} {c c' : Compiler} (h : compile_funcs host nodes c = some c') :
    ∃ infos, c'.func_table_ = c.func_table_ ++ infos ∧ c'.program_ = c.program_ ∧
      c'.type_table_ = c.type_table_ ∧
      List.Forall₂ (R c.type_table_) (Root.funcs ⟨.init, .init, .mk .init .init nodes⟩) infos := by
  induction nodes generalizing c with
  | nil =>
    cases h
    exact ⟨[], (List.append_nil _).symm, rfl, rfl, .nil⟩
  | cons node nodes ih =>
    cases node with
    | Function s e func_name args rets block =>
      obtain ⟨c₁, h₁, h⟩ := Option.bind_eq_some_iff.mp h
      obtain ⟨info, hfuncs, hprogram, htable, related⟩ := each h₁
      obtain ⟨infos, hfuncs', hprogram', htable', related'⟩ := ih h
      rw [htable] at related'
      refine ⟨info :: infos, ?_, hprogram'.trans hprogram, htable'.trans htable, .cons related related'⟩
      rw [hfuncs', hfuncs, List.append_assoc]
      rfl
    | _ => exact ih h

theorem compile_typedef_kept {tf : Typedef} {c c' : Compiler}
    (h : compile_typedef host tf c = some c') :
    c'.program_ = c.program_ ∧ c'.func_table_ = c.func_table_ := by
  unfold compile_typedef at h
  simp only at h
  split at h
  · obtain ⟨stct, -, h⟩ := Option.bind_eq_some_iff.mp h
    obtain ⟨info, -, h⟩ := Option.bind_eq_some_iff.mp h
    cases h
    exact ⟨rfl, rfl⟩
  · cases h
    exact ⟨rfl, rfl⟩

theorem compile_types_kept {nodes : List Node} {c c' : Compiler}
    (h : compile_types host nodes c = some c') :
    c'.program_ = c.program_ ∧ c'.func_table_ = c.func_table_ := by
  induction nodes generalizing c with
  | nil =>
    cases h
    exact ⟨rfl, rfl⟩
  | cons node nodes ih =>
    cases node with
    | Typedef tf =>
      obtain ⟨c₁, h₁, h⟩ := Option.bind_eq_some_iff.mp h
      obtain ⟨hprogram, hfuncs⟩ := compile_typedef_kept host h₁
      obtain ⟨hprogram', hfuncs'⟩ := ih h
      exact ⟨hprogram'.trans hprogram, hfuncs'.trans hfuncs⟩
    | _ => exact ih h

theorem compile_global_kept {nodes : List Node} {c c' : Compiler}
    (h : compile_global host nodes c = some c') :
    c'.program_ = c.program_ ∧ c'.func_table_ = c.func_table_ ∧ c'.type_table_ = c.type_table_ := by
  induction nodes generalizing c with
  | nil =>
    cases h
    exact ⟨rfl, rfl, rfl⟩
  | cons node nodes ih =>
    cases node with
    | Declaration decl =>
      rw [compile_global] at h
      split at h
      · obtain ⟨tf, -, h⟩ := Option.bind_eq_some_iff.mp h
        obtain ⟨hprogram, hfuncs, htable⟩ := ih h
        exact ⟨hprogram, hfuncs, htable⟩
      · obtain ⟨hprogram, hfuncs, htable⟩ := ih h
        exact ⟨hprogram, hfuncs, htable⟩
    | _ => exact ih h

/-- The linked program is the code of the top-level functions in source order. -/
theorem compile_linked {R : TypeTable → Bytes × Block → FuncInfo → Prop} (each : Adding host R)
    {ast : Root} {c : Compiler} (h : compile host ast .init = some c) :
    c.program_ = c.func_table_.flatMap (·.instructions) ∧
      List.Forall₂ (R c.type_table_) ast.funcs c.func_table_ := by
  obtain ⟨c₁, h₁, h⟩ := Option.bind_eq_some_iff.mp h
  obtain ⟨c₂, h₂, h⟩ := Option.bind_eq_some_iff.mp h
  obtain ⟨c₃, h₃, h⟩ := Option.bind_eq_some_iff.mp h
  cases h
  obtain ⟨hprogram₁, hfuncs₁⟩ := compile_types_kept host h₁
  obtain ⟨hprogram₂, hfuncs₂, htable₂⟩ := compile_global_kept host h₂
  obtain ⟨infos, hfuncs, hprogram, htable, related⟩ := compiled_funcs host each h₃
  have none : c₂.func_table_ = [] := hfuncs₂.trans hfuncs₁
  rw [none, List.nil_append] at hfuncs
  constructor
  · change c₃.program_ ++ c₃.func_table_.flatMap _ = _
    rw [hprogram, hprogram₂, hprogram₁]
    rfl
  · rw [show (link c₃).type_table_ = c₂.type_table_ from htable,
      show (link c₃).func_table_ = infos from hfuncs]
    exact related

theorem performs_funcs {table : TypeTable} {funcs : List (Bytes × Block)} {infos : List FuncInfo}
    (compiled : List.Forall₂ (Compiled host F table) funcs infos) :
    Performs F (infos.flatMap (·.instructions)) (Meaning.runFuncs host table funcs) := by
  induction compiled with
  | nil => exact .nil F
  | cons first rest ih =>
    rw [List.flatMap_cons]
    refine (first.performs.append ih).congr fun s => ?_
    simp only [Meaning.runFuncs]
    cases Meaning.runBlock host table _ .empty s <;> rfl

theorem emitted_funcs {table : TypeTable} {funcs : List (Bytes × Block)} {infos : List FuncInfo}
    (compiled : List.Forall₂ (Compiled host F table) funcs infos) :
    ∀ i ∈ infos.flatMap (·.instructions), Emitted i := by
  induction compiled with
  | nil => exact nofun
  | cons first rest ih => exact List.forall_mem_append.mpr ⟨first.emitted, ih⟩

/-- Given enough ticks, the linked program runs as its tree does. -/
theorem run_compiled {ast : Root} {c : Compiler} (h : compile host ast .init = some c)
    {ticks : Nat} (hticks : c.program_.length ≤ ticks) :
    ByteCodeVM.Run F c.program_ ticks .Init =
      (ast.run host c.type_table_).map (ByteCodeVM.Init.advance c.program_.length) := by
  obtain ⟨hprogram, compiled⟩ := compile_linked host (compiled_func host F) h
  have emitted := emitted_funcs host F compiled
  have performs := performs_funcs host F compiled
  rw [← hprogram] at emitted performs
  have straight : ∀ i ∈ c.program_, (ByteCodeVM.interp F).Straight i :=
    fun i hi => ByteCodeVM.straight_emitted (emitted i hi)
  rw [ByteCodeVM.Run, Interp.run_straight_program straight rfl rfl hticks]
  exact performs .Init ⟨rfl, rfl⟩

end Compiler

end Mygo
