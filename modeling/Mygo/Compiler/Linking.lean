import Mygo.Compiler.Safety

namespace Mygo

namespace Linked

def entry (infos : List FuncInfo) (i : Nat) : Nat :=
  ((infos.take i).flatMap (·.instructions)).length

def Owns (infos : List FuncInfo) (i p : Nat) (info : FuncInfo) : Prop :=
  infos[i]? = some info ∧ entry infos i ≤ p ∧ p < entry infos i + info.instructions.length

variable (F : FloatOps) (program : Program)

def Executes (n p : Nat) : Prop :=
  ∃ vm, ByteCodeVM.Run F program n .Init = .ok vm ∧ vm.finished_ = false ∧ vm.pc_ = p ∧
    p < program.length

/-- After `n` ticks the run is inside a call of the code at `start`. -/
def InCall (n start : Nat) : Prop :=
  ∃ k < n, ∃ vm ins, ByteCodeVM.Run F program k .Init = .ok vm ∧
    program[vm.pc_]? = some ins ∧ ins.op = .Call ∧ ins.arg0.toNat = start ∧
    ∀ m, k < m → m ≤ n → ∀ vm', ByteCodeVM.Run F program m .Init = .ok vm' →
      vm.call_stack_.length < vm'.call_stack_.length

/-- Execution starts in `main`, other functions run only when called, and none runs on into
the one stored after it. -/
structure Isolated (infos : List FuncInfo) : Prop where
  start : ∀ i info, Owns infos i 0 info → info.name = bytes "main"
  called : ∀ n p i info, Executes F program n p → Owns infos i p info →
    info.name ≠ bytes "main" → InCall F program n (entry infos i)
  contained : ∀ n p q i j info info', Executes F program n p → Executes F program (n + 1) q →
    Owns infos i p info → Owns infos j q info' → i ≠ j →
    ¬ (p + 1 = entry infos i + info.instructions.length ∧ q = entry infos j)

theorem entry_succ {infos : List FuncInfo} {i : Nat} {info : FuncInfo} (h : infos[i]? = some info) :
    entry infos (i + 1) = entry infos i + info.instructions.length := by
  simp [entry, List.take_add_one, h]

theorem entry_mono (infos : List FuncInfo) {i j : Nat} (h : i ≤ j) : entry infos i ≤ entry infos j := by
  obtain ⟨k, rfl⟩ := Nat.exists_eq_add_of_le h
  simp [entry, List.take_add]

theorem Owns.unique {infos : List FuncInfo} {i j p : Nat} {info info' : FuncInfo}
    (h : Owns infos i p info) (h' : Owns infos j p info') : i = j := by
  obtain ⟨hi, hle, hlt⟩ := h
  obtain ⟨hj, hle', hlt'⟩ := h'
  have next := entry_succ hi
  have next' := entry_succ hj
  rcases Nat.lt_trichotomy i j with hij | rfl | hij
  · have := entry_mono infos (show i + 1 ≤ j from hij)
    omega
  · rfl
  · have := entry_mono infos (show j + 1 ≤ i from hij)
    omega

theorem flatMap_empty {infos : List FuncInfo} (h : ∀ info ∈ infos, info.instructions = []) :
    infos.flatMap (·.instructions) = [] := List.flatMap_eq_nil_iff.mpr h

theorem entry_append (pre post : List FuncInfo) :
    entry (pre ++ post) pre.length = (pre.flatMap (·.instructions)).length := by
  simp [entry]

theorem owns_append {pre post : List FuncInfo} {info : FuncInfo} {p : Nat}
    (hle : (pre.flatMap (·.instructions)).length ≤ p)
    (hlt : p < (pre.flatMap (·.instructions)).length + info.instructions.length) :
    Owns (pre ++ info :: post) pre.length p info := by
  have start := entry_append pre (info :: post)
  exact ⟨by simp, by omega, by omega⟩

theorem Owns.code {infos : List FuncInfo} {i p : Nat} {info : FuncInfo} (h : Owns infos i p info) :
    info ∈ infos ∧ info.instructions ≠ [] := by
  obtain ⟨hi, hle, hlt⟩ := h
  refine ⟨List.mem_of_getElem? hi, fun empty => ?_⟩
  rw [empty, List.length_nil] at hlt
  omega

theorem executes_iff {F : FloatOps} {program : Program}
    (straight : ∀ i ∈ program, (ByteCodeVM.interp F).Straight i) (n p : Nat) :
    Executes F program n p ↔ p = n ∧ n < program.length ∧
      ∃ vm, (ByteCodeVM.interp F).execList (program.take n) .Init = .ok vm := by
  by_cases hn : n ≤ program.length
  · have run : ByteCodeVM.Run F program n .Init = _ := Interp.run_straight_take straight rfl rfl hn
    have straight' : ∀ i ∈ program.take n, (ByteCodeVM.interp F).Straight i :=
      fun i hi => straight i (List.mem_of_mem_take hi)
    constructor
    · rintro ⟨vm, hrun, -, rfl, hlt⟩
      rw [run] at hrun
      have hpc : vm.pc_ = 0 + (program.take n).length := (Interp.execList_pc straight' hrun).1
      rw [List.length_take, Nat.min_eq_left hn, Nat.zero_add] at hpc
      exact ⟨hpc, hpc ▸ hlt, vm, hrun⟩
    · rintro ⟨rfl, hlt, vm, hvm⟩
      obtain ⟨hpc, hfinished⟩ := Interp.execList_pc straight' hvm
      refine ⟨vm, run.trans hvm, hfinished, hpc.trans ?_, hlt⟩
      rw [List.length_take, Nat.min_eq_left hn]
      exact Nat.zero_add _
  · constructor
    · rintro ⟨vm, hrun, -, rfl, hlt⟩
      rw [ByteCodeVM.Run, Interp.run_straight_program straight rfl rfl (Nat.le_of_not_le hn)] at hrun
      have hpc : vm.pc_ = 0 + program.length := (Interp.execList_pc straight hrun).1
      omega
    · rintro ⟨-, hlt, -⟩
      omega

def AloneCode (F : FloatOps) : List FuncInfo → Prop
  | [] => True
  | info :: infos =>
    if info.instructions = [] then AloneCode F infos
    else info.name = bytes "main" ∧ ((∀ later ∈ infos, later.instructions = []) ∨
      ∃ e, (ByteCodeVM.interp F).execList info.instructions .Init = .error e)

theorem aloneCode_append {F : FloatOps} {pre infos : List FuncInfo}
    (empty : ∀ info ∈ pre, info.instructions = []) :
    AloneCode F (pre ++ infos) ↔ AloneCode F infos := by
  induction pre with
  | nil => rfl
  | cons info pre ih =>
    obtain ⟨first, rest⟩ := List.forall_mem_cons.mp empty
    rw [List.cons_append, AloneCode, if_pos first]
    exact ih rest

theorem first_code (infos : List FuncInfo) :
    (∀ info ∈ infos, info.instructions = []) ∨
    ∃ pre info post, infos = pre ++ info :: post ∧ info.instructions ≠ [] ∧
      ∀ info ∈ pre, info.instructions = [] := by
  induction infos with
  | nil => exact .inl nofun
  | cons info infos ih =>
    by_cases empty : info.instructions = []
    · rcases ih with all | ⟨pre, first, post, rfl, code, before⟩
      · exact .inl (List.forall_mem_cons.mpr ⟨empty, all⟩)
      · exact .inr ⟨info :: pre, first, post, rfl, code, List.forall_mem_cons.mpr ⟨empty, before⟩⟩
    · exact .inr ⟨[], info, infos, rfl, empty, nofun⟩

theorem isolated_iff_aloneCode {F : FloatOps} {infos : List FuncInfo} {program : Program}
    (linked : program = infos.flatMap (·.instructions))
    (straight : ∀ i ∈ program, (ByteCodeVM.interp F).Straight i) :
    Isolated F program infos ↔ AloneCode F infos := by
  rcases first_code infos with all | ⟨pre, info, post, rfl, code, before⟩
  · have none : program = [] := linked.trans (flatMap_empty all)
    have alone : AloneCode F infos := by
      have nothing : AloneCode F (infos ++ []) := (aloneCode_append all).mpr trivial
      rwa [List.append_nil] at nothing
    have nobody : ∀ {i p info}, ¬ Owns infos i p info := fun owns => owns.code.2 (all _ owns.code.1)
    exact iff_of_true ⟨fun _ _ owns => (nobody owns).elim, fun _ _ _ _ _ owns => (nobody owns).elim,
      fun _ _ _ _ _ _ _ _ _ owns => (nobody owns).elim⟩ alone
  · have before' := flatMap_empty before
    have positive : 0 < info.instructions.length := List.length_pos_iff.mpr code
    have layout : program = info.instructions ++ post.flatMap (·.instructions) := by
      simp [linked, before']
    have first : ∀ {p}, p < info.instructions.length → Owns (pre ++ info :: post) pre.length p info := by
      intro p hp
      exact owns_append (by simp [before']) (by simpa [before'] using hp)
    rw [aloneCode_append before, AloneCode, if_neg code]
    constructor
    · intro isolated
      refine ⟨isolated.start _ _ (first positive), ?_⟩
      rcases first_code post with after | ⟨mid, next, last, rfl, code', between⟩
      · exact .inl after
      · right
        by_contra noFault
        have done : ∃ vm, (ByteCodeVM.interp F).execList info.instructions .Init = .ok vm := by
          cases hvm : (ByteCodeVM.interp F).execList info.instructions .Init with
          | ok vm => exact ⟨vm, rfl⟩
          | error e => exact absurd ⟨e, hvm⟩ noFault
        have positive' : 0 < next.instructions.length := List.length_pos_iff.mpr code'
        have longer : info.instructions.length < program.length := by
          simp [layout, flatMap_empty between]
          omega
        have end_ : Executes F program (info.instructions.length - 1) (info.instructions.length - 1) := by
          refine (executes_iff straight _ _).mpr ⟨rfl, by omega, ?_⟩
          rw [layout, List.take_append_of_le_length (by omega)]
          obtain ⟨vm, hvm⟩ := done
          rw [← List.take_append_drop (info.instructions.length - 1) info.instructions] at hvm
          exact Interp.execList_prefix hvm
        have begin_ : Executes F program (info.instructions.length - 1 + 1) info.instructions.length := by
          refine (executes_iff straight _ _).mpr ⟨by omega, by omega, ?_⟩
          rw [layout, show info.instructions.length - 1 + 1 = info.instructions.length by omega,
            List.take_left]
          exact done
        have shape : pre ++ info :: (mid ++ next :: last) = (pre ++ info :: mid) ++ next :: last := by
          simp
        have codeLength : ((pre ++ info :: mid).flatMap (·.instructions)).length =
            info.instructions.length := by simp [before', flatMap_empty between]
        have owner : Owns (pre ++ info :: (mid ++ next :: last)) (pre ++ info :: mid).length
            info.instructions.length next := by
          rw [shape]
          exact owns_append (by omega) (by omega)
        refine isolated.contained _ _ _ _ _ _ _ end_ begin_ (first (by omega)) owner ?_ ⟨?_, ?_⟩
        · simp
        · rw [entry_append, before', List.length_nil]
          omega
        · rw [shape, entry_append, codeLength]
    · rintro ⟨name, alone⟩
      have inside : ∀ {n p}, Executes F program n p → p < info.instructions.length := by
        intro n p ex
        obtain ⟨rfl, hlt, vm, hvm⟩ := (executes_iff straight _ _).mp ex
        rcases alone with after | ⟨e, fault⟩
        · rwa [layout, flatMap_empty after, List.append_nil] at hlt
        · by_contra hge
          rw [layout, List.take_append, List.take_of_length_le (Nat.le_of_not_lt hge)] at hvm
          obtain ⟨u, hu⟩ := Interp.execList_prefix hvm
          exact nomatch fault.symm.trans hu
      have owner : ∀ {i p info'}, p < info.instructions.length →
          Owns (pre ++ info :: post) i p info' → i = pre.length ∧ info' = info := by
        intro i p info' hp owns
        obtain rfl := owns.unique (first hp)
        exact ⟨rfl, Option.some.inj (owns.1.symm.trans (first hp).1)⟩
      refine ⟨fun i info' owns => ?_, fun n p i info' ex owns other => ?_,
        fun n p q i j info' info'' ex ex' owns owns' apart => ?_⟩
      · rw [(owner positive owns).2]
        exact name
      · exact absurd ((owner (inside ex) owns).2 ▸ name) other
      · exact absurd ((owner (inside ex) owns).1.trans (owner (inside ex') owns').1.symm) apart

end Linked

namespace Expr

mutual

def emits : Expr → Prop
  | .TOKEN _ _ v => v.type_ = .Int ∨ v.type_ = .Float
  | .OPS _ _ ops exprs => emitsOps ops exprs
  | .FUNCALL _ _ exprs => emitsCall exprs

def emitsOps (ops : List TokenType) : List Expr → Prop
  | [] => False
  | e :: es => ops = [.Sub] ∧ es = [] ∨ emits e ∨ emitsChain ops es

def emitsChain : List TokenType → List Expr → Prop
  | t :: ops, e :: es => emits e ∨ Compiler.opInst 0 0 t ≠ [] ∨ emitsChain ops es
  | _, _ => False

def emitsCall : List Expr → Prop
  | [] => False
  | f :: args => emitsArgs args ∨ f.str = bytes "print"

def emitsArgs : List Expr → Prop
  | [] => False
  | e :: es => emits e ∨ emitsArgs es

end

end Expr

namespace Meaning

variable (host : Host) (table : TypeTable)

mutual

def layoutNode : Node → Layout → Layout
  | .Declaration decl, l => l.declare host table decl
  | .Assignment asgm, l => l.subscript asgm.var_name
  | .For _ _ _ _ _ block, l => layoutBlock block l
  | _, l => l

def layoutBlock : Block → Layout → Layout
  | .mk _ _ nodes, l => layoutNodes nodes l

def layoutNodes : List Node → Layout → Layout
  | [], l => l
  | node :: nodes, l => layoutNodes nodes (layoutNode node l)

end

mutual

def emitsNode : Node → Layout → Prop
  | .Assignment asgm, l => asgm.expr.emits ∨
      ∃ var, (l.subscript asgm.var_name).vars asgm.var_name = some var ∧ 0 < var.size
  | .Expr e, _ => e.emits
  | .If _ _ _ _, _ => True
  | .For _ _ _ _ _ block, l => emitsBlock block l
  | _, _ => False

def emitsBlock : Block → Layout → Prop
  | .mk _ _ nodes, l => emitsNodes nodes l

def emitsNodes : List Node → Layout → Prop
  | [], _ => False
  | node :: nodes, l => emitsNode node l ∨ emitsNodes nodes (layoutNode host table node l)

end

/-- At most one function has code, as far as the run gets, and it is `main`. -/
def Alone : List (Bytes × Block) → Prop
  | [] => True
  | (func_name, block) :: funcs =>
    (¬ emitsBlock host table block .empty ∧ Alone funcs) ∨
    (emitsBlock host table block .empty ∧ func_name = bytes "main" ∧
      ((∀ later ∈ funcs, ¬ emitsBlock host table later.2 .empty) ∨
        ∃ e, runBlock host table block .empty .init = .error e))

end Meaning

namespace Compiler

variable (host : Host)

theorem opInst_nil (k l : Int) (t : TokenType) : opInst k l t = [] ↔ opInst 0 0 t = [] := by
  cases t <;> simp [opInst]

mutual

theorem emits_exprCode (e : Expr) {k : Int} {code : List Instruction}
    (h : exprCode host e k = some code) : code ≠ [] ↔ e.emits := by
  cases e with
  | TOKEN start end_ v =>
    cases h
    unfold literatureCode Expr.emits
    split <;> simp_all
  | OPS start end_ ops exprs => exact emits_opsCode ops exprs h
  | FUNCALL start end_ exprs => exact emits_funcallCode exprs h

theorem emits_opsCode (ops : List TokenType) (exprs : List Expr) {k : Int} {code : List Instruction}
    (h : opsCode host ops exprs k = some code) : code ≠ [] ↔ Expr.emitsOps ops exprs := by
  cases exprs with
  | nil => cases h
  | cons e es =>
    obtain ⟨first, hfirst, h⟩ := Option.bind_eq_some_iff.mp h
    rw [Expr.emitsOps]
    split at h
    · next hunary =>
      cases h
      simp [hunary]
    · next hchain =>
      obtain ⟨rest, hrest, h⟩ := Option.bind_eq_some_iff.mp h
      cases h
      rw [← emits_exprCode e hfirst, ← emits_chainCode ops es hrest]
      simp [hchain, Classical.or_iff_not_imp_left]

theorem emits_chainCode (ops : List TokenType) (es : List Expr) {origin top : Int}
    {code : List Instruction} (h : chainCode host origin top ops es = some code) :
    code ≠ [] ↔ Expr.emitsChain ops es := by
  cases ops with
  | nil =>
    rw [chainCode] at h
    cases h
    cases es <;> simp [Expr.emitsChain]
  | cons t ops =>
    cases es with
    | nil => cases h
    | cons e es =>
      obtain ⟨first, hfirst, h⟩ := Option.bind_eq_some_iff.mp h
      obtain ⟨rest, hrest, h⟩ := Option.bind_eq_some_iff.mp h
      cases h
      rw [Expr.emitsChain, ← emits_exprCode e hfirst, ← emits_chainCode ops es hrest]
      simp only [ne_eq, List.append_eq_nil_iff, opInst_nil origin top t]
      tauto

theorem emits_funcallCode (exprs : List Expr) {k : Int} {code : List Instruction}
    (h : funcallCode host exprs k = some code) : code ≠ [] ↔ Expr.emitsCall exprs := by
  cases exprs with
  | nil =>
    cases h
    have noPrint : ¬ ([] : Bytes) = bytes "print" := by decide
    simp [callCode, Expr.emitsCall, noPrint]
  | cons f args =>
    obtain ⟨rest, hrest, h⟩ := Option.bind_eq_some_iff.mp h
    cases h
    rw [Expr.emitsCall, ← emits_argsCode args hrest, callCode]
    split <;> simp_all

theorem emits_argsCode (es : List Expr) {k : Int} {code : List Instruction}
    (h : argsCode host es k = some code) : code ≠ [] ↔ Expr.emitsArgs es := by
  cases es with
  | nil =>
    cases h
    simp [Expr.emitsArgs]
  | cons e es =>
    obtain ⟨first, hfirst, h⟩ := Option.bind_eq_some_iff.mp h
    obtain ⟨rest, hrest, h⟩ := Option.bind_eq_some_iff.mp h
    cases h
    rw [Expr.emitsArgs, ← emits_exprCode e hfirst, ← emits_argsCode es hrest]
    simp only [ne_eq, List.append_eq_nil_iff]
    tauto

end

def Adds (c c' : Compiler) (emits : Prop) (l : Layout) : Prop :=
  c'.type_table_ = c.type_table_ ∧ ∃ code,
    c'.current_func_.instructions = c.current_func_.instructions ++ code ∧
    (code ≠ [] ↔ emits) ∧ (code = [] → c'.layout = l)

theorem Adds.silent {c c' : Compiler} (table : c'.type_table_ = c.type_table_)
    (code : c'.current_func_.instructions = c.current_func_.instructions) :
    Adds c c' False c'.layout :=
  ⟨table, [], by rw [code, List.append_nil], by simp, fun _ => rfl⟩

theorem Adds.trans {c c₁ c₂ : Compiler} {p q : Prop} {l l' : Layout} (h : Adds c c₁ p l)
    (h' : c₁.layout = l → Adds c₁ c₂ q l') (grows : Grows c₁ c₂) : Adds c c₂ (p ∨ q) l' := by
  obtain ⟨table, code, hcode, hp, hl⟩ := h
  by_cases empty : code = []
  · obtain ⟨table', code', hcode', hq, hl'⟩ := h' (hl empty)
    have notP : ¬ p := fun hp' => hp.mpr hp' empty
    refine ⟨table'.trans table, code', by rw [hcode', hcode, empty, List.append_nil], ?_, hl'⟩
    simp [hq, notP]
  · obtain ⟨code', hcode'⟩ := grows.code
    refine ⟨grows.kept.table.trans table, code ++ code', by rw [hcode', hcode, List.append_assoc], ?_, ?_⟩
    · simp [empty, hp.mp empty]
    · intro none
      exact absurd (List.append_eq_nil_iff.mp none).1 empty

mutual

theorem adds_statement (stmt : Node) {c c' : Compiler} (g : c.Generating)
    (h : compile_statement host stmt c = some c') :
    Adds c c' (Meaning.emitsNode host c.type_table_ stmt c.layout)
      (Meaning.layoutNode host c.type_table_ stmt c.layout) := by
  cases stmt with
  | Declaration decl =>
    obtain ⟨layout, code, kept⟩ := declaration_effect host h
    have silent := Adds.silent kept.table code
    rw [layout] at silent
    exact silent
  | Assignment asgm =>
    obtain ⟨var, code, hvar, hcode, rfl⟩ := assignment_effect host h
    refine ⟨rfl, _, rfl, ?_, fun _ => rfl⟩
    rw [Meaning.emitsNode, ← emits_exprCode host asgm.expr hcode]
    simp only [hvar, Option.some.injEq, exists_eq_left', ne_eq, List.append_eq_nil_iff, moveCode,
      List.map_eq_nil_iff, List.range_eq_nil]
    have size : var.size.toNat = 0 ↔ ¬ 0 < var.size := by omega
    rw [size]
    tauto
  | Expr e =>
    have expr := h
    rw [compile_statement, compile_expr_eq] at expr
    obtain ⟨code, hcode, rfl⟩ := Option.map_eq_some_iff.mp expr
    exact ⟨rfl, code, rfl, emits_exprCode host e hcode, fun _ => rfl⟩
  | If start end_ branches tail =>
    have simulates := simulates_statement host .unused _ g h
    obtain ⟨code, hcode, performs⟩ := simulates.code
    have code' : code ≠ [] := by
      rintro rfl
      exact nomatch performs .Init ⟨rfl, rfl⟩
    exact ⟨simulates.kept.table, code, hcode, iff_of_true code' trivial, fun empty => absurd empty code'⟩
  | For start end_ init cond step block => exact adds_block block g h
  | Function start end_ name args rets block =>
    cases h
    exact .silent rfl rfl
  | Return ret =>
    cases h
    exact .silent rfl rfl
  | Typedef tdef =>
    cases h
    exact .silent rfl rfl

theorem adds_block (block : Block) {c c' : Compiler} (g : c.Generating)
    (h : compile_block host block c = some c') :
    Adds c c' (Meaning.emitsBlock host c.type_table_ block c.layout)
      (Meaning.layoutBlock host c.type_table_ block c.layout) := by
  cases block with
  | mk start end_ nodes => exact adds_nodes nodes g h

theorem adds_nodes (nodes : List Node) {c c' : Compiler} (g : c.Generating)
    (h : compile_nodes host nodes c = some c') :
    Adds c c' (Meaning.emitsNodes host c.type_table_ nodes c.layout)
      (Meaning.layoutNodes host c.type_table_ nodes c.layout) := by
  cases nodes with
  | nil =>
    cases h
    exact .silent rfl rfl
  | cons stmt nodes =>
    obtain ⟨c₁, h₁, h⟩ := Option.bind_eq_some_iff.mp h
    have g₁ := generating_statement host stmt g h₁
    refine (adds_statement stmt g h₁).trans (fun layout => ?_)
      (simulates_nodes host .unused nodes g₁ h).grows
    have kept := (simulates_statement host .unused stmt g h₁).kept.table
    have rest := adds_nodes nodes g₁ h
    rwa [kept, layout] at rest

end

structure Emitting (F : FloatOps) (table : TypeTable) (func : Bytes × Block) (info : FuncInfo) :
    Prop extends Compiled host F table func info where
  emits : info.instructions ≠ [] ↔ Meaning.emitsBlock host table func.2 .empty

theorem emitting_func (F : FloatOps) : Adding host (Emitting host F) := by
  intro func_name block c c' h
  obtain ⟨info, hfuncs, hprogram, htable, compiled⟩ := compiled_func host F h
  refine ⟨info, hfuncs, hprogram, htable, compiled, ?_⟩
  obtain ⟨c₁, h₁, h⟩ := Option.bind_eq_some_iff.mp h
  cases h
  have generating : (c.setCurrentFunc (.new func_name)).Generating :=
    ⟨nofun, (by decide : IsInt 0)⟩
  obtain ⟨-, code, hcode, emits, -⟩ := adds_block host block generating h₁
  have kept := (simulates_block host F block generating h₁).kept
  obtain rfl : c₁.current_func_.instructions = code := hcode
  have same : c₁.func_table_ ++ [c₁.current_func_.FinishCompiling] = c.func_table_ ++ [info] := hfuncs
  rw [kept.funcs] at same
  obtain rfl := List.singleton_inj.mp (List.append_cancel_left same)
  exact emits

theorem aloneCode_iff_alone {F : FloatOps} {table : TypeTable} {funcs : List (Bytes × Block)}
    {infos : List FuncInfo} (h : List.Forall₂ (Emitting host F table) funcs infos) :
    Linked.AloneCode F infos ↔ Meaning.Alone host table funcs := by
  induction h with
  | nil => rfl
  | cons first rest ih =>
    rename_i func info funcs infos
    have later : (∀ later ∈ infos, later.instructions = []) ↔
        ∀ later ∈ funcs, ¬ Meaning.emitsBlock host table later.2 .empty := by
      clear ih first
      induction rest with
      | nil => exact ⟨nofun, nofun⟩
      | cons next rest ih =>
        rw [List.forall_mem_cons, List.forall_mem_cons, ih, ← next.emits, not_not]
    have fault : (∃ e, (ByteCodeVM.interp F).execList info.instructions .Init = .error e) ↔
        ∃ e, Meaning.runBlock host table func.2 .empty .init = .error e := by
      rw [first.performs .Init ⟨rfl, rfl⟩]
      change (∃ e, Except.map _ (Except.map _ (Meaning.runBlock host table func.2 .empty .init)) = _) ↔ _
      cases Meaning.runBlock host table func.2 .empty .init <;> simp [Except.map]
    rw [Linked.AloneCode, Meaning.Alone, ← first.emits, first.name, later, fault, ih]
    by_cases empty : info.instructions = [] <;> simp [empty]

end Compiler

/-- After linking, functions are isolated exactly when at most one of them has code as far as
the run gets, and that one is `main`. -/
theorem isolated_iff_alone {host : Host} {F : FloatOps} {ast : Root} {c : Compiler}
    (h : Compiler.compile host ast .init = some c) :
    Linked.Isolated F c.program_ c.func_table_ ↔ Meaning.Alone host c.type_table_ ast.funcs := by
  obtain ⟨linked, compiled⟩ := Compiler.compile_linked host (Compiler.emitting_func host F) h
  have emitted := Compiler.emitted_funcs host F (compiled.imp fun _ _ e => e.toCompiled)
  rw [← linked] at emitted
  rw [Linked.isolated_iff_aloneCode linked fun i hi => ByteCodeVM.straight_emitted (emitted i hi)]
  exact Compiler.aloneCode_iff_alone host compiled

def mainBetween : Root :=
  ⟨.init, .init, .mk .init .init
    [.func "g" [], .func "main" [.Expr printCallTwo],
      .func "f" [.Declaration ⟨.init, .init, bytes "x", some ⟨.init, .init, false, none, bytes "int"⟩,
        .TOKEN .init .init (.CreateInt 1 2)⟩]]⟩

theorem isolated_mainBetween : ∃ c, Compiler.compile .plain mainBetween .init = some c ∧ c.errors_ = [] ∧
    c.func_table_.length = 3 ∧ Linked.Isolated .unused c.program_ c.func_table_ := by
  obtain ⟨c, h, no_errors, three⟩ : ∃ c, Compiler.compile .plain mainBetween .init = some c ∧
    c.errors_ = [] ∧ c.func_table_.length = 3 := ⟨_, rfl, rfl, rfl⟩
  refine ⟨c, h, no_errors, three, (isolated_iff_alone h).mpr ?_⟩
  have without : ∀ later ∈ mainBetween.funcs.drop 2,
      ¬ Meaning.emitsBlock .plain c.type_table_ later.2 .empty :=
    List.forall_mem_singleton.mpr (not_or.mpr ⟨id, id⟩)
  exact .inl ⟨id, .inr ⟨.inl (.inr rfl), rfl, .inl without⟩⟩

def printTwice : Root :=
  ⟨.init, .init, .mk .init .init
    [.func "main" [.Expr printCallTwo], .func "f" [.Expr printCallTwo]]⟩

/-- The code of `main` is followed by the code of `f`, and the run goes on there. -/
theorem printTwice_not_isolated : ∃ c, Compiler.compile .plain printTwice .init = some c ∧
    c.errors_ = [] ∧ ¬ Linked.Isolated .unused c.program_ c.func_table_ := by
  let code : List Instruction := [⟨.Set32, stackTop 0, 2, 0⟩, ⟨.Call, SC_PRINT_I32, stackTop 0, 0⟩]
  refine ⟨_, rfl, rfl, fun isolated => ?_⟩
  exact isolated.contained 1 1 2 0 1 ⟨bytes "main", code⟩ ⟨bytes "f", code⟩
    ⟨_, rfl, rfl, rfl, by decide⟩ ⟨_, rfl, rfl, rfl, by decide⟩ ⟨rfl, by decide, by decide⟩
    ⟨rfl, by decide, by decide⟩ (by decide) ⟨by decide, by decide⟩

end Mygo
