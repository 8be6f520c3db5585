import Mygo.Compiler.Locals
import Mygo.Vm.Writes

namespace Mygo

namespace Compiler

variable (host : Host) {c c' c₁ : Compiler}

/-- Whatever the instruction writes is in the slot, or at the offset `top` or above. -/
def Confined (slot : Option VarInfo) (top : Int) (i : Instruction) : Prop :=
  ∀ addr n, i.writes = some (addr, n) → addr &&& TypePart = STACK_TOP ∧
    (top ≤ (addr &&& OffsetPart).toNat ∨
      ∃ var, slot = some var ∧ var.address ≤ (addr &&& OffsetPart).toNat ∧
        (addr &&& OffsetPart).toNat + n ≤ var.address + var.size)

theorem offset_stackTop {k : Int} (h : 0 ≤ k) (small : k < 2 ^ 31) :
    ((stackTop k &&& OffsetPart).toNat : Int) = k := by
  obtain ⟨k, rfl⟩ := Int.eq_ofNat_of_zero_le h
  rw [stackTop_natCast (by omega), BitVec.toNat_ofNat]
  omega

variable {slot : Option VarInfo} {base : Int}

theorem Confined.above {i : Instruction} {k : Int} {n : Nat} (writes : i.writes = some (stackTop k, n))
    (zero : 0 ≤ base) (low : base ≤ k) (small : k < 2 ^ 31) : Confined slot base i := by
  intro addr m written
  obtain ⟨rfl, rfl⟩ := Prod.mk.inj (Option.some.inj (written.symm.trans writes))
  refine ⟨stackTop_type k, .inl ?_⟩
  rw [offset_stackTop (zero.trans low) small]
  exact low

theorem Confined.silent {i : Instruction} (writes : i.writes = none) : Confined slot base i :=
  fun _ _ written => nomatch writes.symm.trans written

theorem Confined.into {i : Instruction} (h : Confined none base i) : Confined slot base i := by
  intro addr n written
  obtain ⟨relative, high | ⟨var, none, -⟩⟩ := h addr n written
  · exact ⟨relative, .inl high⟩
  · cases none

theorem confined_opInst {origin top : Int} (zero : 0 ≤ base) (low : base ≤ origin)
    (small : origin < 2 ^ 31) (t : TokenType) : ∀ i ∈ opInst origin top t, Confined slot base i := by
  intro i inside
  cases t <;> simp only [opInst, List.mem_singleton, List.not_mem_nil] at inside <;> subst inside
  all_goals exact .above rfl zero low small

theorem confined_callCode {k : Int} (func_name : Bytes) : ∀ i ∈ callCode func_name k, Confined slot base i := by
  intro i inside
  unfold callCode at inside
  split at inside
  · obtain rfl := List.mem_singleton.mp inside
    exact .silent rfl
  · cases inside

theorem confined_moveCode {var : VarInfo} {src : Int} (zero : 0 ≤ var.address)
    (small : var.address + var.size < 2 ^ 31) :
    ∀ i ∈ moveCode var.address src var.size, Confined (some var) base i := by
  intro i inside
  obtain ⟨j, bounded, rfl⟩ := List.mem_map.mp inside
  have below : (j : Int) < var.size := by
    have := List.mem_range.mp bounded
    omega
  have exact_offset : i32 (var.address + j) = var.address + j := i32_of_isInt ⟨by omega, by omega⟩
  intro addr n written
  obtain ⟨rfl, rfl⟩ := Prod.mk.inj (Option.some.inj written.symm)
  rw [exact_offset]
  refine ⟨stackTop_type _, .inr ⟨var, rfl, ?_, ?_⟩⟩
  · rw [offset_stackTop (by omega) (by omega)]
    omega
  · rw [offset_stackTop (by omega) (by omega)]
    omega

mutual

theorem confined_exprCode (e : Expr) {k : Int} (zero : 0 ≤ base) (low : base ≤ k)
    (room : k + 4 * e.levels < 2 ^ 31) {code : List Instruction} (h : exprCode host e k = some code) :
    ∀ i ∈ code, Confined none base i := by
  cases e with
  | TOKEN s e v =>
    cases h
    intro i inside
    have small : k < 2 ^ 31 := by simpa only [Expr.levels, Nat.cast_zero, mul_zero, add_zero] using room
    unfold literatureCode at inside
    split at inside
    · obtain rfl := List.mem_singleton.mp inside
      exact .above rfl zero low small
    · obtain rfl := List.mem_singleton.mp inside
      exact .above rfl zero low small
    · cases inside
  | OPS s e ops exprs => exact confined_opsCode ops exprs zero low room h
  | FUNCALL s e exprs => exact confined_funcallCode exprs zero low room h

theorem confined_opsCode (ops : List TokenType) (exprs : List Expr) {k : Int} (zero : 0 ≤ base)
    (low : base ≤ k) (room : k + 4 * (Expr.levelsOps ops exprs : Nat) < 2 ^ 31) {code : List Instruction}
    (h : opsCode host ops exprs k = some code) : ∀ i ∈ code, Confined none base i := by
  cases exprs with
  | nil => cases h
  | cons e es =>
    obtain ⟨first, hfirst, h⟩ := Option.bind_eq_some_iff.mp h
    rw [Expr.levelsOps] at room
    split at h
    · next unary =>
      cases h
      rw [if_pos unary] at room
      have confined := confined_exprCode e zero low room hfirst
      refine List.forall_mem_append.mpr ⟨confined, List.forall_mem_singleton.mpr ?_⟩
      exact .above rfl zero low (by omega)
    · next chain =>
      obtain ⟨rest, hrest, h⟩ := Option.bind_eq_some_iff.mp h
      cases h
      rw [if_neg chain] at room
      have raised : i32 (k + 4) = k + 4 := i32_of_isInt ⟨by omega, by omega⟩
      rw [raised] at hrest
      have confined := confined_exprCode e zero low (by omega) hfirst
      have confined' := confined_chainCode ops es zero low (by omega) (by omega) (by omega) hrest
      exact List.forall_mem_append.mpr ⟨confined, confined'⟩

theorem confined_chainCode (ops : List TokenType) (es : List Expr) {origin top : Int} (zero : 0 ≤ base)
    (low : base ≤ origin) (small : origin < 2 ^ 31) (above : base ≤ top)
    (room : top + 4 * (Expr.levelsAll es : Nat) < 2 ^ 31) {code : List Instruction}
    (h : chainCode host origin top ops es = some code) : ∀ i ∈ code, Confined none base i := by
  cases ops with
  | nil =>
    rw [chainCode] at h
    cases h
    exact nofun
  | cons t ops =>
    cases es with
    | nil => cases h
    | cons e es =>
      obtain ⟨first, hfirst, h⟩ := Option.bind_eq_some_iff.mp h
      obtain ⟨rest, hrest, h⟩ := Option.bind_eq_some_iff.mp h
      cases h
      rw [Expr.levelsAll] at room
      have confined := confined_exprCode e zero above (by omega) hfirst
      have confined' := confined_chainCode ops es zero low small above (by omega) hrest
      exact List.forall_mem_append.mpr
        ⟨List.forall_mem_append.mpr ⟨confined, confined_opInst zero low small t⟩, confined'⟩

theorem confined_funcallCode (exprs : List Expr) {k : Int} (zero : 0 ≤ base) (low : base ≤ k)
    (room : k + 4 * (Expr.levelsCall exprs : Nat) < 2 ^ 31) {code : List Instruction}
    (h : funcallCode host exprs k = some code) : ∀ i ∈ code, Confined none base i := by
  cases exprs with
  | nil =>
    cases h
    exact confined_callCode _
  | cons f args =>
    obtain ⟨rest, hrest, h⟩ := Option.bind_eq_some_iff.mp h
    cases h
    exact List.forall_mem_append.mpr ⟨confined_argsCode args zero low room hrest, confined_callCode _⟩

theorem confined_argsCode (es : List Expr) {k : Int} (zero : 0 ≤ base) (low : base ≤ k)
    (room : k + 4 * (Expr.levelsAll es : Nat) < 2 ^ 31) {code : List Instruction}
    (h : argsCode host es k = some code) : ∀ i ∈ code, Confined none base i := by
  cases es with
  | nil =>
    cases h
    exact nofun
  | cons e es =>
    obtain ⟨first, hfirst, h⟩ := Option.bind_eq_some_iff.mp h
    obtain ⟨rest, hrest, h⟩ := Option.bind_eq_some_iff.mp h
    cases h
    rw [Expr.levelsAll] at room
    have confined := confined_exprCode e zero low (by omega) hfirst
    have confined' := confined_argsCode es zero low (by omega) hrest
    exact List.forall_mem_append.mpr ⟨confined, confined'⟩

end

def Call.levels : Call → Nat
  | .statement stmt => stmt.levels
  | .expr e => e.levels
  | .chain _ _ xs => Expr.levelsAll xs
  | .args xs => Expr.levelsAll xs
  | .nodes _ | .branches _ | .tail _ => 0

def Call.plain : Call → Bool
  | .statement stmt => stmt.simple
  | .expr _ | .chain _ _ _ | .args _ => true
  | .nodes _ | .branches _ | .tail _ => false

structure Within (s : Compiler) (call : Call) (p : Compiler) : Prop where
  plain : call.plain = true
  slots : Layout.Sound ⟨s.top, p.current_func_.var_address_map⟩
  low : s.top ≤ p.top
  room : p.top + 4 * call.levels < 2 ^ 31
  origin : ∀ k ops xs, call = .chain k ops xs → s.top ≤ k ∧ k < 2 ^ 31
  code : ∃ code, p.current_func_.instructions = s.current_func_.instructions ++ code ∧
    ∀ i ∈ code, Confined none s.top i

variable {s p p' : Compiler} {call call' : Call}

theorem Within.sound (h : Within s call p) : p.layout.Sound := h.slots.raise h.low

theorem Within.emitted (h : Within s call p) {e : Expr} (compiled : compile_expr host e p = some p')
    (room : p.top + 4 * e.levels < 2 ^ 31) :
    ∃ code, p' = p.emit code ∧ ∀ i ∈ code, Confined none s.top i := by
  rw [compile_expr_eq] at compiled
  obtain ⟨code, generated, rfl⟩ := Option.map_eq_some_iff.mp compiled
  exact ⟨code, rfl, confined_exprCode host e h.slots.top h.low room generated⟩

theorem confined_more {more : List Instruction}
    (h : ∃ code, p.current_func_.instructions = s.current_func_.instructions ++ code ∧
      ∀ i ∈ code, Confined none base i)
    (confined : ∀ i ∈ more, Confined none base i) :
    ∃ code, (p.emit more).current_func_.instructions = s.current_func_.instructions ++ code ∧
      ∀ i ∈ code, Confined none base i := by
  obtain ⟨code, same, before⟩ := h
  refine ⟨code ++ more, ?_, List.forall_mem_append.mpr ⟨before, confined⟩⟩
  rw [← List.append_assoc, ← same]
  rfl

theorem Within.calls (within : Within s call p) (h : Calls host (call, p) (call', p')) :
    Within s call' p' := by
  have zero : 0 ≤ s.top := within.slots.top
  have low := within.low
  have room := within.room
  cases h with
  | stmt | stmts | If | tail_else_ | For | branch | branches | tail => cases within.plain
  | Assignment => exact ⟨rfl, within.slots.subscript _, low, room, nofun, within.code⟩
  | Expr => exact ⟨rfl, within.slots, low, room, nofun, within.code⟩
  | @first _ _ ops x xs =>
    simp only [Call.levels, Expr.levels, Expr.levelsOps] at room
    refine ⟨rfl, within.slots, low, ?_, nofun, within.code⟩
    simp only [Call.levels]
    split at room
    · exact room
    · omega
  | @rest ops xs x c' _ _ _ chain compiled =>
    simp only [Call.levels, Expr.levels, Expr.levelsOps, if_neg chain] at room
    obtain ⟨code, rfl, confined⟩ := within.emitted host compiled (by omega)
    have raised : i32 (p.top + 4) = p.top + 4 := i32_of_isInt ⟨by omega, by omega⟩
    have top : ((p.emit code).setStackTop (i32 ((p.emit code).top + getExprSize x))).top = p.top + 4 := raised
    refine ⟨rfl, within.slots, ?_, ?_, fun k _ _ same => ?_, confined_more within.code confined⟩
    · rw [top]
      omega
    · rw [top]
      simp only [Call.levels]
      omega
    · cases same
      exact ⟨low, by omega⟩
  | @operand origin t ops x xs =>
    simp only [Call.levels, Expr.levelsAll] at room
    refine ⟨rfl, within.slots, low, ?_, nofun, within.code⟩
    simp only [Call.levels]
    omega
  | @chain x c' _ origin t ops xs compiled =>
    simp only [Call.levels, Expr.levelsAll] at room
    obtain ⟨code, rfl, confined⟩ := within.emitted host compiled (by omega)
    obtain ⟨high, small⟩ := within.origin _ _ _ rfl
    have applied : ∀ i ∈ opInst origin (p.emit code).top t, Confined none s.top i :=
      confined_opInst zero high small t
    refine ⟨rfl, within.slots, low, ?_, fun k _ _ same => ?_,
      confined_more (confined_more within.code confined) applied⟩
    · change p.top + _ < _
      simp only [Call.levels]
      omega
    · cases same
      exact ⟨high, small⟩
  | funcall => exact ⟨rfl, within.slots, low, room, nofun, within.code⟩
  | @arg x xs =>
    simp only [Call.levels, Expr.levelsAll] at room
    refine ⟨rfl, within.slots, low, ?_, nofun, within.code⟩
    simp only [Call.levels]
    omega
  | @args x xs _ _ compiled =>
    simp only [Call.levels, Expr.levelsAll] at room
    obtain ⟨code, rfl, confined⟩ := within.emitted host compiled (by omega)
    refine ⟨rfl, within.slots, low, ?_, nofun, confined_more within.code confined⟩
    change p.top + _ < _
    simp only [Call.levels]
    omega

theorem Within.reaches (within : Within s call p) (h : Reaches host (call, p) (call', p')) :
    Within s call' p' := by
  have kept : ∀ y, Reaches host (call, p) y → Within s y.1 y.2 := by
    intro y reached
    induction reached with
    | refl => exact within
    | tail _ last ih => exact ih.calls host last
  exact kept _ h

theorem Within.run (within : Within s call p) (inner : call.inner = true)
    (compiled : call.run host p = some p') : p'.layout.Sound := by
  have same : p'.layout = p.layout := by
    cases call with
    | statement | nodes | branches | tail => cases inner
    | expr e =>
      simp only [Call.run, compile_expr_eq] at compiled
      obtain ⟨code, -, rfl⟩ := Option.map_eq_some_iff.mp compiled
      rfl
    | chain origin ops xs =>
      simp only [Call.run, compile_chain_eq] at compiled
      obtain ⟨code, -, rfl⟩ := Option.map_eq_some_iff.mp compiled
      rfl
    | args xs =>
      simp only [Call.run, compile_args_eq] at compiled
      obtain ⟨code, -, rfl⟩ := Option.map_eq_some_iff.mp compiled
      rfl
  rw [same]
  exact within.sound

theorem Within.start {stmt : Node} (simple : stmt.simple = true) (sound : s.layout.Sound)
    (room : s.top + 4 * stmt.levels < 2 ^ 31) : Within s (.statement stmt) s :=
  ⟨simple, sound, Int.le_refl _, room, nofun, [], (List.append_nil _).symm, nofun⟩

theorem Within.statement {stmt : Node} (within : Within s (.statement stmt) s)
    (room : Room (stmt.sizes host s.type_table_) s)
    (compiled : compile_statement host stmt s = some p') :
    ∃ code, p'.current_func_.instructions = s.current_func_.instructions ++ code ∧
      (∀ i ∈ code, Emitted i) ∧
      ∀ i ∈ code, Confined (stmt.target.bind p'.current_func_.var_address_map) s.top i := by
  have simple : stmt.simple = true := within.plain
  have zero : 0 ≤ s.top := within.slots.top
  have small : s.top < 2 ^ 31 := by
    have := within.room
    omega
  have int : IsInt s.top := ⟨by omega, small⟩
  cases stmt with
  | If | For | Function | Return | Typedef => cases simple
  | Declaration decl =>
    obtain ⟨-, same, -⟩ := declaration_effect host compiled
    exact ⟨[], same.trans (List.append_nil _).symm, List.forall_mem_nil _, List.forall_mem_nil _⟩
  | Expr e =>
    rw [compile_statement, compile_expr_eq] at compiled
    obtain ⟨code, generated, rfl⟩ := Option.map_eq_some_iff.mp compiled
    exact ⟨code, rfl, emitted_exprCode host e int generated,
      confined_exprCode host e zero within.low within.room generated⟩
  | Assignment asgm =>
    have taken := room.statement host _ compiled
    have same : p'.top = s.top := by
      have top := taken.top
      rw [Node.sizes, List.sum_nil, add_zero] at top
      exact top
    obtain ⟨var, code, found, generated, rfl⟩ := assignment_effect host compiled
    obtain ⟨first, -, high⟩ := taken.sound.slot asgm.var_name var found
    have confined := confined_exprCode host asgm.expr zero within.low within.room generated
    have slot : ((s.subscript asgm.var_name).emit (code ++ moveCode var.address s.top
      var.size)).current_func_.var_address_map asgm.var_name = some var := found
    refine ⟨_, rfl, List.forall_mem_append.mpr ⟨emitted_exprCode host _ int generated, emitted_moveCode _ _ _⟩,
      List.forall_mem_append.mpr ⟨fun i inside => (confined i inside).into, ?_⟩⟩
    simp only [Node.target, Option.bind_some, slot]
    exact confined_moveCode first (lt_of_le_of_lt (same ▸ high) small)

/-- The instruction is in the code of a simple statement inside of the call. -/
def Owed (x : Call × Compiler) (i : Instruction) : Prop :=
  ∃ stmt s s' code, Reaches host x (.statement stmt, s) ∧ stmt.simple = true ∧
    compile_statement host stmt s = some s' ∧
    s'.current_func_.instructions = s.current_func_.instructions ++ code ∧ i ∈ code

def Emits (x : Call × Compiler) (c c' : Compiler) : Prop :=
  ∃ code, c'.current_func_.instructions = c.current_func_.instructions ++ code ∧
    ∀ i ∈ code, i.writes = none ∨ Owed host x i

namespace Emits

variable {host} {x y : Call × Compiler}

theorem refl : Emits host x c c := ⟨[], (List.append_nil _).symm, List.forall_mem_nil _⟩

theorem trans (h : Emits host x c c₁) (h' : Emits host x c₁ c') : Emits host x c c' := by
  obtain ⟨code, same, owed⟩ := h
  obtain ⟨code', same', owed'⟩ := h'
  refine ⟨code ++ code', ?_, List.forall_mem_append.mpr ⟨owed, owed'⟩⟩
  rw [same', same, List.append_assoc]

theorem inside (h : Emits host y c c') (calls : Calls host x y) : Emits host x c c' := by
  obtain ⟨code, same, owed⟩ := h
  refine ⟨code, same, fun i member => (owed i member).imp_right ?_⟩
  rintro ⟨stmt, s, s', code, reached, rest⟩
  exact ⟨stmt, s, s', code, reached.head calls, rest⟩

theorem silent {i : Instruction} (writes : i.writes = none) : Emits host x c (c.emit [i]) :=
  ⟨[i], rfl, List.forall_mem_singleton.mpr (.inl writes)⟩

theorem simple {stmt : Node} (simple : stmt.simple = true)
    (compiled : compile_statement host stmt c = some c')
    (grows : ∃ code, c'.current_func_.instructions = c.current_func_.instructions ++ code) :
    Emits host (.statement stmt, c) c c' := by
  obtain ⟨code, same⟩ := grows
  exact ⟨code, same, fun i member => .inr ⟨stmt, c, c', code, .refl, simple, compiled, same, member⟩⟩

mutual

theorem statement (stmt : Node) {c c' : Compiler} (compiled : compile_statement host stmt c = some c') :
    Emits host (.statement stmt, c) c c' := by
  cases stmt with
  | Declaration decl =>
    obtain ⟨-, same, -⟩ := declaration_effect host compiled
    exact simple rfl compiled ⟨[], same.trans (List.append_nil _).symm⟩
  | Assignment asgm =>
    obtain ⟨var, code, -, -, same⟩ := assignment_effect host compiled
    exact simple rfl compiled ⟨_, congrArg (·.current_func_.instructions) same⟩
  | Expr e =>
    have generated := compiled
    rw [compile_statement, compile_expr_eq] at generated
    obtain ⟨code, -, same⟩ := Option.map_eq_some_iff.mp generated
    exact simple rfl compiled ⟨code, congrArg (·.current_func_.instructions) same.symm⟩
  | If s e branches_ tail_else_ =>
    obtain ⟨c₁, first, rest⟩ := Option.bind_eq_some_iff.mp compiled
    obtain ⟨c₂, second, last⟩ := Option.bind_eq_some_iff.mp rest
    cases last
    have jump : Emits host (.statement (.If s e branches_ tail_else_), c) c c.openIf := silent rfl
    have taken : Emits host (.statement (.If s e branches_ tail_else_), c) c.openIf c₁ :=
      (branches branches_ first).inside .If
    have otherwise : Emits host (.statement (.If s e branches_ tail_else_), c) c₁ c₂ :=
      (tail tail_else_ second).inside (.tail_else_ first)
    exact ((jump.trans taken).trans otherwise).trans (silent rfl)
  | For s e decl until_ step block =>
    cases block with
    | mk s' e' stmts => exact (nodes stmts compiled).inside .For
  | Function | Return | Typedef =>
    cases compiled
    exact refl

theorem branches (branches_ : List (Expr × Block)) {c c' : Compiler}
    (compiled : compile_branches host branches_ c = some c') : Emits host (.branches branches_, c) c c' := by
  cases branches_ with
  | nil =>
    cases compiled
    exact refl
  | cons branch branches_ =>
    obtain ⟨condition, s, e, stmts⟩ := branch
    obtain ⟨c₁, first, rest⟩ := Option.bind_eq_some_iff.mp compiled
    exact ((nodes stmts first).inside .branch).trans ((branches branches_ rest).inside (.branches first))

theorem tail (tail_else_ : Option Block) {c c' : Compiler}
    (compiled : compile_tail host tail_else_ c = some c') : Emits host (.tail tail_else_, c) c c' := by
  cases tail_else_ with
  | none =>
    cases compiled
    exact refl
  | some block =>
    cases block with
    | mk s e stmts => exact (nodes stmts compiled).inside .tail

theorem nodes (stmts : List Node) {c c' : Compiler} (compiled : compile_nodes host stmts c = some c') :
    Emits host (.nodes stmts, c) c c' := by
  cases stmts with
  | nil =>
    cases compiled
    exact refl
  | cons stmt stmts =>
    obtain ⟨c₁, first, rest⟩ := Option.bind_eq_some_iff.mp compiled
    exact ((statement stmt first).inside .stmt).trans ((nodes stmts rest).inside (.stmts first))

end

end Emits

end Compiler

namespace ByteCodeVM

open Compiler

variable {F : FloatOps} {vm vm' : ByteCodeVM} {slot : Option VarInfo} {top : Int}

theorem writes_le {i : Instruction} {addr : Address} {n : Nat} (h : i.writes = some (addr, n)) :
    n ≤ MAX_STACK := by
  unfold MAX_STACK
  obtain ⟨op, arg0, arg1, arg2⟩ := i
  cases op with
  | case1 op ty | case2 op ty =>
    cases h
    cases ty <;> decide
  | Move | Set8 | Set32 | Set64 | SavePC | toI32 | toF32 =>
    cases h
    decide
  | _ => cases h

theorem execList_top {code : List Instruction} (emitted : ∀ i ∈ code, Emitted i)
    (run : (interp F).execList code vm = .ok vm') : vm'.stack_top_ = vm.stack_top_ := by
  induction code generalizing vm with
  | nil =>
    cases run
    rfl
  | cons i code ih =>
    obtain ⟨first, rest⟩ := List.forall_mem_cons.mp emitted
    simp only [Interp.execList, interp] at run
    cases executed : exec F i vm with
    | error e => simp only [executed, reduceCtorEq] at run
    | ok u =>
      rw [executed] at run
      have frame : u.stack_top_ = vm.stack_top_ := by
        obtain ⟨m, o, rfl⟩ := exec_emitted first executed
        rfl
      exact (ih rest run).trans frame

theorem execList_local {code : List Instruction} (emitted : ∀ i ∈ code, Emitted i)
    (confined : ∀ i ∈ code, Confined slot top i) {a : Nat} (below : (a : Int) < top) (small : a < 2 ^ 31)
    (outside : ∀ var, slot = some var → (a : Int) < var.address ∨ var.address + var.size ≤ a)
    (run : (interp F).execList code vm = .ok vm') : vm'.local_ a = vm.local_ a := by
  induction code generalizing vm with
  | nil =>
    cases run
    rfl
  | cons i code ih =>
    obtain ⟨first, rest⟩ := List.forall_mem_cons.mp emitted
    obtain ⟨here, later⟩ := List.forall_mem_cons.mp confined
    simp only [Interp.execList, interp] at run
    cases executed : exec F i vm with
    | error e => simp only [executed, reduceCtorEq] at run
    | ok u =>
      rw [executed] at run
      have frame : u.stack_top_ = vm.stack_top_ := by
        obtain ⟨m, o, rfl⟩ := exec_emitted first executed
        rfl
      have stays : i.op ≠ .Return := by
        cases first <;> simp
      calc
        vm'.local_ a = u.local_ a := ih rest later run
        _ = u.stack_ (vm.stack_top_ + BitVec.ofNat 64 a).toNat := by rw [local_, frame]
        _ = vm.local_ a := by
          refine exec_frame executed stays fun addr n written => ?_
          obtain ⟨relative, place⟩ := here addr n written
          refine misses_local relative (by omega) (writes_le written) ?_
          rcases place with high | ⟨var, is, low, high⟩
          · omega
          · have := outside var is
            omega

end ByteCodeVM

namespace Compiler

variable (host : Host)

/-- A simple statement keeps to its part of the frame: at every point of its compilation the slots
are disjoint and below the top, its code writes into the slot of its target or above, and whatever
prefix of it is run leaves all other variables as they were. -/
structure Keeps (stmt : Node) (s : Compiler) : Prop where
  points : ∀ call p, Reaches host (.statement stmt, s) (call, p) →
    p.layout.Sound ∧ ∀ p', call.run host p = some p' → p'.layout.Sound
  writes : ∀ s', compile_statement host stmt s = some s' →
    ∃ code, s'.current_func_.instructions = s.current_func_.instructions ++ code ∧
      (∀ i ∈ code, Confined (stmt.target.bind s'.current_func_.var_address_map) s.top i) ∧
      ∀ (F : FloatOps) (vm vm' : ByteCodeVM) (pre : List Instruction), pre <+: code →
        (ByteCodeVM.interp F).execList pre vm = .ok vm' → vm'.stack_top_ = vm.stack_top_ ∧
        ∀ x var, s.current_func_.var_address_map x = some var → stmt.target ≠ some x →
          ∀ a : Nat, var.address ≤ a → a < var.address + var.size → vm'.local_ a = vm.local_ a

theorem emplace_old {m : Scope} {x y : Bytes} {var new : VarInfo} (h : m x = some var) :
    m.emplace y new x = some var := by
  cases old : m y with
  | some var' =>
    simp only [Scope.emplace, old]
    exact h
  | none =>
    have other : x ≠ y := by
      rintro rfl
      cases h.symm.trans old
    simp only [Scope.emplace, old]
    rw [Function.update_of_ne other]
    exact h

theorem simple_old {stmt : Node} {s s' : Compiler} (simple : stmt.simple = true)
    (compiled : compile_statement host stmt s = some s') {x : Bytes} {var : VarInfo}
    (h : s.current_func_.var_address_map x = some var) : s'.current_func_.var_address_map x = some var := by
  cases stmt with
  | If | For | Function | Return | Typedef => cases simple
  | Declaration decl =>
    obtain ⟨layout, -, -⟩ := declaration_effect host compiled
    have vars : s'.current_func_.var_address_map = (s.layout.declare host s.type_table_ decl).vars :=
      congrArg Layout.vars layout
    rw [vars, Layout.declare]
    split
    · exact h
    · exact emplace_old h
  | Expr e =>
    rw [compile_statement, compile_expr_eq] at compiled
    obtain ⟨code, -, rfl⟩ := Option.map_eq_some_iff.mp compiled
    exact h
  | Assignment asgm =>
    obtain ⟨var', code, -, -, rfl⟩ := assignment_effect host compiled
    exact emplace_old h

theorem Room.keeps {stmt : Node} {s : Compiler} (room : Room (stmt.sizes host s.type_table_) s)
    (simple : stmt.simple = true) (fits : s.top + 4 * stmt.levels < 2 ^ 31) : Keeps host stmt s := by
  have start := Within.start simple room.sound fits
  constructor
  · intro call p reached
    have within := start.reaches host reached
    refine ⟨within.sound, fun p' compiled => ?_⟩
    cases inner : call.inner with
    | true => exact within.run host inner compiled
    | false =>
      obtain ⟨same, room⟩ := room.reaches host reached inner rfl
      exact Room.run host (same.symm ▸ room) inner compiled
  · intro s' compiled
    obtain ⟨code, same, emitted, confined⟩ := start.statement host room compiled
    refine ⟨code, same, confined, fun F vm vm' pre early run => ?_⟩
    have emitted : ∀ i ∈ pre, Emitted i := fun i inside => emitted i (early.subset inside)
    refine ⟨ByteCodeVM.execList_top emitted run, fun x var found other a low high => ?_⟩
    have top : var.address + var.size ≤ s.top := (room.sound.slot x var found).2.2
    have after : s'.layout.Sound := (room.statement host stmt compiled).sound
    refine ByteCodeVM.execList_local emitted (fun i inside => confined i (early.subset inside)) (by omega)
      (by omega) (fun target is => ?_) run
    obtain ⟨y, named, entry⟩ := Option.bind_eq_some_iff.mp is
    have different : x ≠ y := by
      rintro rfl
      exact other named
    have := after.disjoint x y var target different (simple_old host simple compiled found) entry
    omega

structure Separate (body : List Node) (start : Compiler) : Prop where
  points : ∀ call p, Reaches host (.nodes body, start) (call, p) → call.inner = false →
    p.layout.Sound ∧ ∀ p', call.run host p = some p' → p'.layout.Sound
  restores : ∀ e p p', compile_expr host e p = some p' → p'.top = p.top
  keeps : ∀ stmt s, Reaches host (.nodes body, start) (.statement stmt, s) → stmt.simple = true →
    s.top + 4 * stmt.levels < 2 ^ 31 → Keeps host stmt s
  owed : ∀ c', compile_nodes host body start = some c' → ∀ i ∈ c'.current_func_.instructions,
    i.writes = none ∨ Owed host (.nodes body, start) i

/-- Locals never overlap, and statements write only where they may, while the operands of the
expressions fit above them. -/
theorem locals_separate {c : Compiler} {body : List Node}
    (nonneg : ∀ size ∈ nodeSizes host c.type_table_ body, 0 ≤ size)
    (sum : (nodeSizes host c.type_table_ body).sum < 2 ^ 31) (func_name : Bytes) :
    Separate host body (c.setCurrentFunc (.new func_name)) := by
  have room : Room (Call.sizes host c.type_table_ (.nodes body)) (c.setCurrentFunc (.new func_name)) :=
    ⟨Layout.sound_empty, nonneg, by
      rw [show (c.setCurrentFunc (.new func_name)).top = 0 from rfl, zero_add]
      exact sum⟩
  constructor
  · intro call p reached inside
    obtain ⟨same, room⟩ := room.reaches host reached inside rfl
    exact ⟨room.sound, fun p' => Room.run host (same.symm ▸ room) inside⟩
  · intro e p p' compiled
    rw [compile_expr_eq] at compiled
    obtain ⟨code, -, rfl⟩ := Option.map_eq_some_iff.mp compiled
    rfl
  · intro stmt s reached simple fits
    obtain ⟨same, room⟩ := room.reaches host reached rfl rfl
    exact Room.keeps host (same.symm ▸ room) simple fits
  · intro c' compiled i member
    obtain ⟨code, same, owed⟩ := Emits.nodes body compiled
    rw [same] at member
    exact owed i member

def number (i : Int) : Expr := .TOKEN .init .init (.CreateInt 1 i)

def declare (x t : String) : Node :=
  .Declaration ⟨.init, .init, bytes x, some ⟨.init, .init, false, none, bytes t⟩, number 0⟩

def onePlusTwo : Expr := .OPS .init .init [.Plus] [number 1, number 2]

theorem separate_sample :
    Separate .plain
      [declare "x" "int", .Assignment ⟨.init, .init, bytes "x", onePlusTwo⟩,
        .If .init .init [(number 1, .mk .init .init [declare "y" "string"])] none]
      (init.setCurrentFunc (.new (bytes "main"))) :=
  locals_separate .plain (by decide +kernel) (by decide +kernel) _

def typeName : Nat → Bytes
  | 0 => bytes "string"
  | n + 1 => [.ofNat (65 + n)]

def structOf (name : Bytes) (types : List Bytes) : Node :=
  .Typedef ⟨.init, .init, name, ⟨.init, .init, true, some ⟨.init, .init, types.map (bytes "f", ·)⟩, []⟩⟩

/-- `A` is two strings, `B` two `A`s and so on up to `Z`; `big` has one of each and three `int`s,
`2 ^ 31 - 4` bytes in all. -/
def bigTypes : List Node :=
  (List.range 26).map (fun n => structOf (typeName (n + 1)) [typeName n, typeName n]) ++
    [structOf (bytes "big") ((List.range 27).map typeName ++ List.replicate 3 (bytes "int"))]

theorem reaches_operand (c : Compiler) : Reaches .plain (.nodes [.Expr onePlusTwo], c)
    (.chain c.top [.Plus] [number 2],
      (compile_expr_literature .plain (.CreateInt 1 1) c).setStackTop (i32 (c.top + 4))) :=
  .head .stmt (.head .Expr (.single (.rest nofun rfl)))

/-- With a local of type `big` the operand of a sum has no room: `cur_stack_top` overflows, and
the slot of the local is not below it. -/
theorem scratch_overflows : ∃ c, compile_types .plain bigTypes init = some c ∧
    (∀ size ∈ nodeSizes .plain c.type_table_ [declare "x" "big", .Expr onePlusTwo], 0 ≤ size) ∧
    (nodeSizes .plain c.type_table_ [declare "x" "big", .Expr onePlusTwo]).sum < 2 ^ 31 ∧
    ∃ call p x var,
      Reaches .plain (.nodes [declare "x" "big", .Expr onePlusTwo], c.setCurrentFunc (.new (bytes "main"))) (call, p) ∧
      p.current_func_.var_address_map x = some var ∧ ¬ var.address + var.size ≤ p.top := by
  have types : ((compile_types .plain bigTypes init).any fun c =>
      (c.type_table_.findByName .plain (bytes "big")).any (·.size == 2147483644)) = true := by
    decide +kernel
  simp only [Option.any_eq_true, beq_iff_eq] at types
  obtain ⟨c, types, info, found, size⟩ := types
  have sizes : nodeSizes .plain c.type_table_ [declare "x" "big", .Expr onePlusTwo] = [2147483644] := by
    rw [← size]
    simp only [nodeSizes, declare, Node.sizes, Declaration.sizes, Option.bind_some, found]
    rfl
  have declared : compile_statement .plain (declare "x" "big") (c.setCurrentFunc (.new (bytes "main"))) =
      some (((c.setCurrentFunc (.new (bytes "main"))).setVars
        (Scope.emplace (fun _ => none) (bytes "x") ⟨bytes "x", none, info.size, 0⟩)).setStackTop
          (i32 (0 + info.size))) := by
    simp only [declare, compile_statement, compile_declaration, setCurrentFunc, found]
    rfl
  refine ⟨c, types, ?_, ?_, _, _, bytes "x", _, .head (.stmts declared) (reaches_operand _), rfl, ?_⟩
  · rw [sizes]
    decide
  · rw [sizes]
    decide
  · change ¬ 0 + info.size ≤ i32 (i32 (0 + info.size) + 4)
    rw [size]
    decide

end Compiler

end Mygo
