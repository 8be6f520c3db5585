import Mygo.Compiler.ArithBody
import Mygo.Compiler.Simulation
import Mygo.Lib.DefUse
import Mygo.Vm.Writes

namespace Mygo

abbrev Written := List Address

namespace Written

def get (k : Int) (n : Nat) (w : Written) : Option Written := DefUse.read (span (stackTop k) n) w

def set (k : Int) (n : Nat) (w : Written) : Written := w ++ span (stackTop k) n

def move (dst src : Int) (w : Written) : Option Written := (w.get src 1).map (set dst 1)

def copy (dst src : Int) : Nat → Written → Option Written
  | 0, w => some w
  | n + 1, w => do
    let w ← copy dst src n w
    w.move (i32 (dst + n)) (i32 (src + n))

def applyOp (t : TokenType) (origin top : Int) (w : Written) : Option Written :=
  match t with
  | .Plus | .Sub | .Star | .Slash => ((w.get top 4).bind (get origin 4)).map (set origin 4)
  | _ => some w

end Written

namespace Expr

mutual

/-- The bytes written after the evaluation into the slot at `k`.  Only numbers are written there;
a negation reads the slot, an operator with an instruction its accumulator and the slot of its right
operand, and `print` the slot. -/
def fill : Expr → Int → Written → Option Written
  | .TOKEN _ _ v, k, w => match v.type_ with
    | .Int | .Float => some (w.set k 4)
    | _ => some w
  | .OPS _ _ ops exprs, k, w => fillOps ops exprs k w
  | .FUNCALL _ _ exprs, k, w => fillCall exprs k w

def fillOps (ops : List TokenType) : List Expr → Int → Written → Option Written
  | [], _, w => some w
  | e :: es, k, w => do
    let w ← fill e k w
    if ops = [.Sub] ∧ es = [] then (w.get k 4).map (Written.set k 4) else fillChain k (i32 (k + 4)) ops es w

def fillChain (origin top : Int) : List TokenType → List Expr → Written → Option Written
  | t :: ops, e :: es, w => do
    let w ← fill e top w
    let w ← w.applyOp t origin top
    fillChain origin top ops es w
  | _, _, w => some w

def fillCall : List Expr → Int → Written → Option Written
  | [], _, w => some w
  | f :: args, k, w => do
    let w ← fillArgs args k w
    if f.str = bytes "print" then w.get k 4 else some w

def fillArgs : List Expr → Int → Written → Option Written
  | [], _, w => some w
  | e :: es, k, w => do
    let w ← fill e k w
    fillArgs es k w

end

end Expr

def Layout.fill (host : Host) (table : TypeTable) : List Node → Layout → Written → Option Written
  | [], _, w => some w
  | .Declaration decl :: nodes, l, w => fill host table nodes (l.declare host table decl) w
  | .Assignment asgm :: nodes, l, w => do
    let w ← asgm.expr.fill l.top w
    let w ← match (l.subscript asgm.var_name).vars asgm.var_name with
      | some var => w.copy var.address l.top var.size.toNat
      | none => some w
    fill host table nodes (l.subscript asgm.var_name) w
  | .Expr e :: nodes, l, w => do
    let w ← e.fill l.top w
    fill host table nodes l w
  | _ :: nodes, l, w => fill host table nodes l w

def Node.Straight : Node → Prop
  | .If _ _ _ _ | .For _ _ _ _ _ _ => False
  | .Declaration _ | .Assignment _ | .Expr _ | .Function _ _ _ _ _ _ | .Return _ | .Typedef _ => True

def Block.Straight : Block → Prop
  | .mk _ _ nodes => ∀ node ∈ nodes, node.Straight

def Block.Filled (host : Host) (table : TypeTable) : Block → Prop
  | .mk _ _ nodes => (Layout.fill host table nodes .empty []).isSome

instance (host : Host) (table : TypeTable) : (block : Block) → Decidable (block.Filled host table)
  | .mk _ _ nodes => inferInstanceAs (Decidable ((Layout.fill host table nodes .empty []).isSome = true))

/-- Every byte an instruction loads has been stored by an earlier one. -/
def ReadsWritten (code : List Instruction) : Prop :=
  DefUse.ReadsWritten Instruction.readCells Instruction.writtenCells code

namespace Compiler

variable (host : Host)

abbrev track (code : List Instruction) (w : Written) : Option Written :=
  DefUse.track Instruction.readCells Instruction.writtenCells code w

variable {k dst src origin top : Int} {w : Written} {code code' : List Instruction}

theorem track_set (x : Address) : track [⟨.Set32, stackTop k, x, 0⟩] w = some (w.set k 4) := by
  rw [track, DefUse.track_single]
  simp [Instruction.readCells, Instruction.reads, Instruction.writtenCells, Instruction.writes, Written.set]

theorem track_negate :
    track [⟨.MulI32D, stackTop k, i32u64 (-1), stackTop k⟩] w = (w.get k 4).map (Written.set k 4) := by
  rw [track, DefUse.track_single]
  simp only [Instruction.readCells, Instruction.reads, Instruction.writtenCells, Instruction.writes,
    List.flatMap_singleton, Option.toList_some, InsType.width, Nat.reduceDiv]
  rfl

theorem track_arith (op : BinOp) :
    track [⟨.case1 op .I32, stackTop origin, stackTop top, stackTop origin⟩] w =
      ((w.get top 4).bind (Written.get origin 4)).map (Written.set origin 4) := by
  rw [track, DefUse.track_single]
  simp only [Instruction.readCells, Instruction.reads, Instruction.writtenCells, Instruction.writes,
    List.flatMap_cons, List.flatMap_nil, List.append_nil, Option.toList_some, DefUse.read_append,
    InsType.width, Nat.reduceDiv]
  rfl

theorem track_op (t : TokenType) : track (opInst origin top t) w = w.applyOp t origin top := by
  unfold opInst Written.applyOp
  cases t with
  | Plus | Sub | Star | Slash => exact track_arith _
  | _ => rfl

theorem track_call (func_name : Bytes) : track (callCode func_name k) w =
    if func_name = bytes "print" then w.get k 4 else some w := by
  rw [callCode]
  split
  · have size : printSize SC_PRINT_I32 = 4 := by decide
    rw [track, DefUse.track_single]
    simp only [Instruction.readCells, Instruction.reads, Instruction.writtenCells, Instruction.writes, size,
      List.flatMap_singleton, Option.toList_none, List.flatMap_nil, List.append_nil, Option.map_id']
    rfl
  · rfl

theorem track_move : track [⟨.Move, stackTop dst, stackTop src, 0⟩] w = w.move dst src := by
  rw [track, DefUse.track_single]
  simp only [Instruction.readCells, Instruction.reads, Instruction.writtenCells, Instruction.writes,
    List.flatMap_singleton, Option.toList_some]
  rfl

theorem track_copy (dst src length : Int) : track (moveCode dst src length) w = w.copy dst src length.toNat := by
  rw [moveCode]
  induction length.toNat with
  | zero => rfl
  | succ n ih =>
    rw [List.range_succ, List.map_append, track, DefUse.track_append, Written.copy]
    have last : ∀ w, track [⟨.Move, stackTop (i32 (dst + n)), stackTop (i32 (src + n)), 0⟩] w =
        w.move (i32 (dst + n)) (i32 (src + n)) := fun _ => track_move
    rw [show DefUse.track _ _ _ _ = _ from ih]
    exact Option.bind_congr fun w _ => last w

theorem track_append : track (code ++ code') w = (track code w).bind (track code') := DefUse.track_append

mutual

theorem track_exprCode (e : Expr) {k : Int} {code : List Instruction} (h : exprCode host e k = some code)
    (w : Written) : track code w = e.fill k w := by
  cases e with
  | TOKEN start end_ v =>
    cases h
    unfold literatureCode Expr.fill
    cases v.type_ with
    | Int | Float => exact track_set _
    | _ => rfl
  | OPS start end_ ops exprs => exact track_opsCode ops exprs h w
  | FUNCALL start end_ exprs =>
    cases exprs with
    | nil =>
      cases h
      rw [track_call]
      rfl
    | cons f args =>
      obtain ⟨first, args_code, h⟩ := Option.bind_eq_some_iff.mp h
      cases h
      rw [track_append, track_argsCode args args_code w, Expr.fill, Expr.fillCall]
      exact Option.bind_congr fun w _ => track_call f.str

theorem track_opsCode (ops : List TokenType) (exprs : List Expr) {k : Int} {code : List Instruction}
    (h : opsCode host ops exprs k = some code) (w : Written) : track code w = Expr.fillOps ops exprs k w := by
  cases exprs with
  | nil => cases h
  | cons e es =>
    obtain ⟨first, e_code, h⟩ := Option.bind_eq_some_iff.mp h
    rw [Expr.fillOps]
    split at h
    · next unary =>
      cases h
      rw [track_append, track_exprCode e e_code w]
      refine Option.bind_congr fun w _ => ?_
      rw [if_pos unary]
      exact track_negate
    · next chain =>
      obtain ⟨rest, rest_code, h⟩ := Option.bind_eq_some_iff.mp h
      cases h
      rw [track_append, track_exprCode e e_code w]
      refine Option.bind_congr fun w _ => ?_
      rw [if_neg chain]
      exact track_chainCode ops es rest_code w

theorem track_chainCode (ops : List TokenType) (es : List Expr) {origin top : Int} {code : List Instruction}
    (h : chainCode host origin top ops es = some code) (w : Written) :
    track code w = Expr.fillChain origin top ops es w := by
  cases ops with
  | nil =>
    rw [chainCode] at h
    cases h
    rw [Expr.fillChain]
    · rfl
    · nofun
  | cons t ops =>
    cases es with
    | nil => cases h
    | cons e es =>
      obtain ⟨first, e_code, h⟩ := Option.bind_eq_some_iff.mp h
      obtain ⟨rest, rest_code, h⟩ := Option.bind_eq_some_iff.mp h
      cases h
      rw [track_append, track_append, track_exprCode e e_code w, Expr.fillChain, Option.bind_assoc]
      refine Option.bind_congr fun w _ => ?_
      rw [track_op]
      exact Option.bind_congr fun w _ => track_chainCode ops es rest_code w

theorem track_argsCode (es : List Expr) {k : Int} {code : List Instruction}
    (h : argsCode host es k = some code) (w : Written) : track code w = Expr.fillArgs es k w := by
  cases es with
  | nil =>
    cases h
    rfl
  | cons e es =>
    obtain ⟨first, e_code, h⟩ := Option.bind_eq_some_iff.mp h
    obtain ⟨rest, rest_code, h⟩ := Option.bind_eq_some_iff.mp h
    cases h
    rw [track_append, track_exprCode e e_code w, Expr.fillArgs]
    exact Option.bind_congr fun w _ => track_argsCode es rest_code w

end

theorem track_nodes {nodes : List Node} {c c' : Compiler} (straight : ∀ node ∈ nodes, node.Straight)
    (h : compile_nodes host nodes c = some c') :
    ∃ code, c'.current_func_.instructions = c.current_func_.instructions ++ code ∧
      ∀ w, track code w = Layout.fill host c.type_table_ nodes c.layout w := by
  induction nodes generalizing c with
  | nil =>
    cases h
    exact ⟨[], (List.append_nil _).symm, fun _ => rfl⟩
  | cons node nodes ih =>
    obtain ⟨c₁, first, rest⟩ := Option.bind_eq_some_iff.mp h
    obtain ⟨code, instructions, tracked⟩ := ih (fun node inside => straight node (.tail _ inside)) rest
    cases node with
    | Declaration decl =>
      obtain ⟨layout, silent, kept⟩ := declaration_effect host first
      rw [layout, kept.table] at tracked
      exact ⟨code, silent ▸ instructions, tracked⟩
    | Assignment asgm =>
      obtain ⟨var, e_code, found, compiled, rfl⟩ := assignment_effect host first
      refine ⟨e_code ++ moveCode var.address c.top var.size ++ code, ?_, fun w => ?_⟩
      · rw [instructions]
        exact List.append_assoc _ _ _
      · rw [track_append, track_append, track_exprCode host asgm.expr compiled, Layout.fill, Option.bind_assoc]
        refine Option.bind_congr fun w _ => ?_
        simp only [found]
        rw [track_copy]
        exact Option.bind_congr fun w _ => tracked w
    | Expr e =>
      have single : compile_expr host e c = some c₁ := first
      rw [compile_expr_eq] at single
      obtain ⟨e_code, compiled, rfl⟩ := Option.map_eq_some_iff.mp single
      refine ⟨e_code ++ code, ?_, fun w => ?_⟩
      · rw [instructions]
        exact List.append_assoc _ _ _
      · rw [track_append, track_exprCode host e compiled, Layout.fill]
        exact Option.bind_congr fun w _ => tracked w
    | If | For => exact (straight _ (.head _)).elim
    | Function | Return | Typedef =>
      cases first
      exact ⟨code, instructions, tracked⟩

theorem reads_func : Adding host fun table func info =>
    func.2.Straight → (ReadsWritten info.instructions ↔ func.2.Filled host table) := by
  intro func_name block c c' h
  obtain ⟨c₁, h₁, h⟩ := Option.bind_eq_some_iff.mp h
  cases h
  have generating : (c.setCurrentFunc (.new func_name)).Generating :=
    ⟨nofun, (by decide : IsInt 0)⟩
  have kept := (simulates_block host .unused block generating h₁).kept
  refine ⟨_, congrArg (· ++ _) kept.funcs, kept.program, kept.table, fun straight => ?_⟩
  cases block with
  | mk start end_ nodes =>
    obtain ⟨code, instructions, tracked⟩ := track_nodes host straight h₁
    have all : (c₁.current_func_.FinishCompiling).instructions = code := instructions
    rw [ReadsWritten, DefUse.readsWritten_iff, all]
    exact iff_of_eq (congrArg (fun w : Option Written => w.isSome = true) (tracked []))

/-- Functions without branches and loops read what they have written exactly as far as their
sources do. -/
theorem reads_written_iff {host : Host} {ast : Root} {c : Compiler}
    (compiled : compile host ast .init = some c) :
    List.Forall₂ (fun func info => func.2.Straight →
        (ReadsWritten info.instructions ↔ func.2.Filled host c.type_table_)) ast.funcs c.func_table_ :=
  (compile_linked (R := fun table func info => func.2.Straight →
    (ReadsWritten info.instructions ↔ func.2.Filled host table)) host (reads_func host) compiled).2

theorem reads_written_sumProduct :
    ∃ c info, compile .plain (Arith.mainOf [
        .Declaration ⟨.init, .init, bytes "x", some ⟨.init, .init, false, none, bytes "int"⟩, Arith.intToken 0⟩,
        .Assignment ⟨.init, .init, bytes "x", .OPS .init .init [.Plus] [Arith.intToken 5, Arith.intToken 3]⟩,
        Arith.printCall (.OPS .init .init [.Star] [Arith.intToken 2, Arith.intToken 4])]) .init = some c ∧
      c.func_table_ = [info] ∧ ReadsWritten info.instructions := by
  obtain ⟨c, compiled⟩ := Option.isSome_iff_exists.mp (by decide : (compile .plain (Arith.mainOf [
    .Declaration ⟨.init, .init, bytes "x", some ⟨.init, .init, false, none, bytes "int"⟩, Arith.intToken 0⟩,
    .Assignment ⟨.init, .init, bytes "x", .OPS .init .init [.Plus] [Arith.intToken 5, Arith.intToken 3]⟩,
    Arith.printCall (.OPS .init .init [.Star] [Arith.intToken 2, Arith.intToken 4])]) .init).isSome)
  have table : c.type_table_ = TypeTable.initBasicInfos := by
    have same := congrArg (Option.map (·.type_table_)) compiled
    exact (Option.some.inj same).symm
  obtain ⟨info, infos, same, none, func⟩ := List.forall₂_cons_left_iff.mp (reads_written_iff compiled)
  obtain rfl := List.forall₂_nil_left_iff.mp none
  refine ⟨c, info, compiled, func, (same ?_).mpr ?_⟩
  · simp only [Block.Straight, List.forall_mem_cons]
    exact ⟨trivial, trivial, trivial, List.forall_mem_nil _⟩
  · rw [table]
    decide

/-- The operand of `x = y` is not compiled. -/
theorem name_read_unwritten :
    ∃ c info, compile .plain (Arith.mainOf [
        .Declaration ⟨.init, .init, bytes "x", some ⟨.init, .init, false, none, bytes "int"⟩, Arith.intToken 1⟩,
        .Declaration ⟨.init, .init, bytes "y", some ⟨.init, .init, false, none, bytes "int"⟩, Arith.intToken 2⟩,
        .Assignment ⟨.init, .init, bytes "x", .TOKEN .init .init (.CreateSymbol 1 (bytes "y"))⟩]) .init = some c ∧
      c.errors_ = [] ∧ c.func_table_ = [info] ∧ ¬ ReadsWritten info.instructions := by
  have run : (compile .plain (Arith.mainOf [
      .Declaration ⟨.init, .init, bytes "x", some ⟨.init, .init, false, none, bytes "int"⟩, Arith.intToken 1⟩,
      .Declaration ⟨.init, .init, bytes "y", some ⟨.init, .init, false, none, bytes "int"⟩, Arith.intToken 2⟩,
      .Assignment ⟨.init, .init, bytes "x", .TOKEN .init .init (.CreateSymbol 1 (bytes "y"))⟩]) .init).map
        (fun c => (c.errors_, c.func_table_.map (·.instructions))) =
      some ([], [moveCode 0 8 4]) := by decide
  obtain ⟨c, compiled, rest⟩ := Option.map_eq_some_iff.mp run
  obtain ⟨errors, code⟩ := Prod.mk.inj rest
  obtain ⟨info, func, code⟩ := List.map_eq_singleton_iff.mp code
  refine ⟨c, info, compiled, errors, func, ?_⟩
  rw [code, ReadsWritten, DefUse.readsWritten_iff]
  decide

end Compiler

end Mygo
