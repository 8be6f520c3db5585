import Mygo.Compiler.Defs

namespace Mygo
namespace Compiler

abbrev top (c : Compiler) : Int := c.current_func_.cur_stack_top

@[simp] theorem emit_nil (c : Compiler) : c.emit [] = c := by
  simp [emit]

@[simp] theorem emit_emit (c : Compiler) (is js : List Instruction) :
    (c.emit is).emit js = c.emit (is ++ js) := by
  simp [emit]

@[simp] theorem setStackTop_setStackTop (c : Compiler) (k l : Int) :
    (c.setStackTop k).setStackTop l = c.setStackTop l := rfl

@[simp] theorem setStackTop_top (c : Compiler) : c.setStackTop c.top = c := rfl

@[simp] theorem top_emit (c : Compiler) (is : List Instruction) : (c.emit is).top = c.top := rfl

@[simp] theorem top_setStackTop (c : Compiler) (k : Int) : (c.setStackTop k).top = k := rfl

theorem subscript_of_some {c : Compiler} {name : Bytes} {var : VarInfo}
    (h : c.current_func_.var_address_map name = some var) : c.subscript name = c := by
  rw [subscript, Scope.emplace, h]
  rfl

theorem restore_emit (c : Compiler) (is js : List Instruction) :
    ((c.emit is).emit js).setStackTop c.top = c.emit (is ++ js) := by
  simp [emit, setStackTop]

theorem restore_bumped (c : Compiler) (is js : List Instruction) (k : Int) :
    (((c.emit is).setStackTop k).emit js).setStackTop c.top = c.emit (is ++ js) := by
  simp [emit, setStackTop]

variable (host : Host)

def literatureCode (v : Value) (k : Int) : List Instruction :=
  match v.type_ with
  | .Int => [⟨.Set32, stackTop k, i32u64 v.i_data_, 0⟩]
  | .Float => [⟨.Set32, stackTop k, f32u64 host v.f_data_, 0⟩]
  | _ => []

def callCode (func_name : Bytes) (k : Int) : List Instruction :=
  if func_name = bytes "print" then [⟨.Call, SC_PRINT_I32, stackTop k, 0⟩] else []

def moveCode (dst src length : Int) : List Instruction :=
  (List.range length.toNat).map fun i : Nat =>
    ⟨.Move, stackTop (i32 (dst + i)), stackTop (i32 (src + i)), 0⟩

theorem length_moveCode (dst src length : Int) :
    (moveCode dst src length).length = length.toNat := by simp [moveCode]

mutual

def exprCode : Expr → Int → Option (List Instruction)
  | .FUNCALL _ _ exprs, k => funcallCode exprs k
  | .TOKEN _ _ v, k => some (literatureCode host v k)
  | .OPS _ _ ops exprs, k => opsCode ops exprs k

def opsCode (ops : List TokenType) : List Expr → Int → Option (List Instruction)
  | [], _ => none
  | e :: es, k => do
    let code ← exprCode e k
    if ops = [.Sub] ∧ es = [] then
      some (code ++ [⟨.MulI32D, stackTop k, i32u64 (-1), stackTop k⟩])
    else do
      let rest ← chainCode k (i32 (k + 4)) ops es
      some (code ++ rest)

def chainCode (origin top : Int) : List TokenType → List Expr → Option (List Instruction)
  | [], _ => some []
  | _ :: _, [] => none
  | t :: ops, e :: es => do
    let code ← exprCode e top
    let rest ← chainCode origin top ops es
    some (code ++ opInst origin top t ++ rest)

def funcallCode : List Expr → Int → Option (List Instruction)
  | [], k => some (callCode [] k)
  | f :: args, k => do
    let code ← argsCode args k
    some (code ++ callCode f.str k)

def argsCode : List Expr → Int → Option (List Instruction)
  | [], _ => some []
  | e :: es, k => do
    let code ← exprCode e k
    let rest ← argsCode es k
    some (code ++ rest)

end

theorem compile_call_eq (func_name : Bytes) (c : Compiler) :
    c.compile_call func_name = c.emit (callCode func_name c.top) := by
  unfold compile_call callCode
  split <;> simp

theorem compile_expr_literature_eq (v : Value) (c : Compiler) :
    compile_expr_literature host v c = c.emit (literatureCode host v c.top) := by
  unfold compile_expr_literature literatureCode
  split <;> simp_all

mutual

theorem compile_expr_eq (e : Expr) (c : Compiler) :
    compile_expr host e c = (exprCode host e c.top).map c.emit := by
  cases e with
  | TOKEN s e v => simp [compile_expr, exprCode, compile_expr_literature_eq]
  | OPS s e ops exprs => exact compile_expr_ops_eq ops exprs c
  | FUNCALL s e exprs => exact compile_funcall_eq exprs c

theorem compile_expr_ops_eq (ops : List TokenType) (exprs : List Expr) (c : Compiler) :
    compile_expr_ops host ops exprs c = (opsCode host ops exprs c.top).map c.emit := by
  cases exprs with
  | nil => rfl
  | cons e es =>
    rw [compile_expr_ops, opsCode]
    cases hcode : exprCode host e c.top with
    | none => simp [compile_expr_eq e c, hcode]
    | some code =>
      simp only [compile_expr_eq e c, hcode]
      split
      · exact congrArg some (restore_emit c code _)
      · have rest := compile_chain_eq c.top ops es ((c.emit code).setStackTop (i32 (c.top + 4)))
        cases hrest : chainCode host c.top (i32 (c.top + 4)) ops es with
        | none => simp_all [getExprSize]
        | some more =>
          simp_all [getExprSize]
          exact restore_bumped c code more _

theorem compile_chain_eq (origin : Int) (ops : List TokenType) (es : List Expr) (c : Compiler) :
    compile_chain host origin ops es c = (chainCode host origin c.top ops es).map c.emit := by
  cases ops with
  | nil => simp [compile_chain, chainCode]
  | cons t ops =>
    cases es with
    | nil => rfl
    | cons e es =>
      rw [compile_chain, chainCode]
      cases hcode : exprCode host e c.top with
      | none => simp [compile_expr_eq e c, hcode]
      | some code =>
        have rest := compile_chain_eq origin ops es (c.emit (code ++ opInst origin c.top t))
        cases hrest : chainCode host origin c.top ops es with
        | none => simp_all [compile_expr_eq e c]
        | some more => simp_all [compile_expr_eq e c]

theorem compile_funcall_eq (exprs : List Expr) (c : Compiler) :
    compile_funcall host exprs c = (funcallCode host exprs c.top).map c.emit := by
  cases exprs with
  | nil => simp [compile_funcall, funcallCode, compile_call_eq]
  | cons f args =>
    rw [compile_funcall, funcallCode, compile_args_eq args c]
    cases argsCode host args c.top with
    | none => rfl
    | some code => simp [compile_call_eq]

theorem compile_args_eq (es : List Expr) (c : Compiler) :
    compile_args host es c = (argsCode host es c.top).map c.emit := by
  cases es with
  | nil => simp [compile_args, argsCode]
  | cons e es =>
    rw [compile_args, argsCode]
    cases hcode : exprCode host e c.top with
    | none => simp [compile_expr_eq e c, hcode]
    | some code =>
      have rest := compile_args_eq es (c.emit code)
      cases hrest : argsCode host es c.top with
      | none => simp_all [compile_expr_eq e c]
      | some more => simp_all [compile_expr_eq e c]

end

theorem compile_single {ast : Root} {start end_ start' end' : Loc} {func_name : Bytes}
    {args : List (Bytes × Bytes)} {returns : List Bytes} {nodes : List Node} {c : Compiler}
    (one : ast.nodes = [.Function start end_ func_name args returns (.mk start' end' nodes)])
    (h : compile_nodes host nodes (init.setCurrentFunc (.new func_name)) = some c)
    (program : c.program_ = []) (funcs : c.func_table_ = []) :
    ∃ c', compile host ast init = some c' ∧ c'.program_ = c.current_func_.instructions ∧
      c'.current_func_ = c.current_func_ ∧ c'.type_table_ = c.type_table_ := by
  have linked : compile host ast init = some (link { c with
      func_table_ := c.func_table_ ++ [c.current_func_.FinishCompiling] }) := by
    simp only [compile, one, compile_types, compile_global, compile_funcs, compile_func,
      compile_block, Option.bind_eq_bind, Option.bind_some, h]
  refine ⟨_, linked, ?_, rfl, rfl⟩
  simp [link, program, funcs, CompilingFunc.FinishCompiling]

end Compiler

end Mygo
