import Mygo.Ast
import Mygo.Vm.Machine

/-! The code generator of compiler.h and compiler.cpp, as functions on its state.  `none` is
a failed assertion, a null pointer or an index outside a vector. -/

namespace Mygo

/-- The value of an `int` computation whose exact result is `x`. -/
def i32 (x : Int) : Int := x.bmod (2 ^ 32)

abbrev TypeId := Int

/-- Members the source leaves unset are `none` or zero. -/
structure VarInfo where
  name : Bytes
  type_id : Option TypeId
  size : Int
  address : Int

def VarInfo.zero : VarInfo := ⟨[], some 0, 0, 0⟩

structure FuncInfo where
  name : Bytes
  instructions : List Instruction

abbrev Scope := Bytes → Option VarInfo

/-- `emplace` keeps an entry that is already there. -/
def Scope.emplace (m : Scope) (name : Bytes) (var : VarInfo) : Scope :=
  match m name with
  | some _ => m
  | none => Function.update m name (some var)

structure CompilingFunc where
  name : Bytes
  cur_stack_top : Int
  var_address_map : Scope
  instructions : List Instruction

def CompilingFunc.new (name : Bytes) : CompilingFunc := ⟨name, 0, fun _ => none, []⟩

def CompilingFunc.FinishCompiling (cp : CompilingFunc) : FuncInfo := ⟨cp.name, cp.instructions⟩

structure TypeInfo where
  type_id : TypeId
  size : Int
  name : Bytes
  is_struct : Bool
  alias_type : TypeId
  fields : List (TypeId × Bytes)
  deriving DecidableEq

/-- What the generated code depends on besides the source: how a float literal is rounded,
and in which order an `unordered_map` enumerates what was inserted into it. -/
structure Host where
  f32 : FloatLiteral → BitVec 32
  order : List TypeInfo → List TypeInfo
  order_perm : ∀ l, (order l).Perm l

/-- Enumeration in insertion order; for programs without float literals. -/
def Host.plain : Host := ⟨fun _ => 0, id, fun _ => .refl _⟩

/-- The entries of `type_table_` in the order of their insertion. -/
abbrev TypeTable := List TypeInfo

namespace TypeTable

def insert (table : TypeTable) (info : TypeInfo) : TypeTable :=
  if table.any (·.type_id = info.type_id) then table else table ++ [info]

def initBasicInfos : TypeTable :=
  [⟨10, 1, bytes "bool", false, -1, []⟩, ⟨20, 4, bytes "int", false, -1, []⟩,
    ⟨30, 4, bytes "float32", false, -1, []⟩, ⟨40, 16, bytes "string", false, -1, []⟩].foldl
    insert []

def max_type_id (table : TypeTable) : TypeId :=
  table.foldl (fun max info => if info.type_id > max then info.type_id else max) (-1)

def findByName (host : Host) (table : TypeTable) (name : Bytes) : Option TypeInfo :=
  (host.order table).find? fun info => info.name = name

end TypeTable

def i32u64 (i : Int) : Address := (BitVec.ofInt 32 i).setWidth 64

def f32u64 (host : Host) (f : FloatLiteral) : Address := (host.f32 f).setWidth 64

def stackTop (k : Int) : Address := base STACK_TOP (BitVec.ofInt 64 k)

structure Compiler where
  cur_lable_ : Int
  program_ : Program
  type_table_ : TypeTable
  global_table_ : List VarInfo
  func_table_ : List FuncInfo
  /-- The function `current_func_` points to; `compile_func` sets it before any use. -/
  current_func_ : CompilingFunc
  errors_ : List Bytes

namespace Compiler

def init : Compiler where
  cur_lable_ := 1
  program_ := []
  type_table_ := TypeTable.initBasicInfos
  global_table_ := []
  func_table_ := []
  current_func_ := .new []
  errors_ := []

def setCurrentFunc (f : CompilingFunc) (c : Compiler) : Compiler := { c with current_func_ := f }

def error (err : Bytes) (c : Compiler) : Compiler := { c with errors_ := c.errors_ ++ [err] }

def emit (code : List Instruction) (c : Compiler) : Compiler :=
  { c with current_func_ :=
    { c.current_func_ with instructions := c.current_func_.instructions ++ code } }

def setStackTop (k : Int) (c : Compiler) : Compiler :=
  { c with current_func_ := { c.current_func_ with cur_stack_top := k } }

def setVars (m : Scope) (c : Compiler) : Compiler :=
  { c with current_func_ := { c.current_func_ with var_address_map := m } }

/-- `var_address_map[name]` inserts a value-initialised entry where there is none. -/
def subscript (name : Bytes) (c : Compiler) : Compiler :=
  c.setVars (c.current_func_.var_address_map.emplace name .zero)

def addMoveInsts (dst src length : Int) (c : Compiler) : Compiler :=
  c.emit ((List.range length.toNat).map fun i : Nat =>
    ⟨.Move, stackTop (i32 (dst + i)), stackTop (i32 (src + i)), 0⟩)

def alloc_new_label (c : Compiler) : Address × Compiler :=
  (base LABEL (BitVec.ofInt 64 c.cur_lable_), { c with cur_lable_ := i32 (c.cur_lable_ + 1) })

def getExprSize (_ : Expr) : Int := 4

def opInst (origin top : Int) : TokenType → List Instruction
  | .Plus => [⟨.AddI32, stackTop origin, stackTop top, stackTop origin⟩]
  | .Sub => [⟨.SubI32, stackTop origin, stackTop top, stackTop origin⟩]
  | .Star => [⟨.MulI32, stackTop origin, stackTop top, stackTop origin⟩]
  | .Slash => [⟨.DivI32, stackTop origin, stackTop top, stackTop origin⟩]
  | _ => []

def compile_call (func_name : Bytes) (c : Compiler) : Compiler :=
  if func_name = bytes "print" then
    c.emit [⟨.Call, SC_PRINT_I32, stackTop c.current_func_.cur_stack_top, 0⟩]
  else c

variable (host : Host)

def compile_expr_literature (v : Value) (c : Compiler) : Compiler :=
  match v.type_ with
  | .Int => c.emit [⟨.Set32, stackTop c.current_func_.cur_stack_top, i32u64 v.i_data_, 0⟩]
  | .Float => c.emit [⟨.Set32, stackTop c.current_func_.cur_stack_top, f32u64 host v.f_data_, 0⟩]
  | _ => c

mutual

def compile_expr : Expr → Compiler → Option Compiler
  | .FUNCALL _ _ exprs, c => compile_funcall exprs c
  | .TOKEN _ _ v, c => some (compile_expr_literature host v c)
  | .OPS _ _ ops exprs, c => compile_expr_ops ops exprs c

def compile_expr_ops (ops : List TokenType) : List Expr → Compiler → Option Compiler
  | [], _ => none
  | e :: es, c =>
    let origin_stack_top := c.current_func_.cur_stack_top
    if ops = [.Sub] ∧ es = [] then do
      let c ← compile_expr e c
      let c := c.emit [⟨.MulI32D, stackTop origin_stack_top, i32u64 (-1), stackTop origin_stack_top⟩]
      c.setStackTop origin_stack_top
    else do
      let c ← compile_expr e c
      let c := c.setStackTop (i32 (c.current_func_.cur_stack_top + getExprSize e))
      let c ← compile_chain origin_stack_top ops es c
      c.setStackTop origin_stack_top

/-- The loop over `expr.ops`, with the operands from `expr.exprs[1]` on. -/
def compile_chain (origin_stack_top : Int) :
    List TokenType → List Expr → Compiler → Option Compiler
  | [], _, c => some c
  | _ :: _, [], _ => none
  | t :: ops, e :: es, c => do
    let c ← compile_expr e c
    compile_chain origin_stack_top ops es
      (c.emit (opInst origin_stack_top c.current_func_.cur_stack_top t))

def compile_funcall : List Expr → Compiler → Option Compiler
  | [], c => some (c.compile_call [])
  | f :: args, c => do
    let c ← compile_args args c
    c.compile_call f.str

def compile_args : List Expr → Compiler → Option Compiler
  | [], c => some c
  | e :: es, c => do
    let c ← compile_expr e c
    compile_args es c

end

def compile_declaration (decl : Declaration) (c : Compiler) : Option Compiler :=
  match decl.var_type with
  | none => none
  | some var_type =>
    match c.type_table_.findByName host var_type.name_ with
    | none => c.error (bytes "type is not defined: " ++ var_type.name_)
    | some s =>
      let cp := c.current_func_
      let new_var : VarInfo := ⟨decl.var_name, none, s.size, cp.cur_stack_top⟩
      (c.setVars (cp.var_address_map.emplace decl.var_name new_var)).setStackTop
        (i32 (cp.cur_stack_top + s.size))

def compile_assignment (asmt : Assignment) (c : Compiler) : Option Compiler :=
  let c := c.subscript asmt.var_name
  match c.current_func_.var_address_map asmt.var_name with
  | none => c.error (bytes "var is not defined: " ++ asmt.var_name)
  | some var_info => do
    let old_stack_top := c.current_func_.cur_stack_top
    let c ← compile_expr host asmt.expr c
    c.addMoveInsts var_info.address old_stack_top var_info.size

mutual

def compile_statement : Node → Compiler → Option Compiler
  | .Declaration decl, c => compile_declaration host decl c
  | .Assignment asgm, c => compile_assignment host asgm c
  | .If _ _ branches tail, c => do
    let label := c.alloc_new_label.1
    let c ← compile_branches branches (c.alloc_new_label.2.emit [⟨.JumpEqI32, 0, 0, label⟩])
    let c ← compile_tail tail c
    c.emit [⟨.Label, label, 0, 0⟩]
  | .Expr e, c => compile_expr host e c
  | .For _ _ _ _ _ block, c => compile_block block c
  | .Function _ _ _ _ _ _, c => some c
  | .Return _, c => some c
  | .Typedef _, c => some c

def compile_branches : List (Expr × Block) → Compiler → Option Compiler
  | [], c => some c
  | (_, block) :: branches, c => do
    let c ← compile_block block c
    compile_branches branches c

def compile_tail : Option Block → Compiler → Option Compiler
  | none, c => some c
  | some block, c => compile_block block c

def compile_block : Block → Compiler → Option Compiler
  | .mk _ _ nodes, c => compile_nodes nodes c

def compile_nodes : List Node → Compiler → Option Compiler
  | [], c => some c
  | stmt :: nodes, c => do
    let c ← compile_statement stmt c
    compile_nodes nodes c

end

def compile_func (func_name : Bytes) (block : Block) (c : Compiler) : Option Compiler := do
  let c ← compile_block host block (c.setCurrentFunc (.new func_name))
  some { c with func_table_ := c.func_table_ ++ [c.current_func_.FinishCompiling] }

def compile_fields (table : TypeTable) : List (Bytes × Bytes) → TypeInfo → Option TypeInfo
  | [], type_info => some type_info
  | (field_name, type_str) :: rest, type_info => do
    let field_type_info ← table.findByName host type_str
    compile_fields table rest
      { type_info with
        size := i32 (type_info.size + field_type_info.size)
        fields := type_info.fields ++ [(field_type_info.type_id, field_name)] }

def compile_typedef (tf : Typedef) (c : Compiler) : Option Compiler := do
  let type_info : TypeInfo :=
    ⟨i32 (c.type_table_.max_type_id + 10), 0, tf.new_name_, false, -1, []⟩
  if tf.old_type_.is_struct_ then
    let stct ← tf.old_type_.stct_
    let type_info ← compile_fields host c.type_table_ stct.fields_ { type_info with is_struct := true }
    some { c with type_table_ := c.type_table_.insert type_info }
  else some { c with type_table_ := c.type_table_.insert type_info }

def compile_types : List Node → Compiler → Option Compiler
  | [], c => some c
  | .Typedef tf :: nodes, c => do
    let c ← compile_typedef host tf c
    compile_types nodes c
  | _ :: nodes, c => compile_types nodes c

def compile_global : List Node → Compiler → Option Compiler
  | [], c => some c
  | .Declaration decl :: nodes, c =>
    match decl.var_type with
    | some var_type => do
      let tf ← c.type_table_.findByName host var_type.name_
      compile_global nodes
        { c with global_table_ := c.global_table_ ++ [⟨decl.var_name, some tf.type_id, 0, 0⟩] }
    | none =>
      compile_global nodes
        { c with global_table_ := c.global_table_ ++ [⟨decl.var_name, none, 0, 0⟩] }
  | _ :: nodes, c => compile_global nodes c

def compile_funcs : List Node → Compiler → Option Compiler
  | [], c => some c
  | .Function _ _ func_name _ _ block :: nodes, c => do
    let c ← compile_func host func_name block c
    compile_funcs nodes c
  | _ :: nodes, c => compile_funcs nodes c

def link (c : Compiler) : Compiler :=
  { c with program_ := c.program_ ++ c.func_table_.flatMap (·.instructions) }

def compile (ast : Root) (c : Compiler) : Option Compiler := do
  let c ← compile_types host ast.nodes c
  let c ← compile_global host ast.nodes c
  let c ← compile_funcs host ast.nodes c
  c.link

end Compiler

end Mygo
