import Mygo.Compiler.ArithBody
import Mygo.Compiler.Safety

namespace Mygo

open Arithmetic

namespace Control

abbrev Env := List (Bytes × Int)

def Env.lookup (env : Env) (x : Bytes) : Option Int := List.lookup x env

def Env.assign (x : Bytes) (v : Int) : Env → Option Env
  | [] => none
  | (y, w) :: env =>
    if y = x then some ((y, v) :: env) else (Env.assign x v env).map ((y, w) :: ·)

def int32In (env : Env) : Arithmetic Int where
  leaf v := match v.type_ with
    | .Int => checked v.i_data_
    | .Symbol => env.lookup v.str_data_
    | _ => none
  neg := int32.neg
  op := int32.op

def holds (env : Env) : Expr → Option Bool
  | .TOKEN _ _ v => if v.type_ = .True then some true else none
  | .OPS _ _ [t] [e, e'] => do
    let x ← e.eval (int32In env)
    let y ← e'.eval (int32In env)
    match t with
    | .Less => some (x < y)
    | .Greater => some (x > y)
    | .Equal => some (x = y)
    | _ => none
  | _ => none

def Env.leave (env env' : Env) : Env := env'.drop (env'.length - env.length)

inductive Init : Env → Option Declaration → Env → Prop
  | none (env : Env) : Init env none env
  | some {env : Env} {decl : Declaration} {v : Int} (value : decl.expr.eval (int32In env) = some v) :
      Init env (some decl) ((decl.var_name, v) :: env)

inductive Step : Env → Option Assignment → Env → Prop
  | none (env : Env) : Step env none env
  | some {env env' : Env} {asgm : Assignment} {v : Int}
      (value : asgm.expr.eval (int32In env) = some v)
      (assign : env.assign asgm.var_name v = some env') : Step env (some asgm) env'

mutual

/-- A terminating run of a statement: the locals after it and what it printed. -/
inductive Exec : Env → Node → Env → List Output → Prop
  | declaration {env : Env} {decl : Declaration} {v : Int}
      (value : decl.expr.eval (int32In env) = some v) :
      Exec env (.Declaration decl) ((decl.var_name, v) :: env) []
  | assignment {env env' : Env} {asgm : Assignment} {v : Int}
      (value : asgm.expr.eval (int32In env) = some v)
      (assign : env.assign asgm.var_name v = some env') : Exec env (.Assignment asgm) env' []
  | print {env : Env} {start end_ start' end' start'' end'' : Loc} {callee v : Value}
      (name : callee.str_data_ = bytes "print") (int : v.type_ = .Int) :
      Exec env (.Expr (.FUNCALL start end_ [.TOKEN start' end' callee, .TOKEN start'' end'' v])) env
        [.I32 (BitVec.ofInt 32 v.i_data_)]
  | iff {env env' : Env} {start end_ : Loc} {branches : List (Expr × Block)}
      {tail : Option Block} {prints : List Output} (chain : ExecBranches env branches tail env' prints) :
      Exec env (.If start end_ branches tail) env' prints
  | forr {env env₁ env₂ : Env} {start end_ : Loc} {init : Option Declaration} {cond : Option Expr}
      {step : Option Assignment} {block : Block} {prints : List Output} (first : Init env init env₁)
      (loop : ExecLoop env₁ cond step block env₂ prints) :
      Exec env (.For start end_ init cond step block) (env.leave env₂) prints

inductive ExecBranches : Env → List (Expr × Block) → Option Block → Env → List Output → Prop
  | first {env env' : Env} {e : Expr} {block : Block} {branches : List (Expr × Block)}
      {tail : Option Block} {prints : List Output} (cond : holds env e = some true)
      (body : ExecBlock env block env' prints) :
      ExecBranches env ((e, block) :: branches) tail env' prints
  | next {env env' : Env} {e : Expr} {block : Block} {branches : List (Expr × Block)}
      {tail : Option Block} {prints : List Output} (cond : holds env e = some false)
      (rest : ExecBranches env branches tail env' prints) :
      ExecBranches env ((e, block) :: branches) tail env' prints
  | tail {env env' : Env} {block : Block} {prints : List Output}
      (body : ExecBlock env block env' prints) : ExecBranches env [] (some block) env' prints
  | none (env : Env) : ExecBranches env [] none env []

inductive ExecLoop : Env → Option Expr → Option Assignment → Block → Env → List Output → Prop
  | done {env : Env} {e : Expr} {step : Option Assignment} {block : Block}
      (cond : holds env e = some false) : ExecLoop env (some e) step block env []
  | again {env env₁ env₂ env₃ : Env} {cond : Option Expr} {step : Option Assignment}
      {block : Block} {prints prints' : List Output} (go : ∀ e, cond = some e → holds env e = some true)
      (body : ExecBlock env block env₁ prints) (next : Step env₁ step env₂)
      (rest : ExecLoop env₂ cond step block env₃ prints') :
      ExecLoop env cond step block env₃ (prints ++ prints')

inductive ExecBlock : Env → Block → Env → List Output → Prop
  | mk {env env' : Env} {start end_ : Loc} {nodes : List Node} {prints : List Output}
      (body : ExecNodes env nodes env' prints) :
      ExecBlock env (.mk start end_ nodes) (env.leave env') prints

inductive ExecNodes : Env → List Node → Env → List Output → Prop
  | nil (env : Env) : ExecNodes env [] env []
  | cons {env env₁ env₂ : Env} {node : Node} {nodes : List Node} {prints prints' : List Output}
      (first : Exec env node env₁ prints) (rest : ExecNodes env₁ nodes env₂ prints') :
      ExecNodes env (node :: nodes) env₂ (prints ++ prints')

end

mutual

/-- Integer expressions, in the shapes the parser builds. -/
def IntExpr : Expr → Prop
  | .TOKEN _ _ v => v.type_ = .Int ∨ v.type_ = .Symbol
  | .OPS _ _ ops exprs => IntExprs exprs ∧
      (ops = [.Sub] ∧ exprs.length = 1 ∨
        exprs.length = ops.length + 1 ∧ ∀ t ∈ ops, Compiler.IsArith t)
  | .FUNCALL _ _ _ => False

def IntExprs : List Expr → Prop
  | [] => True
  | e :: es => IntExpr e ∧ IntExprs es

end

mutual

/-- Bodies of prints of literals, `int` locals and assignments, nested in `if` and `for`. -/
def Structured : Node → Prop
  | .Declaration decl => ∃ t, decl.var_type = some t ∧ t.name_ = bytes "int"
  | .Assignment asgm => IntExpr asgm.expr
  | .Expr e => ∃ start end_ start' end' start'' end'' callee v,
      e = .FUNCALL start end_ [.TOKEN start' end' callee, .TOKEN start'' end'' v] ∧
      callee.str_data_ = bytes "print" ∧ v.type_ = .Int
  | .If _ _ branches tail => StructuredBranches branches ∧ StructuredTail tail
  | .For _ _ _ _ _ block => StructuredBlock block
  | _ => False

def StructuredBranches : List (Expr × Block) → Prop
  | [] => True
  | (_, block) :: branches => StructuredBlock block ∧ StructuredBranches branches

def StructuredTail : Option Block → Prop
  | none => True
  | some block => StructuredBlock block

def StructuredBlock : Block → Prop
  | .mk _ _ nodes => StructuredNodes nodes

def StructuredNodes : List Node → Prop
  | [] => True
  | node :: nodes => Structured node ∧ StructuredNodes nodes

end

def literal : Expr → List Output
  | .FUNCALL _ _ [_, .TOKEN _ _ v] => [.I32 (BitVec.ofInt 32 v.i_data_)]
  | _ => []

mutual

/-- The prints in the text of a statement, every `for` block taken once. -/
def textual : Node → List Output
  | .Expr e => literal e
  | .For _ _ _ _ _ block => textualBlock block
  | _ => []

def textualBlock : Block → List Output
  | .mk _ _ nodes => textualNodes nodes

def textualNodes : List Node → List Output
  | [] => []
  | node :: nodes => textual node ++ textualNodes nodes

end

section Output

variable {host : Host}

theorem ok_bind {α β : Type} {x : Except Fault α} {f : α → Except Fault β} {b : β}
    (h : x >>= f = .ok b) : ∃ a, x = .ok a ∧ f a = .ok b := by
  cases x with
  | error e => cases h
  | ok a => exact ⟨a, rfl, h⟩

theorem out_set {k : Int} {v : BitVec 32} {s s' : Store} (h : s.set k v = .ok s') :
    s'.out = s.out := by
  unfold Store.set at h
  split at h
  · cases h
    rfl
  · cases h

theorem out_copy {dst src : Int} {n : Nat} {s s' : Store} (h : s.copy dst src n = .ok s') :
    s'.out = s.out := by
  induction n generalizing s' with
  | zero =>
    cases h
    rfl
  | succ n ih =>
    obtain ⟨s₁, h₁, h⟩ := ok_bind h
    unfold Store.move at h
    split at h
    · rw [← ih h₁]
      cases h
      rfl
    · cases h

theorem out_applyOp {t : TokenType} {origin top : Int} {s s' : Store}
    (h : s.applyOp t origin top = .ok s') : s'.out = s.out := by
  have arith : ∀ op, s.apply op origin top = .ok s' → s'.out = s.out := by
    intro op h
    obtain ⟨x, -, h⟩ := ok_bind h
    obtain ⟨y, -, h⟩ := ok_bind h
    obtain ⟨v, -, h⟩ := ok_bind h
    exact out_set h
  unfold Store.applyOp at h
  split at h
  · exact arith _ h
  · exact arith _ h
  · exact arith _ h
  · exact arith _ h
  · cases h
    rfl

mutual

theorem out_run (e : Expr) (int : IntExpr e) {k : Int} {s s' : Store}
    (h : e.run host k s = .ok s') : s'.out = s.out := by
  cases e with
  | TOKEN start end_ v =>
    rw [Expr.run] at h
    split at h
    · exact out_set h
    · exact out_set h
    · cases h
      rfl
  | OPS start end_ ops exprs => exact out_runOps ops exprs int.1 h
  | FUNCALL start end_ exprs => exact int.elim

theorem out_runOps (ops : List TokenType) (exprs : List Expr) (int : IntExprs exprs) {k : Int}
    {s s' : Store} (h : Expr.runOps host ops exprs k s = .ok s') : s'.out = s.out := by
  cases exprs with
  | nil =>
    cases h
    rfl
  | cons e es =>
    obtain ⟨s₁, h₁, h⟩ := ok_bind h
    refine Eq.trans ?_ (out_run e int.1 h₁)
    split at h
    · obtain ⟨x, -, h⟩ := ok_bind h
      exact out_set h
    · exact out_runChain ops es int.2 h

theorem out_runChain (ops : List TokenType) (es : List Expr) (int : IntExprs es) {origin top : Int}
    {s s' : Store} (h : Expr.runChain host origin top ops es s = .ok s') : s'.out = s.out := by
  cases es with
  | nil =>
    cases ops <;> cases h <;> rfl
  | cons e es =>
    cases ops with
    | nil =>
      cases h
      rfl
    | cons t ops =>
      obtain ⟨s₁, h₁, h⟩ := ok_bind h
      obtain ⟨s₂, h₂, h⟩ := ok_bind h
      exact (out_runChain ops es int.2 h).trans ((out_applyOp h₂).trans (out_run e int.1 h₁))

end

theorem set_get {k : Int} {v w : BitVec 32} {s s' : Store} (h : s.set k v = .ok s')
    (h' : s'.get k = .ok w) : w = v := by
  unfold Store.set at h
  split at h
  · next fits =>
    cases h
    rw [Store.get, if_pos fits] at h'
    cases h'
    exact ByteMemory.load_store_same _ _ _ rfl
  · cases h

variable {table : TypeTable}

mutual

theorem out_runNode (node : Node) (structured : Structured node) {l l' : Layout} {s s' : Store}
    (h : Meaning.runNode host table node l s = .ok (l', s')) : s'.out = s.out ++ textual node := by
  cases node with
  | Declaration decl =>
    cases h
    exact (List.append_nil _).symm
  | Assignment asgm =>
    refine Eq.trans ?_ (List.append_nil _).symm
    simp only [Meaning.runNode] at h
    split at h
    · cases h
      rfl
    · obtain ⟨s₁, h₁, h⟩ := ok_bind h
      obtain ⟨s₂, h₂, h⟩ := ok_bind h
      cases h
      exact (out_copy h₂).trans (out_run _ structured h₁)
  | Expr e =>
    obtain ⟨start, end_, start', end', start'', end'', callee, v, rfl, name, int⟩ := structured
    obtain ⟨s₁, h₁, h⟩ := ok_bind h
    cases h
    obtain ⟨s₂, h₂, h₁⟩ := ok_bind h₁
    obtain ⟨s₃, h₃, h₂⟩ := ok_bind h₂
    cases h₂
    rw [Expr.run, int] at h₃
    change (if callee.str_data_ = bytes "print" then _ else _) = _ at h₁
    rw [if_pos name] at h₁
    obtain ⟨w, hw, h₁⟩ := ok_bind h₁
    cases h₁
    rw [set_get h₃ hw, textual, literal]
    exact congrArg (· ++ _) (out_set h₃)
  | If start end_ branches tail => cases h
  | For start end_ init cond step block => exact out_runBlock block structured h
  | Function start end_ name args rets block => exact structured.elim
  | Return ret => exact structured.elim
  | Typedef tdef => exact structured.elim

theorem out_runBlock (block : Block) (structured : StructuredBlock block) {l l' : Layout}
    {s s' : Store} (h : Meaning.runBlock host table block l s = .ok (l', s')) :
    s'.out = s.out ++ textualBlock block := by
  cases block with
  | mk start end_ nodes => exact out_runNodes nodes structured h

theorem out_runNodes (nodes : List Node) (structured : StructuredNodes nodes) {l l' : Layout}
    {s s' : Store} (h : Meaning.runNodes host table nodes l s = .ok (l', s')) :
    s'.out = s.out ++ textualNodes nodes := by
  cases nodes with
  | nil =>
    cases h
    exact (List.append_nil _).symm
  | cons node nodes =>
    obtain ⟨⟨l₁, s₁⟩, h₁, h⟩ := ok_bind h
    rw [out_runNodes nodes structured.2 h, out_runNode node structured.1 h₁, List.append_assoc]
    rfl

end

end Output

section Compile

variable (host : Host)

mutual

theorem exprCode_int (e : Expr) (int : IntExpr e) (k : Int) :
    ∃ code, Compiler.exprCode host e k = some code := by
  cases e with
  | TOKEN start end_ v => exact ⟨_, rfl⟩
  | OPS start end_ ops exprs => exact opsCode_int ops exprs int.1 int.2 k
  | FUNCALL start end_ exprs => exact int.elim

theorem opsCode_int (ops : List TokenType) (exprs : List Expr) (int : IntExprs exprs)
    (shape : ops = [.Sub] ∧ exprs.length = 1 ∨
      exprs.length = ops.length + 1 ∧ ∀ t ∈ ops, Compiler.IsArith t) (k : Int) :
    ∃ code, Compiler.opsCode host ops exprs k = some code := by
  cases exprs with
  | nil => rcases shape with ⟨-, h⟩ | ⟨h, -⟩ <;> cases h
  | cons e es =>
    obtain ⟨code, hcode⟩ := exprCode_int e int.1 k
    rw [Compiler.opsCode, hcode, Option.bind_eq_bind, Option.bind_some]
    split
    · exact ⟨_, rfl⟩
    · next hchain =>
      rcases shape with ⟨hsub, hlen⟩ | ⟨hlen, -⟩
      · exact absurd ⟨hsub, List.length_eq_zero_iff.mp (Nat.succ.inj hlen)⟩ hchain
      · obtain ⟨rest, hrest⟩ := chainCode_int ops es int.2 (Nat.succ.inj hlen).symm k (i32 (k + 4))
        rw [hrest]
        exact ⟨_, rfl⟩

theorem chainCode_int (ops : List TokenType) (es : List Expr) (int : IntExprs es)
    (len : ops.length = es.length) (origin top : Int) :
    ∃ code, Compiler.chainCode host origin top ops es = some code := by
  cases es with
  | nil =>
    obtain rfl := List.length_eq_zero_iff.mp len
    exact ⟨_, rfl⟩
  | cons e es =>
    cases ops with
    | nil => cases len
    | cons t ops =>
      obtain ⟨code, hcode⟩ := exprCode_int e int.1 top
      obtain ⟨rest, hrest⟩ := chainCode_int ops es int.2 (Nat.succ.inj len) origin top
      rw [Compiler.chainCode, hcode, hrest]
      exact ⟨_, rfl⟩

end

mutual

theorem compile_structured (node : Node) (structured : Structured node) (c : Compiler)
    (table : c.type_table_ = TypeTable.initBasicInfos) :
    ∃ c', Compiler.compile_statement host node c = some c' ∧
      c'.type_table_ = TypeTable.initBasicInfos := by
  cases node with
  | Declaration decl =>
    obtain ⟨t, typed, int⟩ := structured
    simp only [Compiler.compile_statement, Compiler.compile_declaration, typed, int, table,
      Arith.findByName_int]
    exact ⟨_, rfl, table⟩
  | Assignment asgm =>
    simp only [Compiler.compile_statement, Compiler.compile_assignment]
    split
    · exact ⟨_, rfl, table⟩
    · obtain ⟨code, hcode⟩ :=
        exprCode_int host _ structured (c.subscript asgm.var_name).top
      rw [Compiler.compile_expr_eq, hcode]
      exact ⟨_, rfl, table⟩
  | Expr e =>
    obtain ⟨start, end_, start', end', start'', end'', callee, v, rfl, name, int⟩ := structured
    rw [Compiler.compile_statement, Compiler.compile_expr_eq]
    exact ⟨_, rfl, table⟩
  | If start end_ branches tail =>
    obtain ⟨c₁, h₁, table₁⟩ := compile_structuredBranches branches structured.1
      (c.alloc_new_label.2.emit [⟨.JumpEqI32, 0, 0, c.alloc_new_label.1⟩]) table
    obtain ⟨c₂, h₂, table₂⟩ := compile_structuredTail tail structured.2 c₁ table₁
    simp only [Compiler.compile_statement, h₁, h₂, Option.bind_eq_bind, Option.bind_some]
    exact ⟨_, rfl, table₂⟩
  | For start end_ init cond step block => exact compile_structuredBlock block structured c table
  | Function start end_ name args rets block => exact structured.elim
  | Return ret => exact structured.elim
  | Typedef tdef => exact structured.elim

theorem compile_structuredBranches (branches : List (Expr × Block))
    (structured : StructuredBranches branches) (c : Compiler)
    (table : c.type_table_ = TypeTable.initBasicInfos) :
    ∃ c', Compiler.compile_branches host branches c = some c' ∧
      c'.type_table_ = TypeTable.initBasicInfos := by
  cases branches with
  | nil => exact ⟨c, rfl, table⟩
  | cons branch branches =>
    obtain ⟨c₁, h₁, table₁⟩ := compile_structuredBlock branch.2 structured.1 c table
    obtain ⟨c₂, h₂, table₂⟩ := compile_structuredBranches branches structured.2 c₁ table₁
    exact ⟨c₂, by rw [Compiler.compile_branches, h₁]; exact h₂, table₂⟩

theorem compile_structuredTail (tail : Option Block) (structured : StructuredTail tail)
    (c : Compiler) (table : c.type_table_ = TypeTable.initBasicInfos) :
    ∃ c', Compiler.compile_tail host tail c = some c' ∧
      c'.type_table_ = TypeTable.initBasicInfos := by
  cases tail with
  | none => exact ⟨c, rfl, table⟩
  | some block => exact compile_structuredBlock block structured c table

theorem compile_structuredBlock (block : Block) (structured : StructuredBlock block) (c : Compiler)
    (table : c.type_table_ = TypeTable.initBasicInfos) :
    ∃ c', Compiler.compile_block host block c = some c' ∧
      c'.type_table_ = TypeTable.initBasicInfos := by
  cases block with
  | mk start end_ nodes => exact compile_structuredNodes nodes structured c table

theorem compile_structuredNodes (nodes : List Node) (structured : StructuredNodes nodes)
    (c : Compiler) (table : c.type_table_ = TypeTable.initBasicInfos) :
    ∃ c', Compiler.compile_nodes host nodes c = some c' ∧
      c'.type_table_ = TypeTable.initBasicInfos := by
  cases nodes with
  | nil => exact ⟨c, rfl, table⟩
  | cons node nodes =>
    obtain ⟨c₁, h₁, table₁⟩ := compile_structured node structured.1 c table
    obtain ⟨c₂, h₂, table₂⟩ := compile_structuredNodes nodes structured.2 c₁ table₁
    exact ⟨c₂, by rw [Compiler.compile_nodes, h₁]; exact h₂, table₂⟩

end

end Compile

/-- The compiled program runs to its end and prints exactly `prints`. -/
def Prints (host : Host) (F : FloatOps) (ast : Root) (prints : List Output) : Prop :=
  ∃ c vm, Compiler.compile host ast .init = some c ∧
    (∀ ticks, c.program_.length ≤ ticks → ByteCodeVM.Run F c.program_ ticks .Init = .ok vm) ∧
    vm.out = prints

theorem compile_structuredFunction (host : Host) {ast : Root} {start end_ start' end' : Loc}
    {func_name : Bytes} {args : List (Bytes × Bytes)} {returns : List Bytes} {nodes : List Node}
    (one : ast.nodes = [.Function start end_ func_name args returns (.mk start' end' nodes)])
    (structured : StructuredNodes nodes) :
    ∃ c, Compiler.compile host ast .init = some c ∧ c.type_table_ = TypeTable.initBasicInfos := by
  obtain ⟨c, hc, table⟩ := compile_structuredNodes host nodes structured
    (Compiler.init.setCurrentFunc (.new func_name)) rfl
  have generating : (Compiler.init.setCurrentFunc (.new func_name)).Generating :=
    ⟨nofun, (by decide : IsInt 0)⟩
  have kept := (Compiler.simulates_nodes host .unused nodes generating hc).kept
  obtain ⟨c', hc', -, -, table'⟩ := Compiler.compile_single host one hc kept.program kept.funcs
  exact ⟨c', hc', table'.trans table⟩

theorem out_rootRun {host : Host} {table : TypeTable} {ast : Root} {start end_ start' end' : Loc}
    {func_name : Bytes} {args : List (Bytes × Bytes)} {returns : List Bytes} {nodes : List Node}
    (one : ast.nodes = [.Function start end_ func_name args returns (.mk start' end' nodes)])
    (structured : StructuredNodes nodes) {s : Store} (h : ast.run host table = .ok s) :
    s.out = textualNodes nodes := by
  have funcs : ast.funcs = [(func_name, .mk start' end' nodes)] := by simp [Root.funcs, one]
  rw [Root.run, funcs] at h
  obtain ⟨⟨l, s₁⟩, h₁, h⟩ := ok_bind h
  cases h
  exact out_runNodes nodes structured h₁

/-- A terminating structured body keeps its prints exactly where it has no `if`, uses no slot
outside the stack, makes no undefined division, and prints what its text lists.  The run `_exec`
says what `prints` is. -/
theorem prints_iff {host : Host} {F : FloatOps} {ast : Root} {start end_ start' end' : Loc}
    {func_name : Bytes} {args : List (Bytes × Bytes)} {returns : List Bytes} {nodes : List Node}
    (one : ast.nodes = [.Function start end_ func_name args returns (.mk start' end' nodes)])
    (structured : StructuredNodes nodes) {env : Env} {prints : List Output}
    (_exec : ExecNodes [] nodes env prints) :
    Prints host F ast prints ↔
      ast.NoIf ∧ ast.run host TypeTable.initBasicInfos ≠ .error .stack ∧
        ast.run host TypeTable.initBasicInfos ≠ .error .divide ∧ prints = textualNodes nodes := by
  obtain ⟨c, hcompile, table⟩ := compile_structuredFunction host one structured
  have run : ∀ ticks, c.program_.length ≤ ticks → ByteCodeVM.Run F c.program_ ticks .Init =
      (ast.run host TypeTable.initBasicInfos).map (ByteCodeVM.Init.advance c.program_.length) :=
    fun ticks hticks => table ▸ Compiler.run_compiled host F hcompile hticks
  have ok := Root.run_ok_iff host TypeTable.initBasicInfos ast
  constructor
  · rintro ⟨c', vm, hcompile', hrun, rfl⟩
    obtain rfl : c = c' := Option.some.inj (hcompile.symm.trans hcompile')
    have last := (run _ (Nat.le_refl _)).symm.trans (hrun _ (Nat.le_refl _))
    cases hs : ast.run host TypeTable.initBasicInfos with
    | error e =>
      rw [hs] at last
      cases last
    | ok s =>
      rw [hs] at last
      cases last
      exact ⟨(ok.mp ⟨s, hs⟩).1, nofun, nofun, out_rootRun one structured hs⟩
  · rintro ⟨noIf, stack, divide, rfl⟩
    obtain ⟨s, hs⟩ := ok.mpr ⟨noIf, stack, divide⟩
    rw [hs] at run
    exact ⟨c, _, hcompile, run, out_rootRun one structured hs⟩

theorem structured_printCallTwo : StructuredNodes [.Expr printCallTwo] :=
  ⟨⟨_, _, _, _, _, _, _, _, rfl, rfl, rfl⟩, trivial⟩

theorem exec_printCallTwo {env : Env} : ExecNodes env [.Expr printCallTwo] env [.I32 2] :=
  .cons (.print rfl rfl) (.nil env)

def zeroLocal (x : String) : Declaration := Arith.intLocal (bytes x) (Arith.intToken 0)

def symbol (x : String) : Expr := .TOKEN .init .init (.CreateSymbol 1 (bytes x))

namespace forOnce

def below : Expr := .OPS .init .init [.Less] [symbol "i", Arith.intToken 1]

def step : Assignment := ⟨.init, .init, bytes "i", .OPS .init .init [.Plus] [symbol "i", Arith.intToken 1]⟩

def divide : Assignment :=
  ⟨.init, .init, bytes "x", .OPS .init .init [.Slash] [Arith.intToken 6, Arith.intToken 3]⟩

def block : Block := .mk .init .init [.Assignment divide, .Expr printCallTwo]

end forOnce

open forOnce

def forOnce : Node := .For .init .init (some (zeroLocal "i")) (some below) (some step) block

theorem exec_forOnce : ExecNodes [] [.Declaration (zeroLocal "x"), forOnce] [(bytes "x", 2)] [.I32 2] := by
  have divided : Exec [(bytes "i", 0), (bytes "x", 0)] (.Assignment divide)
    [(bytes "i", 0), (bytes "x", 2)] [] := .assignment rfl rfl
  have body : ExecBlock [(bytes "i", 0), (bytes "x", 0)] block [(bytes "i", 0), (bytes "x", 2)] [.I32 2] :=
    .mk (.cons divided exec_printCallTwo)
  have stepped : Step [(bytes "i", 0), (bytes "x", 2)] (some step) [(bytes "i", 1), (bytes "x", 2)] :=
    .some rfl rfl
  have less : ∀ e, some below = some e → holds [(bytes "i", 0), (bytes "x", 0)] e = some true := by
    rintro _ ⟨⟩
    rfl
  have loop : ExecLoop [(bytes "i", 0), (bytes "x", 0)] (some below) (some step) block
    [(bytes "i", 1), (bytes "x", 2)] [.I32 2] := .again less body stepped (.done rfl)
  have first : Init [(bytes "x", 0)] (some (zeroLocal "i")) [(bytes "i", 0), (bytes "x", 0)] := .some rfl
  exact .cons (.declaration rfl) (.cons (.forr first loop) (.nil _))

theorem prints_forOnce :
    Prints .plain .unused (Arith.mainOf [.Declaration (zeroLocal "x"), forOnce]) [.I32 2] := by
  have structured : StructuredNodes [.Declaration (zeroLocal "x"), forOnce] :=
    ⟨⟨_, rfl, rfl⟩, ⟨⟨⟨.inl rfl, .inl rfl, trivial⟩, .inr ⟨rfl, by simp [Compiler.IsArith]⟩⟩,
      structured_printCallTwo⟩, trivial⟩
  refine (prints_iff rfl structured exec_forOnce).mpr ⟨?_, nofun, nofun, rfl⟩
  exact List.forall_mem_singleton.mpr ⟨trivial, ⟨trivial, trivial, trivial⟩, trivial⟩

def ifTrue : Node :=
  .If .init .init [(.TOKEN .init .init (.make .True 4), .mk .init .init [.Expr printCallTwo])] none

/-- The block of a condition that holds is not run. -/
theorem ifTrue_not_printed : StructuredNodes [ifTrue] ∧ ExecNodes [] [ifTrue] [] [.I32 2] ∧
    ¬ Prints .plain .unused ⟨.init, .init, .mk .init .init [.func "main" [ifTrue]]⟩ [.I32 2] := by
  refine ⟨⟨⟨⟨structured_printCallTwo, trivial⟩, trivial⟩, trivial⟩,
    .cons (.iff (.first rfl (.mk exec_printCallTwo))) (.nil []), ?_⟩
  rintro ⟨c, vm, compiled, run, -⟩
  have fault : ((Compiler.compile .plain ⟨.init, .init, .mk .init .init [.func "main" [ifTrue]]⟩ .init).any
      fun c => (ByteCodeVM.Run .unused c.program_ c.program_.length .Init).isOk) = false := by decide
  rw [compiled, Option.any_some, run _ (Nat.le_refl _)] at fault
  cases fault

end Control

end Mygo
