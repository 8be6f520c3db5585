import Mathlib.Logic.Relation
import Mygo.Compiler.Simulation

namespace Mygo

namespace Layout

/-- The slots `[address, address + size)` of different names are disjoint and end below the top. -/
structure Sound (l : Layout) : Prop where
  top : 0 ≤ l.top
  slot : ∀ x var, l.vars x = some var → 0 ≤ var.address ∧ 0 ≤ var.size ∧ var.address + var.size ≤ l.top
  disjoint : ∀ x y var var', x ≠ y → l.vars x = some var → l.vars y = some var' →
    var.address + var.size ≤ var'.address ∨ var'.address + var'.size ≤ var.address

variable {l : Layout}

theorem sound_empty : Sound .empty := ⟨Int.le_refl 0, nofun, nofun⟩

theorem Sound.raise (h : l.Sound) {top : Int} (higher : l.top ≤ top) : Sound ⟨top, l.vars⟩ where
  top := h.top.trans higher
  slot x var found := ⟨(h.slot x var found).1, (h.slot x var found).2.1, (h.slot x var found).2.2.trans higher⟩
  disjoint := h.disjoint

theorem emplace_cases {m : Scope} {name x : Bytes} {new var : VarInfo}
    (h : m.emplace name new x = some var) : m x = some var ∨ x = name ∧ var = new := by
  cases old : m name with
  | some var' =>
    simp only [Scope.emplace, old] at h
    exact .inl h
  | none =>
    simp only [Scope.emplace, old] at h
    by_cases same : x = name
    · subst same
      rw [Function.update_self] at h
      exact .inr ⟨rfl, (Option.some.inj h).symm⟩
    · rw [Function.update_of_ne same] at h
      exact .inl h

theorem Sound.emplace (h : l.Sound) (name : Bytes) {new : VarInfo}
    (slot : 0 ≤ new.address ∧ 0 ≤ new.size ∧ new.address + new.size ≤ l.top)
    (clear : ∀ x var, l.vars x = some var →
      new.address + new.size ≤ var.address ∨ var.address + var.size ≤ new.address) :
    Sound ⟨l.top, l.vars.emplace name new⟩ := by
  refine ⟨h.top, fun x var found => ?_, fun x y var var' other found found' => ?_⟩
  · rcases emplace_cases found with found | ⟨-, rfl⟩
    · exact h.slot x var found
    · exact slot
  · rcases emplace_cases found with old | ⟨rfl, rfl⟩
    · rcases emplace_cases found' with old' | ⟨rfl, rfl⟩
      · exact h.disjoint x y var var' other old old'
      · exact (clear x var old).symm
    · rcases emplace_cases found' with old' | ⟨rfl, -⟩
      · exact clear y var' old'
      · exact absurd rfl other

theorem Sound.subscript (h : l.Sound) (name : Bytes) : (l.subscript name).Sound := by
  refine h.emplace name ⟨Int.le_refl 0, Int.le_refl 0, h.top⟩ fun x var found => .inl ?_
  exact (h.slot x var found).1

end Layout

def Declaration.sizes (host : Host) (table : TypeTable) (decl : Declaration) : List Int :=
  ((decl.var_type.bind fun t => table.findByName host t.name_).map (·.size)).toList

mutual

def Node.sizes (host : Host) (table : TypeTable) : Node → List Int
  | .Declaration decl => decl.sizes host table
  | .If _ _ branches tail => branchSizes host table branches ++ tailSizes host table tail
  | .For _ _ _ _ _ block => block.sizes host table
  | .Assignment _ | .Expr _ | .Function _ _ _ _ _ _ | .Return _ | .Typedef _ => []

def branchSizes (host : Host) (table : TypeTable) : List (Expr × Block) → List Int
  | [] => []
  | (_, block) :: branches => block.sizes host table ++ branchSizes host table branches

def tailSizes (host : Host) (table : TypeTable) : Option Block → List Int
  | none => []
  | some block => block.sizes host table

def Block.sizes (host : Host) (table : TypeTable) : Block → List Int
  | .mk _ _ nodes => nodeSizes host table nodes

def nodeSizes (host : Host) (table : TypeTable) : List Node → List Int
  | [] => []
  | node :: nodes => node.sizes host table ++ nodeSizes host table nodes

end

def Node.simple : Node → Bool
  | .Declaration _ | .Assignment _ | .Expr _ => true
  | .If _ _ _ _ | .For _ _ _ _ _ _ | .Function _ _ _ _ _ _ | .Return _ | .Typedef _ => false

def Node.target : Node → Option Bytes
  | .Assignment asgm => some asgm.var_name
  | _ => none

namespace Expr

mutual

def levels : Expr → Nat
  | .TOKEN _ _ _ => 0
  | .OPS _ _ ops exprs => levelsOps ops exprs
  | .FUNCALL _ _ exprs => levelsCall exprs

def levelsOps (ops : List TokenType) : List Expr → Nat
  | [] => 0
  | e :: es => if ops = [.Sub] ∧ es = [] then levels e else max (levels e) (1 + levelsAll es)

def levelsCall : List Expr → Nat
  | [] => 0
  | _ :: args => levelsAll args

def levelsAll : List Expr → Nat
  | [] => 0
  | e :: es => max (levels e) (levelsAll es)

end

end Expr

/-- The expression of a declaration is not compiled. -/
def Node.levels : Node → Nat
  | .Assignment asgm => asgm.expr.levels
  | .Expr e => e.levels
  | _ => 0

namespace Compiler

/-- The calls that the code generator makes of its own functions. -/
inductive Call
  | statement (stmt : Node)
  | nodes (stmts : List Node)
  | branches (branches_ : List (Expr × Block))
  | tail (tail_else_ : Option Block)
  | expr (e : Expr)
  | chain (origin_stack_top : Int) (ops : List TokenType) (exprs : List Expr)
  | args (exprs : List Expr)

variable (host : Host)

def Call.run : Call → Compiler → Option Compiler
  | .statement stmt => compile_statement host stmt
  | .nodes stmts => compile_nodes host stmts
  | .branches branches_ => compile_branches host branches_
  | .tail tail_else_ => compile_tail host tail_else_
  | .expr e => compile_expr host e
  | .chain origin_stack_top ops exprs => compile_chain host origin_stack_top ops exprs
  | .args exprs => compile_args host exprs

def openIf (c : Compiler) : Compiler :=
  c.alloc_new_label.2.emit [⟨.JumpEqI32, 0, 0, c.alloc_new_label.1⟩]

/-- The calls inside of a call, each with the state at its start. -/
inductive Calls (host : Host) : Call × Compiler → Call × Compiler → Prop
  | stmt : Calls host (.nodes (stmt :: stmts), c) (.statement stmt, c)
  | stmts : compile_statement host stmt c = some c' →
    Calls host (.nodes (stmt :: stmts), c) (.nodes stmts, c')
  | If : Calls host (.statement (.If s e branches_ tail), c) (.branches branches_, openIf c)
  | tail_else_ : compile_branches host branches_ (openIf c) = some c' →
    Calls host (.statement (.If s e branches_ tail), c) (.tail tail, c')
  | For : Calls host (.statement (.For s e decl until_ step (.mk s' e' stmts)), c) (.nodes stmts, c)
  | branch : Calls host (.branches ((condition, .mk s e stmts) :: branches_), c) (.nodes stmts, c)
  | branches : compile_block host block c = some c' →
    Calls host (.branches ((condition, block) :: branches_), c) (.branches branches_, c')
  | tail : Calls host (.tail (some (.mk s e stmts)), c) (.nodes stmts, c)
  | Assignment {asgm : Assignment} :
    Calls host (.statement (.Assignment asgm), c) (.expr asgm.expr, subscript asgm.var_name c)
  | Expr : Calls host (.statement (.Expr x), c) (.expr x, c)
  | first : Calls host (.expr (.OPS s e ops (x :: xs)), c) (.expr x, c)
  | rest : ¬ (ops = [.Sub] ∧ xs = []) → compile_expr host x c = some c' →
    Calls host (.expr (.OPS s e ops (x :: xs)), c)
      (.chain (top c) ops xs, c'.setStackTop (i32 (c'.top + getExprSize x)))
  | operand : Calls host (.chain origin (t :: ops) (x :: xs), c) (.expr x, c)
  | chain : compile_expr host x c = some c' →
    Calls host (.chain origin (t :: ops) (x :: xs), c) (.chain origin ops xs, c'.emit (opInst origin c'.top t))
  | funcall : Calls host (.expr (.FUNCALL s e (f :: xs)), c) (.args xs, c)
  | arg : Calls host (.args (x :: xs), c) (.expr x, c)
  | args : compile_expr host x c = some c' → Calls host (.args (x :: xs), c) (.args xs, c')

abbrev Reaches : Call × Compiler → Call × Compiler → Prop := Relation.ReflTransGen (Calls host)

def Call.inner : Call → Bool
  | .expr _ | .chain _ _ _ | .args _ => true
  | .statement _ | .nodes _ | .branches _ | .tail _ => false

def Call.sizes (table : TypeTable) : Call → List Int
  | .statement stmt => stmt.sizes host table
  | .nodes stmts => nodeSizes host table stmts
  | .branches branches_ => branchSizes host table branches_
  | .tail tail_else_ => tailSizes host table tail_else_
  | .expr _ | .chain _ _ _ | .args _ => []

structure Room (sizes : List Int) (c : Compiler) : Prop where
  sound : c.layout.Sound
  nonneg : ∀ size ∈ sizes, 0 ≤ size
  sum : c.top + sizes.sum < 2 ^ 31

structure Taken (sizes : List Int) (c c' : Compiler) : Prop where
  sound : c'.layout.Sound
  table : c'.type_table_ = c.type_table_
  top : c'.top = c.top + sizes.sum

variable {c c' c₁ : Compiler} {sizes more : List Int}

theorem Room.left (h : Room (sizes ++ more) c) : Room sizes c := by
  obtain ⟨sound, nonneg, sum⟩ := h
  have rest : 0 ≤ more.sum := List.sum_nonneg fun size inside => nonneg size (List.mem_append_right _ inside)
  rw [List.sum_append] at sum
  exact ⟨sound, fun size inside => nonneg size (List.mem_append_left _ inside), by linarith⟩

theorem Room.right (h : Room (sizes ++ more) c) (taken : Taken sizes c c') : Room more c' := by
  obtain ⟨sound, nonneg, sum⟩ := h
  rw [List.sum_append, ← add_assoc, ← taken.top] at sum
  exact ⟨taken.sound, fun size inside => nonneg size (List.mem_append_right _ inside), sum⟩

theorem Taken.trans (h : Taken sizes c c₁) (h' : Taken more c₁ c') : Taken (sizes ++ more) c c' :=
  ⟨h'.sound, h'.table.trans h.table, by rw [h'.top, h.top, List.sum_append, add_assoc]⟩

theorem Room.none (h : Room sizes c) (same : c'.layout = c.layout) (table : c'.type_table_ = c.type_table_) :
    Taken [] c c' := by
  have top : c'.top = c.top := congrArg Layout.top same
  exact ⟨same ▸ h.sound, table, by rw [top, List.sum_nil, add_zero]⟩

theorem Room.declaration {decl : Declaration} (h : Room (decl.sizes host c.type_table_) c)
    (compiled : compile_declaration host decl c = some c') : Taken (decl.sizes host c.type_table_) c c' := by
  obtain ⟨layout, -, kept⟩ := declaration_effect host compiled
  cases found : decl.var_type.bind fun t => c.type_table_.findByName host t.name_ with
  | none =>
    have sizes : decl.sizes host c.type_table_ = [] := by rw [Declaration.sizes, found]; rfl
    rw [Layout.declare, found] at layout
    rw [sizes]
    exact h.none layout kept.table
  | some s =>
    have sizes : decl.sizes host c.type_table_ = [s.size] := by rw [Declaration.sizes, found]; rfl
    rw [sizes] at h ⊢
    obtain ⟨sound, nonneg, sum⟩ := h
    have size : 0 ≤ s.size := nonneg _ List.mem_cons_self
    have top : 0 ≤ c.top := sound.top
    rw [List.sum_singleton] at sum
    have exact_top : i32 (c.layout.top + s.size) = c.top + s.size :=
      i32_of_isInt ⟨by change _ ≤ c.top + s.size; linarith, sum⟩
    rw [Layout.declare, found] at layout
    simp only [exact_top] at layout
    refine ⟨?_, kept.table, by rw [List.sum_singleton]; exact congrArg Layout.top layout⟩
    rw [layout]
    have higher : c.layout.top ≤ c.top + s.size := by change c.top ≤ _; linarith
    refine (sound.raise higher).emplace decl.var_name ⟨sound.top, size, Int.le_refl _⟩ fun x var old => .inr ?_
    exact (sound.slot x var old).2.2

theorem Room.assignment {asgm : Assignment} (h : Room sizes c)
    (compiled : compile_assignment host asgm c = some c') : Taken [] c c' := by
  obtain ⟨var, code, -, -, rfl⟩ := assignment_effect host compiled
  exact ⟨h.sound.subscript asgm.var_name, rfl, by rw [List.sum_nil, add_zero]; rfl⟩

theorem Room.expr {e : Expr} (h : Room sizes c) (compiled : compile_expr host e c = some c') :
    Taken [] c c' := by
  rw [compile_expr_eq] at compiled
  obtain ⟨code, -, rfl⟩ := Option.map_eq_some_iff.mp compiled
  exact h.none rfl rfl

mutual

theorem Room.statement (stmt : Node) {c c' : Compiler} (h : Room (stmt.sizes host c.type_table_) c)
    (compiled : compile_statement host stmt c = some c') : Taken (stmt.sizes host c.type_table_) c c' := by
  cases stmt with
  | Declaration decl =>
    rw [Node.sizes] at h ⊢
    exact h.declaration host compiled
  | Assignment asgm =>
    rw [Node.sizes]
    exact h.assignment host compiled
  | Expr e =>
    rw [Node.sizes]
    exact h.expr host compiled
  | If s e branches_ tail_else_ =>
    obtain ⟨c₁, first, rest⟩ := Option.bind_eq_some_iff.mp compiled
    obtain ⟨c₂, second, last⟩ := Option.bind_eq_some_iff.mp rest
    cases last
    rw [Node.sizes] at h ⊢
    have opened : Room _ c.openIf := ⟨h.sound, h.nonneg, h.sum⟩
    have taken := Room.branches branches_ opened.left first
    have taken' := Room.tail tail_else_ (taken.table ▸ opened.right taken) second
    have all := taken.trans (taken.table ▸ taken')
    exact ⟨all.sound, all.table, all.top⟩
  | For s e decl until_ step block =>
    rw [Node.sizes] at h ⊢
    exact Room.block block h compiled
  | Function s e name args rets block =>
    cases compiled
    rw [Node.sizes]
    exact h.none rfl rfl
  | Return ret =>
    cases compiled
    rw [Node.sizes]
    exact h.none rfl rfl
  | Typedef tdef =>
    cases compiled
    rw [Node.sizes]
    exact h.none rfl rfl

theorem Room.branches (branches_ : List (Expr × Block)) {c c' : Compiler}
    (h : Room (branchSizes host c.type_table_ branches_) c)
    (compiled : compile_branches host branches_ c = some c') :
    Taken (branchSizes host c.type_table_ branches_) c c' := by
  cases branches_ with
  | nil =>
    cases compiled
    rw [branchSizes]
    exact h.none rfl rfl
  | cons branch branches_ =>
    obtain ⟨c₁, first, rest⟩ := Option.bind_eq_some_iff.mp compiled
    rw [branchSizes] at h ⊢
    have taken := Room.block branch.2 h.left first
    have taken' := Room.branches branches_ (taken.table ▸ h.right taken) rest
    exact taken.trans (taken.table ▸ taken')

theorem Room.tail (tail_else_ : Option Block) {c c' : Compiler}
    (h : Room (tailSizes host c.type_table_ tail_else_) c)
    (compiled : compile_tail host tail_else_ c = some c') :
    Taken (tailSizes host c.type_table_ tail_else_) c c' := by
  cases tail_else_ with
  | none =>
    cases compiled
    rw [tailSizes]
    exact h.none rfl rfl
  | some block =>
    rw [tailSizes] at h ⊢
    exact Room.block block h compiled

theorem Room.block (block : Block) {c c' : Compiler} (h : Room (block.sizes host c.type_table_) c)
    (compiled : compile_block host block c = some c') : Taken (block.sizes host c.type_table_) c c' := by
  cases block with
  | mk s e stmts =>
    rw [Block.sizes] at h ⊢
    exact Room.nodes stmts h compiled

theorem Room.nodes (stmts : List Node) {c c' : Compiler} (h : Room (nodeSizes host c.type_table_ stmts) c)
    (compiled : compile_nodes host stmts c = some c') : Taken (nodeSizes host c.type_table_ stmts) c c' := by
  cases stmts with
  | nil =>
    cases compiled
    rw [nodeSizes]
    exact h.none rfl rfl
  | cons stmt stmts =>
    obtain ⟨c₁, first, rest⟩ := Option.bind_eq_some_iff.mp compiled
    rw [nodeSizes] at h ⊢
    have taken := Room.statement stmt h.left first
    have taken' := Room.nodes stmts (taken.table ▸ h.right taken) rest
    exact taken.trans (taken.table ▸ taken')

end

theorem Calls.inner {x y : Call × Compiler} (h : Calls host x y) (inside : y.1.inner = false) :
    x.1.inner = false := by
  cases h with
  | Assignment | Expr | first | rest | operand | chain | funcall | arg | args => cases inside
  | _ => rfl

theorem Room.calls {table : TypeTable} {call call' : Call} {p p' : Compiler}
    (h : Calls host (call, p) (call', p')) (inside : call'.inner = false) (same : p.type_table_ = table)
    (room : Room (call.sizes host table) p) : p'.type_table_ = table ∧ Room (call'.sizes host table) p' := by
  subst same
  cases h with
  | Assignment | Expr | first | rest | operand | chain | funcall | arg | args => cases inside
  | stmt =>
    simp only [Call.sizes, nodeSizes] at room
    exact ⟨rfl, room.left⟩
  | @stmts stmt _ _ stmts compiled =>
    simp only [Call.sizes, nodeSizes] at room
    have taken := Room.statement host stmt room.left compiled
    exact ⟨taken.table, room.right taken⟩
  | If =>
    simp only [Call.sizes, Node.sizes] at room
    have opened : Room _ p.openIf := ⟨room.sound, room.nonneg, room.sum⟩
    exact ⟨rfl, opened.left⟩
  | @tail_else_ branches_ _ _ _ _ _ compiled =>
    simp only [Call.sizes, Node.sizes] at room
    have opened : Room _ p.openIf := ⟨room.sound, room.nonneg, room.sum⟩
    have taken := Room.branches host branches_ opened.left compiled
    exact ⟨taken.table, opened.right taken⟩
  | For => exact ⟨rfl, room⟩
  | branch =>
    simp only [Call.sizes, branchSizes] at room
    exact ⟨rfl, room.left⟩
  | @branches block _ _ _ _ compiled =>
    simp only [Call.sizes, branchSizes] at room
    have taken := Room.block host block room.left compiled
    exact ⟨taken.table, room.right taken⟩
  | tail => exact ⟨rfl, room⟩

theorem Room.reaches {table : TypeTable} {call call' : Call} {p p' : Compiler}
    (h : Reaches host (call, p) (call', p')) (inside : call'.inner = false) (same : p.type_table_ = table)
    (room : Room (call.sizes host table) p) : p'.type_table_ = table ∧ Room (call'.sizes host table) p' := by
  have kept : ∀ y, Reaches host (call, p) y → y.1.inner = false →
      y.2.type_table_ = table ∧ Room (y.1.sizes host table) y.2 := by
    intro y reached
    induction reached with
    | refl => exact fun _ => ⟨same, room⟩
    | tail _ last ih =>
      intro inside
      obtain ⟨same, room⟩ := ih (last.inner host inside)
      exact room.calls host last inside same
  exact kept _ h inside

theorem Room.run {call : Call} {p p' : Compiler} (room : Room (call.sizes host p.type_table_) p)
    (inside : call.inner = false) (compiled : call.run host p = some p') : p'.layout.Sound := by
  cases call with
  | statement stmt => exact (room.statement host stmt compiled).sound
  | nodes stmts => exact (room.nodes host stmts compiled).sound
  | branches branches_ => exact (room.branches host branches_ compiled).sound
  | tail tail_else_ => exact (room.tail host tail_else_ compiled).sound
  | expr | chain | args => cases inside

end Compiler

end Mygo
