import Mygo.Compiler.Control
import Mygo.Compiler.Linking
import Mygo.Lib.Brackets
import Mygo.Parser.RoundTrip

namespace Mygo

def labelOf (n : Nat) : Address := base LABEL (BitVec.ofInt 64 (i32 n))

def jumpTo (label : Address) : Instruction := ⟨.JumpEqI32, 0, 0, label⟩

def labelAt (label : Address) : Instruction := ⟨.Label, label, 0, 0⟩

/-- Neither a jump, of any comparison and type, nor a label. -/
def Instruction.Unlabelled (i : Instruction) : Prop := (∀ op ty, i.op ≠ .jump op ty) ∧ i.op ≠ .Label

abbrev Labels : Nat → List Instruction → Nat → Prop :=
  Brackets Instruction.Unlabelled (fun n => jumpTo (labelOf n)) fun n => labelAt (labelOf n)

theorem labelOf_word (n : Nat) : (labelOf n).setWidth 32 = BitVec.ofNat 32 n := by
  have offset : labelOf n &&& OffsetPart = BitVec.ofInt 64 (i32 n) &&& OffsetPart := base_offset (by decide) _
  have low : ∀ x : Address, (x &&& OffsetPart).setWidth 32 = x.setWidth 32 := by
    intro x
    rw [BitVec.setWidth_and, show OffsetPart.setWidth 32 = BitVec.allOnes 32 by decide, BitVec.and_allOnes]
  rw [← low, offset, low]
  apply BitVec.eq_of_toNat_eq
  rw [BitVec.toNat_setWidth, BitVec.toNat_ofInt, BitVec.toNat_ofNat, i32, Int.bmod_def]
  split <;> omega

theorem labels_marked : Brackets.Marked Instruction.Unlabelled (fun n => jumpTo (labelOf n))
    (fun n => labelAt (labelOf n)) (2 ^ 32) := by
  have labels : ∀ x y, x < 2 ^ 32 → y < 2 ^ 32 → labelOf x = labelOf y → x = y := by
    intro x y smallX smallY same
    have words := congrArg (fun l : Address => (l.setWidth 32).toNat) same
    simp only [labelOf_word, BitVec.toNat_ofNat, Nat.mod_eq_of_lt smallX, Nat.mod_eq_of_lt smallY] at words
    exact words
  refine ⟨?_, ?_, nofun, fun x plain => plain.1 _ _ rfl, fun x plain => plain.2 rfl⟩
  · exact fun x y smallX smallY same => labels x y smallX smallY (congrArg Instruction.arg2 same)
  · exact fun x y smallX smallY same => labels x y smallX smallY (congrArg Instruction.arg0 same)

mutual

def Node.ifs : Node → Nat
  | .If _ _ branches tail => 1 + (Node.ifsBranches branches + Node.ifsTail tail)
  | .For _ _ _ _ _ block => Node.ifsBlock block
  | .Declaration _ | .Assignment _ | .Expr _ | .Function _ _ _ _ _ _ | .Return _ | .Typedef _ => 0

def Node.ifsBranches : List If.Branch → Nat
  | [] => 0
  | (_, block) :: branches => Node.ifsBlock block + Node.ifsBranches branches

def Node.ifsTail : Option Block → Nat
  | none => 0
  | some block => Node.ifsBlock block

def Node.ifsBlock : Block → Nat
  | .mk _ _ nodes => Node.ifsNodes nodes

def Node.ifsNodes : List Node → Nat
  | [] => 0
  | node :: nodes => node.ifs + Node.ifsNodes nodes

end

def Root.ifs (ast : Root) : Nat := (ast.funcs.map fun func => Node.ifsBlock func.2).sum

namespace Compiler

variable (host : Host)

theorem unlabelled_opInst (k l : Int) (t : TokenType) : ∀ i ∈ opInst k l t, i.Unlabelled := by
  intro i inside
  cases t <;> simp only [opInst, List.mem_singleton, List.not_mem_nil] at inside <;> subst inside
  all_goals constructor <;> simp

theorem unlabelled_callCode (func_name : Bytes) (k : Int) : ∀ i ∈ callCode func_name k, i.Unlabelled := by
  intro i inside
  unfold callCode at inside
  split at inside
  · obtain rfl := List.mem_singleton.mp inside
    exact ⟨nofun, nofun⟩
  · cases inside

theorem unlabelled_moveCode (dst src length : Int) : ∀ i ∈ moveCode dst src length, i.Unlabelled := by
  intro i inside
  obtain ⟨j, -, rfl⟩ := List.mem_map.mp inside
  exact ⟨nofun, nofun⟩

mutual

theorem unlabelled_exprCode (e : Expr) {k : Int} {code : List Instruction} (h : exprCode host e k = some code) :
    ∀ i ∈ code, i.Unlabelled := by
  cases e with
  | TOKEN s e v =>
    cases h
    intro i inside
    unfold literatureCode at inside
    split at inside
    · obtain rfl := List.mem_singleton.mp inside
      exact ⟨nofun, nofun⟩
    · obtain rfl := List.mem_singleton.mp inside
      exact ⟨nofun, nofun⟩
    · cases inside
  | OPS s e ops exprs => exact unlabelled_opsCode ops exprs h
  | FUNCALL s e exprs => exact unlabelled_funcallCode exprs h

theorem unlabelled_opsCode (ops : List TokenType) (exprs : List Expr) {k : Int} {code : List Instruction}
    (h : opsCode host ops exprs k = some code) : ∀ i ∈ code, i.Unlabelled := by
  cases exprs with
  | nil => cases h
  | cons e es =>
    obtain ⟨first, hfirst, h⟩ := Option.bind_eq_some_iff.mp h
    have plain := unlabelled_exprCode e hfirst
    split at h
    · cases h
      exact List.forall_mem_append.mpr ⟨plain, List.forall_mem_singleton.mpr ⟨nofun, nofun⟩⟩
    · obtain ⟨rest, hrest, h⟩ := Option.bind_eq_some_iff.mp h
      cases h
      exact List.forall_mem_append.mpr ⟨plain, unlabelled_chainCode ops es hrest⟩

theorem unlabelled_chainCode (ops : List TokenType) (es : List Expr) {origin top : Int}
    {code : List Instruction} (h : chainCode host origin top ops es = some code) : ∀ i ∈ code, i.Unlabelled := by
  cases ops with
  | nil =>
    rw [chainCode] at h
    cases h
    exact nofun
  | cons t ops =>
    cases es with
    | nil => cases h
    | cons e es =>
      obtain ⟨first, hfirst, h⟩ := Option.bind_eq_some_iff.mp h
      obtain ⟨rest, hrest, h⟩ := Option.bind_eq_some_iff.mp h
      cases h
      have operand := List.forall_mem_append.mpr ⟨unlabelled_exprCode e hfirst, unlabelled_opInst origin top t⟩
      exact List.forall_mem_append.mpr ⟨operand, unlabelled_chainCode ops es hrest⟩

theorem unlabelled_funcallCode (exprs : List Expr) {k : Int} {code : List Instruction}
    (h : funcallCode host exprs k = some code) : ∀ i ∈ code, i.Unlabelled := by
  cases exprs with
  | nil =>
    cases h
    exact unlabelled_callCode _ _
  | cons f args =>
    obtain ⟨rest, hrest, h⟩ := Option.bind_eq_some_iff.mp h
    cases h
    exact List.forall_mem_append.mpr ⟨unlabelled_argsCode args hrest, unlabelled_callCode _ _⟩

theorem unlabelled_argsCode (es : List Expr) {k : Int} {code : List Instruction}
    (h : argsCode host es k = some code) : ∀ i ∈ code, i.Unlabelled := by
  cases es with
  | nil =>
    cases h
    exact nofun
  | cons e es =>
    obtain ⟨first, hfirst, h⟩ := Option.bind_eq_some_iff.mp h
    obtain ⟨rest, hrest, h⟩ := Option.bind_eq_some_iff.mp h
    cases h
    exact List.forall_mem_append.mpr ⟨unlabelled_exprCode e hfirst, unlabelled_argsCode es hrest⟩

end

/-- From `c` to `c'` the labels from `n` up to `k` were allocated and placed. -/
structure Labelled (c c' : Compiler) (n k : Nat) : Prop where
  counter : c'.cur_lable_ = i32 k
  code : ∃ code, c'.current_func_.instructions = c.current_func_.instructions ++ code ∧ Labels n code k

variable {c c₁ c' : Compiler} {n m k : Nat}

theorem Labelled.plain {code : List Instruction} (counter : c'.cur_lable_ = i32 n)
    (grown : c'.current_func_.instructions = c.current_func_.instructions ++ code)
    (plain : ∀ i ∈ code, i.Unlabelled) : Labelled c c' n n :=
  ⟨counter, code, grown, .all_plain plain n⟩

theorem Labelled.silent (counter : c'.cur_lable_ = i32 n)
    (same : c'.current_func_.instructions = c.current_func_.instructions) : Labelled c c' n n :=
  .plain counter (same.trans (List.append_nil _).symm) nofun

theorem Labelled.trans (h : Labelled c c₁ n m) (h' : Labelled c₁ c' m k) : Labelled c c' n k := by
  obtain ⟨-, code, grown, labels⟩ := h
  obtain ⟨counter, code', grown', labels'⟩ := h'
  exact ⟨counter, code ++ code', by rw [grown', grown, List.append_assoc], labels.append labels'⟩

theorem labelled_expr (e : Expr) (counter : c.cur_lable_ = i32 n) (h : compile_expr host e c = some c') :
    Labelled c c' n n := by
  rw [compile_expr_eq] at h
  obtain ⟨code, emitted, rfl⟩ := Option.map_eq_some_iff.mp h
  exact .plain counter rfl (unlabelled_exprCode host e emitted)

theorem labelled_declaration {decl : Declaration} (counter : c.cur_lable_ = i32 n)
    (h : compile_declaration host decl c = some c') : Labelled c c' n n := by
  unfold compile_declaration at h
  split at h
  · cases h
  · split at h
    · cases h
      exact .silent counter rfl
    · cases h
      exact .silent counter rfl

theorem labelled_assignment {asgm : Assignment} (counter : c.cur_lable_ = i32 n)
    (h : compile_assignment host asgm c = some c') : Labelled c c' n n := by
  simp only [compile_assignment] at h
  split at h
  · cases h
    exact .silent counter rfl
  · next var _ =>
    obtain ⟨c₁, h₁, h⟩ := Option.bind_eq_some_iff.mp h
    cases h
    obtain ⟨counter', code⟩ := labelled_expr host asgm.expr (c := c.subscript asgm.var_name) counter h₁
    have value : Labelled c c₁ n n := ⟨counter', code⟩
    have copied : ∀ src, Labelled c₁ (c₁.addMoveInsts var.address src var.size) n n := fun src =>
      .plain counter' rfl (unlabelled_moveCode var.address src var.size)
    exact value.trans (copied _)

mutual

theorem labelled_statement (stmt : Node) {c c' : Compiler} {n : Nat} (counter : c.cur_lable_ = i32 n)
    (h : compile_statement host stmt c = some c') : Labelled c c' n (n + stmt.ifs) := by
  cases stmt with
  | Declaration decl => exact labelled_declaration host counter h
  | Assignment asgm => exact labelled_assignment host counter h
  | Expr e => exact labelled_expr host e counter h
  | If s e branches tail =>
    obtain ⟨c₁, h₁, h⟩ := Option.bind_eq_some_iff.mp h
    obtain ⟨c₂, h₂, h⟩ := Option.bind_eq_some_iff.mp h
    cases h
    have label : c.alloc_new_label.1 = labelOf n := by rw [alloc_new_label, counter, labelOf]
    have next : (c.alloc_new_label.2.emit [jumpTo c.alloc_new_label.1]).cur_lable_ = i32 (n + 1 : Nat) := by
      simp only [emit, alloc_new_label, counter]
      exact Int.bmod_add_bmod
    have first := labelled_branches branches next h₁
    obtain ⟨counter', code, grown, labels⟩ := first.trans (labelled_tail tail first.counter h₂)
    rw [Node.ifs, ← Nat.add_assoc, ← Nat.add_assoc]
    refine ⟨counter', jumpTo (labelOf n) :: (code ++ [labelAt (labelOf n)]), ?_, .pair labels (.nil _)⟩
    rw [label] at grown ⊢
    simp only [emit, grown]
    simp [alloc_new_label, jumpTo, labelAt]
  | For s e init cond step block => exact labelled_block block counter h
  | Function s e name args rets block =>
    cases h
    exact .silent counter rfl
  | Return ret =>
    cases h
    exact .silent counter rfl
  | Typedef tdef =>
    cases h
    exact .silent counter rfl

theorem labelled_branches (branches : List (Expr × Block)) {c c' : Compiler} {n : Nat}
    (counter : c.cur_lable_ = i32 n) (h : compile_branches host branches c = some c') :
    Labelled c c' n (n + Node.ifsBranches branches) := by
  cases branches with
  | nil =>
    cases h
    exact .silent counter rfl
  | cons branch branches =>
    obtain ⟨c₁, h₁, h⟩ := Option.bind_eq_some_iff.mp h
    have first := labelled_block branch.2 counter h₁
    rw [Node.ifsBranches, ← Nat.add_assoc]
    exact first.trans (labelled_branches branches first.counter h)

theorem labelled_tail (tail : Option Block) {c c' : Compiler} {n : Nat} (counter : c.cur_lable_ = i32 n)
    (h : compile_tail host tail c = some c') : Labelled c c' n (n + Node.ifsTail tail) := by
  cases tail with
  | none =>
    cases h
    exact .silent counter rfl
  | some block => exact labelled_block block counter h

theorem labelled_block (block : Block) {c c' : Compiler} {n : Nat} (counter : c.cur_lable_ = i32 n)
    (h : compile_block host block c = some c') : Labelled c c' n (n + Node.ifsBlock block) := by
  obtain ⟨s, e, nodes⟩ := block
  exact labelled_nodes nodes counter h

theorem labelled_nodes (nodes : List Node) {c c' : Compiler} {n : Nat} (counter : c.cur_lable_ = i32 n)
    (h : compile_nodes host nodes c = some c') : Labelled c c' n (n + Node.ifsNodes nodes) := by
  cases nodes with
  | nil =>
    cases h
    exact .silent counter rfl
  | cons stmt nodes =>
    obtain ⟨c₁, h₁, h⟩ := Option.bind_eq_some_iff.mp h
    have first := labelled_statement stmt counter h₁
    rw [Node.ifsNodes, ← Nat.add_assoc]
    exact first.trans (labelled_nodes nodes first.counter h)

end

theorem labelled_func {func_name : Bytes} {block : Block} {c c' : Compiler} {n : Nat}
    (counter : c.cur_lable_ = i32 n) (h : compile_func host func_name block c = some c') :
    c'.cur_lable_ = i32 (n + Node.ifsBlock block : Nat) ∧ ∃ info, c'.func_table_ = c.func_table_ ++ [info] ∧
      Labels n info.instructions (n + Node.ifsBlock block) := by
  obtain ⟨c₁, h₁, h⟩ := Option.bind_eq_some_iff.mp h
  cases h
  obtain ⟨counter', code, grown, labels⟩ :=
    labelled_block host block (c := c.setCurrentFunc (.new func_name)) counter h₁
  obtain rfl : c₁.current_func_.instructions = code := grown
  refine ⟨counter', c₁.current_func_.FinishCompiling, ?_, labels⟩
  have generating : (c.setCurrentFunc (.new func_name)).Generating := ⟨nofun, (by decide : IsInt 0)⟩
  exact congrArg (· ++ _) (simulates_block host .unused block generating h₁).kept.funcs

theorem labelled_funcs {nodes : List Node} {c c' : Compiler} {n : Nat} (counter : c.cur_lable_ = i32 n)
    (h : compile_funcs host nodes c = some c') :
    ∃ infos, c'.func_table_ = c.func_table_ ++ infos ∧
      Labels n (infos.flatMap (·.instructions)) (n + Root.ifs ⟨.init, .init, .mk .init .init nodes⟩) ∧
      ∀ info ∈ infos, ∃ a b, b ≤ n + Root.ifs ⟨.init, .init, .mk .init .init nodes⟩ ∧
        Labels a info.instructions b := by
  induction nodes generalizing c n with
  | nil =>
    cases h
    exact ⟨[], (List.append_nil _).symm, .nil n, List.forall_mem_nil _⟩
  | cons node nodes ih =>
    cases node with
    | Function s e func_name args rets block =>
      obtain ⟨c₁, h₁, h⟩ := Option.bind_eq_some_iff.mp h
      obtain ⟨counter', info, funcs, labels⟩ := labelled_func host counter h₁
      obtain ⟨infos, funcs', labels', each⟩ := ih counter' h
      have count : Root.ifs ⟨.init, .init, .mk .init .init (.Function s e func_name args rets block :: nodes)⟩ =
          Node.ifsBlock block + Root.ifs ⟨.init, .init, .mk .init .init nodes⟩ := rfl
      rw [count, ← Nat.add_assoc]
      refine ⟨info :: infos, ?_, labels.append labels', List.forall_mem_cons.mpr ⟨⟨_, _, ?_, labels⟩, each⟩⟩
      · rw [funcs', funcs, List.append_assoc]
        rfl
      · exact Nat.le_add_right _ _
    | _ => exact ih counter h

theorem compile_types_counter {nodes : List Node} {c c' : Compiler} (h : compile_types host nodes c = some c') :
    c'.cur_lable_ = c.cur_lable_ := by
  induction nodes generalizing c with
  | nil =>
    cases h
    rfl
  | cons node nodes ih =>
    cases node with
    | Typedef tf =>
      obtain ⟨c₁, h₁, h⟩ := Option.bind_eq_some_iff.mp h
      refine (ih h).trans ?_
      unfold compile_typedef at h₁
      simp only at h₁
      split at h₁
      · obtain ⟨stct, -, h₁⟩ := Option.bind_eq_some_iff.mp h₁
        obtain ⟨info, -, h₁⟩ := Option.bind_eq_some_iff.mp h₁
        cases h₁
        rfl
      · cases h₁
        rfl
    | _ => exact ih h

theorem compile_global_counter {nodes : List Node} {c c' : Compiler} (h : compile_global host nodes c = some c') :
    c'.cur_lable_ = c.cur_lable_ := by
  induction nodes generalizing c with
  | nil =>
    cases h
    rfl
  | cons node nodes ih =>
    cases node with
    | Declaration decl =>
      rw [compile_global] at h
      split at h
      · obtain ⟨tf, -, h⟩ := Option.bind_eq_some_iff.mp h
        exact (ih h).trans rfl
      · exact (ih h).trans rfl
    | _ => exact ih h

theorem compile_labels {ast : Root} {c : Compiler} (h : compile host ast .init = some c) :
    Labels 1 c.program_ (1 + ast.ifs) ∧
      ∀ info ∈ c.func_table_, ∃ a b, b ≤ 1 + ast.ifs ∧ Labels a info.instructions b := by
  obtain ⟨linked, -⟩ := compile_linked host (compiled_func host .unused) h
  obtain ⟨c₁, h₁, h⟩ := Option.bind_eq_some_iff.mp h
  obtain ⟨c₂, h₂, h⟩ := Option.bind_eq_some_iff.mp h
  obtain ⟨c₃, h₃, h⟩ := Option.bind_eq_some_iff.mp h
  cases h
  have counter : c₂.cur_lable_ = i32 (1 : Nat) :=
    (compile_global_counter host h₂).trans (compile_types_counter host h₁)
  obtain ⟨infos, funcs, labels, each⟩ := labelled_funcs host counter h₃
  have none : c₂.func_table_ = [] :=
    (compile_global_kept host h₂).2.1.trans (compile_types_kept host h₁).2
  rw [none, List.nil_append] at funcs
  obtain rfl : c₃.func_table_ = infos := funcs
  rw [linked]
  exact ⟨labels, each⟩

end Compiler

/-- Every jump has its label at one place behind it, every label one jump to it, and what lies between a jump and
its label is closed in itself. -/
structure Matched (code : List Instruction) : Prop where
  target : ∀ (i : Nat) (l : Address), code[i]? = some (jumpTo l) →
    ∃ j, i < j ∧ ∀ j', code[j']? = some (labelAt l) ↔ j' = j
  origin : ∀ (j : Nat) (l : Address), code[j]? = some (labelAt l) →
    ∃ i, i < j ∧ ∀ i', code[i']? = some (jumpTo l) ↔ i' = i
  nested : ∀ (i i' j j' : Nat) (l l' : Address), i < i' → code[i]? = some (jumpTo l) →
    code[j]? = some (labelAt l) → code[i']? = some (jumpTo l') → code[j']? = some (labelAt l') → j < i' ∨ j' < j

section Labels

variable {code : List Instruction} {n k i j : Nat} {l : Address}

theorem Labels.jump (h : Labels n code k) {a : Instruction} (member : a ∈ code) {op : CmpOp} {ty : InsType}
    (jumps : a.op = .jump op ty) : ∃ l, a = jumpTo l := by
  rcases h.range member with other | ⟨x, -, -, same | same⟩
  · exact absurd jumps (other.1 op ty)
  · exact ⟨labelOf x, same⟩
  · rw [same] at jumps
    cases jumps

theorem Labels.of_jump (h : Labels n code k) (found : code[i]? = some (jumpTo l)) :
    ∃ x, n ≤ x ∧ x < k ∧ l = labelOf x := by
  rcases h.range (List.mem_of_getElem? found) with other | ⟨x, low, high, same | same⟩
  · exact absurd rfl (other.1 _ _)
  · exact ⟨x, low, high, congrArg Instruction.arg2 same⟩
  · cases same

theorem Labels.of_label (h : Labels n code k) (found : code[j]? = some (labelAt l)) :
    ∃ x, n ≤ x ∧ x < k ∧ l = labelOf x := by
  rcases h.range (List.mem_of_getElem? found) with other | ⟨x, low, high, same | same⟩
  · exact absurd rfl other.2
  · cases same
  · exact ⟨x, low, high, congrArg Instruction.arg0 same⟩

theorem Labels.matched (h : Labels n code k) (few : k ≤ 2 ^ 32) : Matched code where
  target i l found := by
    obtain ⟨x, low, high, rfl⟩ := h.of_jump found
    obtain ⟨_, j, -, -, placed⟩ := h.exists_span low high
    have unique : ∀ j', code[j']? = some (labelAt (labelOf x)) → i < j ∧ i = i ∧ j = j' := fun j' found' =>
      h.span_unique labels_marked few (by omega) ⟨found, placed⟩ ⟨found, found'⟩
    refine ⟨j, (unique j placed).1, fun j' => ⟨fun found' => (unique j' found').2.2.symm, ?_⟩⟩
    rintro rfl
    exact placed
  origin j l found := by
    obtain ⟨x, low, high, rfl⟩ := h.of_label found
    obtain ⟨i, _, -, jumps, -⟩ := h.exists_span low high
    have unique : ∀ i', code[i']? = some (jumpTo (labelOf x)) → i < j ∧ i = i' ∧ j = j := fun i' found' =>
      h.span_unique labels_marked few (by omega) ⟨jumps, found⟩ ⟨found', found⟩
    refine ⟨i, (unique i jumps).1, fun i' => ⟨fun found' => (unique i' found').2.1.symm, ?_⟩⟩
    rintro rfl
    exact jumps
  nested i i' j j' l l' less jumps placed jumps' placed' := by
    obtain ⟨x, low, high, rfl⟩ := h.of_jump jumps
    obtain ⟨y, low', high', rfl⟩ := h.of_jump jumps'
    exact h.span_nested labels_marked few (by omega) (by omega) ⟨jumps, placed⟩ ⟨jumps', placed'⟩ less

end Labels

/-- The labels of a program belong to its `if`s, nothing else jumps, and no function jumps into another one. -/
theorem Root.labels_matched {host : Host} {ast : Root} {c : Compiler}
    (h : Compiler.compile host ast .init = some c) (few : ast.ifs < 2 ^ 32) :
    (∀ i ∈ c.program_, ∀ op ty, i.op = .jump op ty → ∃ l, i = jumpTo l) ∧
      (∀ l, jumpTo l ∈ c.program_ ↔ ∃ n, 1 ≤ n ∧ n ≤ ast.ifs ∧ l = labelOf n) ∧
      Matched c.program_ ∧ ∀ info ∈ c.func_table_, Matched info.instructions := by
  obtain ⟨labels, each⟩ := Compiler.compile_labels host h
  refine ⟨fun i member op ty => labels.jump member, fun l => ⟨fun member => ?_, ?_⟩, labels.matched (by omega),
    fun info member => ?_⟩
  · obtain ⟨i, found⟩ := List.mem_iff_getElem?.mp member
    obtain ⟨x, low, high, rfl⟩ := labels.of_jump found
    exact ⟨x, low, by omega, rfl⟩
  · rintro ⟨x, low, high, rfl⟩
    obtain ⟨i, j, -, jumps, -⟩ := labels.exists_span low (by omega)
    exact List.mem_of_getElem? jumps
  · obtain ⟨a, b, small, labels'⟩ := each info member
    exact labels'.matched (by omega)

def ifInIf : Root :=
  ⟨.init, .init, .mk .init .init
    [.func "main" [.If .init .init [(.TOKEN .init .init (.make .True 4), .mk .init .init [Control.ifTrue])] none]]⟩

theorem Root.labels_ifInIf : ∃ c, Compiler.compile .plain ifInIf .init = some c ∧
    (∀ i ∈ c.program_, ∀ op ty, i.op = .jump op ty → ∃ l, i = jumpTo l) ∧
      (∀ l, jumpTo l ∈ c.program_ ↔ ∃ n, 1 ≤ n ∧ n ≤ ifInIf.ifs ∧ l = labelOf n) ∧
      Matched c.program_ ∧ ∀ info ∈ c.func_table_, Matched info.instructions := by
  obtain ⟨c, h⟩ : ∃ c, Compiler.compile .plain ifInIf .init = some c := ⟨_, rfl⟩
  have two : ifInIf.ifs = 2 := rfl
  exact ⟨c, h, Root.labels_matched h (by rw [two]; decide)⟩

end Mygo
