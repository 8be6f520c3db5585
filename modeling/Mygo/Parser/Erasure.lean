import Mygo.Parser.Limits
import Mygo.Parser.Program

namespace Mygo

namespace Expr

mutual

@[simp] theorem erase_erase (e : Expr) : e.erase.erase = e.erase := by
  cases e with
  | TOKEN l r v => rfl
  | OPS l r ops es => rw [erase, erase, eraseAll_erase es]
  | FUNCALL l r es => rw [erase, erase, eraseAll_erase es]

@[simp] theorem eraseAll_erase (es : List Expr) : eraseAll (eraseAll es) = eraseAll es := by
  cases es with
  | nil => rfl
  | cons e es => rw [eraseAll, eraseAll, erase_erase e, eraseAll_erase es]

end

theorem length_eraseAll (es : List Expr) : (eraseAll es).length = es.length := by
  induction es with
  | nil => rfl
  | cons e es ih => rw [eraseAll, List.length_cons, List.length_cons, ih]

theorem eraseAll_nil (es : List Expr) : eraseAll es = [] ↔ es = [] := by
  cases es with
  | nil => exact iff_of_true rfl rfl
  | cons e es => exact iff_of_false (List.cons_ne_nil _ _) (List.cons_ne_nil _ _)

mutual

theorem print_erase (e : Expr) : e.erase.print = e.print := by
  cases e with
  | TOKEN l r v => rfl
  | OPS l r ops es => rw [erase, print, print, printOps_erase]
  | FUNCALL l r es => rw [erase, print, print, printCall_erase]

theorem printOps_erase (ops : List TokenType) (es : List Expr) : printOps ops (eraseAll es) = printOps ops es := by
  cases es with
  | nil => rfl
  | cons e es =>
    simp only [eraseAll, printOps, length_eraseAll]
    rw [print_erase e, printRest_erase ops es]

theorem printRest_erase (ops : List TokenType) (es : List Expr) : printRest ops (eraseAll es) = printRest ops es := by
  cases es with
  | nil => rfl
  | cons e es =>
    cases ops with
    | nil => rfl
    | cons op ops => rw [eraseAll, printRest, printRest, print_erase e, printRest_erase ops es]

theorem printCall_erase (es : List Expr) : printCall (eraseAll es) = printCall es := by
  cases es with
  | nil => rfl
  | cons f es => rw [eraseAll, printCall, printCall, print_erase f, printArgs_erase es]

theorem printArgs_erase (es : List Expr) : printArgs (eraseAll es) = printArgs es := by
  cases es with
  | nil => rfl
  | cons e es => simp only [eraseAll, printArgs, print_erase e, printArgs_erase es, eraseAll_nil]

end

theorem flatMap_erase (es : List Expr) : (eraseAll es).flatMap print = es.flatMap print := by
  induction es with
  | nil => rfl
  | cons e es ih => rw [eraseAll, List.flatMap_cons, List.flatMap_cons, print_erase, ih]

end Expr

@[simp] theorem VarType.erase_erase (t : VarType) : t.erase.erase = t.erase := by
  obtain ⟨l, r, is_struct, _ | stct, name⟩ := t <;> rfl

@[simp] theorem Declaration.erase_erase (d : Declaration) : d.erase.erase = d.erase := by
  obtain ⟨l, r, name, type, expr⟩ := d
  cases type <;> simp [erase]

@[simp] theorem Assignment.erase_erase (a : Assignment) : a.erase.erase = a.erase := by simp [erase]

@[simp] theorem VarType.print_erase (t : VarType) : t.erase.print = t.print := by
  obtain ⟨l, r, is_struct, _ | stct, name⟩ := t <;> rfl

@[simp] theorem Declaration.print_erase (d : Declaration) : d.erase.print = d.print := by
  obtain ⟨l, r, name, type, expr⟩ := d
  cases type <;> simp [erase, print, printType, expr.print_erase]

@[simp] theorem Assignment.print_erase (a : Assignment) : a.erase.print = a.print := by
  simp [erase, print, a.expr.print_erase]

@[simp] theorem printOption_map {α β : Type} (print : β → List Value) (f : α → β) (o : Option α) :
    printOption print (o.map f) = printOption (fun a => print (f a)) o := by
  cases o <;> rfl

namespace Node

mutual

theorem erase_erase (node : Node) : node.erase.erase = node.erase := by
  cases node with
  | Declaration decl => exact congrArg Node.Declaration decl.erase_erase
  | Assignment asgm => exact congrArg Node.Assignment asgm.erase_erase
  | Expr expr => exact congrArg Node.Expr expr.erase_erase
  | If l r branches tail => rw [erase, erase, eraseBranches_erase branches, eraseTail_erase tail]
  | Function l r name params results block => rw [erase, erase, eraseBlock_erase block]
  | Return ret => simp [erase, Return.erase]
  | For l r decl cond step block =>
    simp [erase, eraseBlock_erase block, Function.comp_def]
  | Typedef tdef => simp [erase, Typedef.erase]

theorem eraseBlock_erase (block : Block) : eraseBlock (eraseBlock block) = eraseBlock block := by
  cases block with
  | mk l r nodes => rw [eraseBlock, eraseBlock, eraseNodes_erase nodes]

theorem eraseNodes_erase (nodes : List Node) : eraseNodes (eraseNodes nodes) = eraseNodes nodes := by
  cases nodes with
  | nil => rfl
  | cons node nodes => rw [eraseNodes, eraseNodes, erase_erase node, eraseNodes_erase nodes]

theorem eraseBranches_erase (branches : List If.Branch) :
    eraseBranches (eraseBranches branches) = eraseBranches branches := by
  cases branches with
  | nil => rfl
  | cons b branches =>
    obtain ⟨cond, block⟩ := b
    rw [eraseBranches, eraseBranches, cond.erase_erase, eraseBlock_erase block, eraseBranches_erase branches]

theorem eraseTail_erase (tail : Option Block) : eraseTail (eraseTail tail) = eraseTail tail := by
  cases tail with
  | none => rfl
  | some block => rw [eraseTail, eraseTail, eraseBlock_erase block]

end

mutual

theorem print_erase (node : Node) : node.erase.print = node.print := by
  cases node with
  | Declaration decl => exact decl.print_erase
  | Assignment asgm => exact asgm.print_erase
  | Expr expr => exact expr.print_erase
  | If l r branches tail => rw [erase, print, print, printBranches_erase branches, printTail_erase tail]
  | Function l r name params results block => rw [erase, print, print, printBlock_erase block]
  | Return ret => simp [erase, print, Return.erase, Return.print, Expr.flatMap_erase]
  | For l r decl cond step block =>
    simp [erase, print, printBlock_erase block, Expr.print_erase]
  | Typedef tdef => simp [erase, print, Typedef.erase, Typedef.print]

theorem printBlock_erase (block : Block) : printBlock (eraseBlock block) = printBlock block := by
  cases block with
  | mk l r nodes => rw [eraseBlock, printBlock, printBlock, printNodes_erase nodes]

theorem printNodes_erase (nodes : List Node) : printNodes (eraseNodes nodes) = printNodes nodes := by
  cases nodes with
  | nil => rfl
  | cons node nodes => rw [eraseNodes, printNodes, printNodes, print_erase node, printNodes_erase nodes]

theorem printBranches_erase (branches : List If.Branch) :
    printBranches (eraseBranches branches) = printBranches branches := by
  cases branches with
  | nil => rfl
  | cons b branches =>
    obtain ⟨cond, block⟩ := b
    rw [eraseBranches, printBranches, printBranches, cond.print_erase, printBlock_erase block,
      printBranches_erase branches]

theorem printTail_erase (tail : Option Block) : printTail (eraseTail tail) = printTail tail := by
  cases tail with
  | none => rfl
  | some block => rw [eraseTail, printTail, printTail, printBlock_erase block]

end

end Node

section Limits

variable {limit limit' : Counted → Nat → Prop}

theorem VarType.within_erase (t : VarType) : t.erase.Within limit ↔ t.Within limit := by
  obtain ⟨l, r, is_struct, _ | stct, name⟩ := t
  · exact iff_of_true nofun nofun
  · simp [VarType.Within, erase, Struct.erase]

theorem Declaration.within_erase (d : Declaration) : d.erase.Within limit ↔ d.Within limit := by
  obtain ⟨l, r, name, _ | t, expr⟩ := d
  · exact iff_of_true nofun nofun
  · simp [Declaration.Within, erase, t.within_erase]

theorem VarType.Within.both {t : VarType} (h : t.Within limit) (h' : t.Within limit') :
    t.Within fun k n => limit k n ∧ limit' k n :=
  fun stct there => ⟨h stct there, h' stct there⟩

theorem Declaration.Within.both {d : Declaration} (h : d.Within limit) (h' : d.Within limit') :
    d.Within fun k n => limit k n ∧ limit' k n :=
  fun t there => (h t there).both (h' t there)

namespace Node

theorem length_eraseNodes (nodes : List Node) : (eraseNodes nodes).length = nodes.length := by
  induction nodes with
  | nil => rfl
  | cons node nodes ih => rw [eraseNodes, List.length_cons, List.length_cons, ih]

theorem length_eraseBranches (branches : List If.Branch) : (eraseBranches branches).length = branches.length := by
  induction branches with
  | nil => rfl
  | cons b branches ih => rw [eraseBranches, List.length_cons, List.length_cons, ih]

theorem length_eraseTail (tail : Option Block) : (eraseTail tail).toList.length = tail.toList.length := by
  cases tail <;> rfl

mutual

theorem within_erase (node : Node) : node.erase.Within limit ↔ node.Within limit := by
  cases node with
  | Declaration decl => exact decl.within_erase
  | Assignment asgm => exact Iff.rfl
  | Expr expr => exact Iff.rfl
  | If l r branches tail =>
    rw [erase, Node.Within, Node.Within, length_eraseBranches, length_eraseTail, withinBranches_erase branches,
      withinTail_erase tail]
  | Function l r name params results block => rw [erase, Node.Within, Node.Within, withinBlock_erase block]
  | Return ret => rw [erase, Node.Within, Node.Within, Return.erase, Expr.length_eraseAll]
  | For l r decl cond step block =>
    rw [erase, Node.Within, Node.Within, withinBlock_erase block]
    simp [Declaration.within_erase]
  | Typedef tdef => exact tdef.old_type_.within_erase

theorem withinBlock_erase (block : Block) : (eraseBlock block).Within limit ↔ block.Within limit := by
  cases block with
  | mk l r nodes => rw [eraseBlock, Block.Within, Block.Within, length_eraseNodes, withinAll_erase nodes]

theorem withinAll_erase (nodes : List Node) : WithinAll limit (eraseNodes nodes) ↔ WithinAll limit nodes := by
  cases nodes with
  | nil => exact Iff.rfl
  | cons node nodes => rw [eraseNodes, WithinAll, WithinAll, within_erase node, withinAll_erase nodes]

theorem withinBranches_erase (branches : List If.Branch) :
    WithinBranches limit (eraseBranches branches) ↔ WithinBranches limit branches := by
  cases branches with
  | nil => exact Iff.rfl
  | cons b branches =>
    obtain ⟨cond, block⟩ := b
    rw [eraseBranches, WithinBranches, WithinBranches, withinBlock_erase block, withinBranches_erase branches]

theorem withinTail_erase (tail : Option Block) : WithinTail limit (eraseTail tail) ↔ WithinTail limit tail := by
  cases tail with
  | none => exact Iff.rfl
  | some block => rw [eraseTail, WithinTail, WithinTail, withinBlock_erase block]

end

mutual

theorem Within.both (node : Node) (h : node.Within limit) (h' : node.Within limit') :
    node.Within fun k n => limit k n ∧ limit' k n := by
  cases node with
  | Declaration decl => exact Declaration.Within.both h h'
  | Assignment asgm => trivial
  | Expr expr => trivial
  | If l r branches tail =>
    exact ⟨⟨h.1, h'.1⟩, WithinBranches.both branches h.2.1 h'.2.1, WithinTail.both tail h.2.2 h'.2.2⟩
  | Function l r name params results block =>
    exact ⟨⟨h.1, h'.1⟩, ⟨h.2.1, h'.2.1⟩, WithinBlock.both block h.2.2 h'.2.2⟩
  | Return ret => exact ⟨h, h'⟩
  | For l r decl cond step block =>
    exact ⟨fun d there => (h.1 d there).both (h'.1 d there), WithinBlock.both block h.2 h'.2⟩
  | Typedef tdef => exact VarType.Within.both h h'

theorem WithinBlock.both (block : Block) (h : block.Within limit) (h' : block.Within limit') :
    block.Within fun k n => limit k n ∧ limit' k n := by
  cases block with
  | mk l r nodes => exact ⟨⟨h.1, h'.1⟩, WithinAll.both nodes h.2 h'.2⟩

theorem WithinAll.both (nodes : List Node) (h : WithinAll limit nodes) (h' : WithinAll limit' nodes) :
    WithinAll (fun k n => limit k n ∧ limit' k n) nodes := by
  cases nodes with
  | nil => trivial
  | cons node nodes => exact ⟨Within.both node h.1 h'.1, WithinAll.both nodes h.2 h'.2⟩

theorem WithinBranches.both (branches : List If.Branch) (h : WithinBranches limit branches)
    (h' : WithinBranches limit' branches) : WithinBranches (fun k n => limit k n ∧ limit' k n) branches := by
  cases branches with
  | nil => trivial
  | cons b branches =>
    obtain ⟨cond, block⟩ := b
    exact ⟨WithinBlock.both block h.1 h'.1, WithinBranches.both branches h.2 h'.2⟩

theorem WithinTail.both (tail : Option Block) (h : WithinTail limit tail) (h' : WithinTail limit' tail) :
    WithinTail (fun k n => limit k n ∧ limit' k n) tail := by
  cases tail with
  | none => trivial
  | some block => exact WithinBlock.both block h h'

end

end Node

end Limits

end Mygo
