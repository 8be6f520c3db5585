import Mygo.Compiler.Arith
import Mygo.Compiler.Emitted

namespace Mygo

open ByteMemory Arithmetic

namespace Arith

inductive Stmt
  | declaration (x : Bytes)
  | assignment (x : Bytes) (e : Expr)
  | print (e : Expr)

inductive Of : Node → Stmt → Prop
  | declaration {decl : Declaration} {t : VarType} (typed : decl.var_type = some t)
      (int : t.name_ = bytes "int") : Of (.Declaration decl) (.declaration decl.var_name)
  | assignment (asgm : Assignment) : Of (.Assignment asgm) (.assignment asgm.var_name asgm.expr)
  | print {start end_ start' end' : Loc} {v : Value} {e : Expr}
      (callee : v.str_data_ = bytes "print") :
      Of (.Expr (.FUNCALL start end_ [.TOKEN start' end' v, e])) (.print e)

def evaluated : List Stmt → List Expr
  | [] => []
  | .declaration _ :: body => evaluated body
  | .assignment _ e :: body => e :: evaluated body
  | .print e :: body => e :: evaluated body

def printed : List Stmt → List Expr
  | [] => []
  | .print e :: body => e :: printed body
  | .declaration _ :: body => printed body
  | .assignment _ _ :: body => printed body

def assigned (x : Bytes) : List Stmt → Option Expr
  | [] => none
  | .assignment y e :: body => (assigned x body).or (if y = x then some e else none)
  | .declaration _ :: body => assigned x body
  | .print _ :: body => assigned x body

def DeclaredFirst : List Bytes → List Stmt → Prop
  | _, [] => True
  | xs, .declaration x :: body => DeclaredFirst (x :: xs) body
  | xs, .assignment x _ :: body => x ∈ xs ∧ DeclaredFirst xs body
  | xs, .print _ :: body => DeclaredFirst xs body

/-- The locals, and above them the scratch slots of each statement, lie inside the stack. -/
def FrameFits : Nat → List Stmt → Prop
  | k, [] => k ≤ MAX_STACK
  | k, .declaration _ :: body => FrameFits (k + 4) body
  | k, .assignment _ e :: body => k + 4 * e.scratch ≤ MAX_STACK ∧ FrameFits k body
  | k, .print e :: body => k + 4 * e.scratch ≤ MAX_STACK ∧ FrameFits k body

theorem evaluated_append (b b' : List Stmt) : evaluated (b ++ b') = evaluated b ++ evaluated b' := by
  induction b with
  | nil => rfl
  | cons s b ih => cases s <;> simp [evaluated, ih]

theorem printed_append (b b' : List Stmt) : printed (b ++ b') = printed b ++ printed b' := by
  induction b with
  | nil => rfl
  | cons s b ih => cases s <;> simp [printed, ih]

theorem assigned_append (x : Bytes) (b b' : List Stmt) :
    assigned x (b ++ b') = (assigned x b').or (assigned x b) := by
  induction b with
  | nil => simp [assigned]
  | cons s b ih => cases s <;> simp [assigned, ih, Option.or_assoc]

theorem printed_subset {body : List Stmt} {e : Expr} (h : e ∈ printed body) : e ∈ evaluated body := by
  induction body with
  | nil => cases h
  | cons s body ih =>
    cases s with
    | declaration x => exact ih h
    | assignment x e' => exact .tail _ (ih h)
    | print e' =>
      rcases List.mem_cons.mp h with rfl | h
      · exact .head _
      · exact .tail _ (ih h)

theorem assigned_mem {x : Bytes} {body : List Stmt} {e : Expr} (h : assigned x body = some e) :
    e ∈ evaluated body := by
  induction body with
  | nil => cases h
  | cons s body ih =>
    cases s with
    | declaration y => exact ih h
    | print e' => exact .tail _ (ih h)
    | assignment y e' =>
      rcases Option.or_eq_some_iff.mp h with h | ⟨-, h⟩
      · exact .tail _ (ih h)
      · split at h
        · cases h
          exact .head _
        · cases h

def word (e : Expr) : BitVec 32 := (e.eval exchanged).getD 0

def Slot (m : Scope) (x : Bytes) (a : Nat) : Prop :=
  ∃ var, m x = some var ∧ var.size = 4 ∧ var.address = (a : Int)

theorem Slot.unique {m : Scope} {x : Bytes} {a b : Nat} (h : Slot m x a) (h' : Slot m x b) :
    a = b := by
  obtain ⟨var, hvar, -, ha⟩ := h
  obtain ⟨var', hvar', -, hb⟩ := h'
  obtain rfl : var = var' := Option.some.inj (hvar.symm.trans hvar')
  exact_mod_cast ha.symm.trans hb

structure Laid (m : Scope) (xs : List Bytes) (k : Nat) : Prop where
  declared : ∀ x ∈ xs, ∃ a, Slot m x a
  slots : ∀ x var, m x = some var → ∃ a, Slot m x a ∧ a + 4 ≤ k
  disjoint : ∀ x y a b, Slot m x a → Slot m y b → x ≠ y → a + 4 ≤ b ∨ b + 4 ≤ a

def Extends (m m' : Scope) : Prop := ∀ x var, m x = some var → m' x = some var

theorem Slot.extends {m m' : Scope} (h : Extends m m') {x : Bytes} {a : Nat} (s : Slot m x a) :
    Slot m' x a := by
  obtain ⟨var, hvar, hsize, haddr⟩ := s
  exact ⟨var, h x var hvar, hsize, haddr⟩

/-- What running the code of `body` does, with locals where `m` says: prints, the slots of
the locals it assigns, and the slots below `k` that it does not. -/
structure Effect (F : FloatOps) (code : List Instruction) (m : Scope) (k : Nat)
    (body : List Stmt) : Prop where
  value : ∀ {vm : ByteCodeVM}, vm.Flat → (∀ e ∈ evaluated body, e.eval exchanged ≠ none) →
    ∃ mem : Mem, (ByteCodeVM.interp F).execList code vm = .ok ({ vm with
        out := vm.out ++ (printed body).map fun e => Output.I32 (word e) }.after code.length mem) ∧
      (∀ x a e, Slot m x a → assigned x body = some e → mem.load 32 a = word e) ∧
      ∀ x a, Slot m x a → a + 4 ≤ k → assigned x body = none →
        mem.load 32 a = vm.stack_.load 32 a
  fault : ∀ {vm : ByteCodeVM}, vm.Flat → (∃ e ∈ evaluated body, e.eval exchanged = none) →
    (ByteCodeVM.interp F).execList code vm = .error .divide

namespace Effect

variable {F : FloatOps} {code code' : List Instruction} {m : Scope} {k : Nat}

theorem nil (m : Scope) (k : Nat) : Effect F [] m k [] where
  value {vm} _ _ := ⟨vm.stack_, by simp [Interp.execList, printed], nofun, fun _ _ _ _ _ => rfl⟩
  fault _ h := by
    obtain ⟨e, he, -⟩ := h
    cases he

theorem declaration (m : Scope) (k : Nat) (x : Bytes) : Effect F [] m k [.declaration x] where
  value {vm} _ _ := ⟨vm.stack_, by simp [Interp.execList, printed], nofun, fun _ _ _ _ _ => rfl⟩
  fault _ h := by
    obtain ⟨e, he, -⟩ := h
    cases he

theorem append {body body' : List Stmt} {k' : Nat} (h : Effect F code m k body)
    (h' : Effect F code' m k' body') (hk : k ≤ k')
    (below : ∀ x a e, Slot m x a → assigned x body = some e → a + 4 ≤ k') :
    Effect F (code ++ code') m k (body ++ body') where
  value {vm} flat defined := by
    rw [evaluated_append] at defined
    obtain ⟨mem, hrun, hassigned, hkept⟩ :=
      h.value flat fun e he => defined e (List.mem_append_left _ he)
    have flat' : ({ vm with out := vm.out ++ (printed body).map fun e => Output.I32 (word e)
        }.after code.length mem).Flat := flat
    obtain ⟨mem', hrun', hassigned', hkept'⟩ :=
      h'.value flat' fun e he => defined e (List.mem_append_right _ he)
    refine ⟨mem', ?_, fun x a e hx hlast => ?_, fun x a hx ha hnone => ?_⟩
    · rw [Interp.execList_append, hrun]
      refine hrun'.trans ?_
      simp [printed_append, ByteCodeVM.after, Nat.add_assoc]
    · rw [assigned_append] at hlast
      rcases Option.or_eq_some_iff.mp hlast with hlast | ⟨hnone, hlast⟩
      · exact hassigned' x a e hx hlast
      · exact (hkept' x a hx (below x a e hx hlast) hnone).trans (hassigned x a e hx hlast)
    · rw [assigned_append] at hnone
      obtain ⟨hnone', hnone⟩ := Option.or_eq_none_iff.mp hnone
      exact (hkept' x a hx (ha.trans hk) hnone').trans (hkept x a hx ha hnone)
  fault {vm} flat undefined := by
    rw [evaluated_append] at undefined
    rw [Interp.execList_append]
    by_cases defined : ∀ e ∈ evaluated body, e.eval exchanged ≠ none
    · obtain ⟨mem, hrun, -⟩ := h.value flat defined
      obtain ⟨e, he, hnone⟩ := undefined
      rw [hrun]
      rcases List.mem_append.mp he with he | he
      · exact absurd hnone (defined e he)
      · exact h'.fault flat ⟨e, he, hnone⟩
    · push Not at defined
      rw [h.fault flat defined]

theorem print {e : Expr} (operand : Computes F code k (4 * e.scratch) fun _ => e.eval exchanged)
    (h : k + 4 ≤ MAX_STACK) :
    Effect F (code ++ Compiler.callCode (bytes "print") k) m k [.print e] where
  value {vm} flat defined := by
    obtain ⟨v, hv⟩ := Option.ne_none_iff_exists'.mp (defined e (.head _))
    obtain ⟨mem, hrun, hval, hframe⟩ := operand.value flat hv
    refine ⟨mem, ?_, nofun, fun x a hx ha _ => load_congr fun j _ hj => hframe j (.inl ?_)⟩
    · have call : (ByteCodeVM.interp F).exec ⟨.Call, SC_PRINT_I32, stackTop k, 0⟩
          (vm.after code.length mem) = _ := ByteCodeVM.exec_print (F := F) (flat.after _ _) h 0
      rw [Interp.execList_append, hrun]
      simp only [Compiler.callCode, if_true, Interp.execList, call]
      simp [ByteCodeVM.print, ByteCodeVM.after, printed, word, hv, hval, Nat.add_assoc]
    · omega
  fault {vm} flat undefined := by
    obtain ⟨e', he, hnone⟩ := undefined
    obtain rfl : e' = e := by simpa [evaluated] using he
    rw [Interp.execList_append, operand.fault flat hnone]

theorem assignment {x : Bytes} {e : Expr} {a : Nat}
    (expr : Computes F code k (4 * e.scratch) fun _ => e.eval exchanged)
    (h : k + 4 ≤ MAX_STACK) (slot : Slot m x a) (below : a + 4 ≤ k)
    (disjoint : ∀ y b, Slot m y b → x ≠ y → a + 4 ≤ b ∨ b + 4 ≤ a) :
    Effect F (code ++ Compiler.moveCode a k 4) m k [.assignment x e] where
  value {vm} flat defined := by
    obtain ⟨v, hv⟩ := Option.ne_none_iff_exists'.mp (defined e (.head _))
    obtain ⟨mem, hrun, hval, hframe⟩ := expr.value flat hv
    refine ⟨mem.copy a k 4, ?_, fun y b e' hy hlast => ?_, fun y b hy hb hnone => ?_⟩
    · rw [Interp.execList_append, hrun]
      refine (ByteCodeVM.exec_moves (flat.after _ _) below h).trans ?_
      simp [printed, Compiler.length_moveCode]
    · obtain ⟨rfl, rfl⟩ : x = y ∧ e = e' := by simpa [assigned] using hlast
      obtain rfl := slot.unique hy
      rw [word, hv, Option.getD_some, ← hval]
      exact load_copy_same mem a k 32
    · have other : x ≠ y := by simpa [assigned] using hnone
      have apart := disjoint y b hy other
      rw [load_copy_disjoint mem a k 4 32 b (by omega)]
      exact load_congr fun j _ hj => hframe j (by omega)
  fault {vm} flat undefined := by
    obtain ⟨e', he, hnone⟩ := undefined
    obtain rfl : e' = e := by simpa [evaluated] using he
    rw [Interp.execList_append, expr.fault flat hnone]

end Effect

variable (host : Host)

theorem findByName_int : TypeTable.findByName host TypeTable.initBasicInfos (bytes "int") =
    some ⟨20, 4, bytes "int", false, -1, []⟩ := by
  have perm := host.order_perm TypeTable.initBasicInfos
  have only : ∀ info ∈ TypeTable.initBasicInfos, info.name = bytes "int" →
      info = ⟨20, 4, bytes "int", false, -1, []⟩ := by decide
  have present : ⟨20, 4, bytes "int", false, -1, []⟩ ∈ TypeTable.initBasicInfos := by decide
  unfold TypeTable.findByName
  cases hfind : (host.order TypeTable.initBasicInfos).find? fun info => info.name = bytes "int" with
  | none =>
    have absent := List.find?_eq_none.mp hfind _ (perm.mem_iff.mpr present)
    simp at absent
  | some info =>
    have hname : info.name = bytes "int" := by simpa using List.find?_some hfind
    have hmem := perm.mem_iff.mp (List.mem_of_find?_eq_some hfind)
    exact congrArg some (only info hmem hname)

theorem slot_update {m : Scope} {x y : Bytes} {var : VarInfo} {a : Nat}
    (h : Slot (Function.update m x (some var)) y a) :
    (y = x ∧ var.address = a) ∨ (y ≠ x ∧ Slot m y a) := by
  obtain ⟨var', hvar, hsize, haddr⟩ := h
  by_cases hy : y = x
  · subst hy
    rw [Function.update_self] at hvar
    cases hvar
    exact .inl ⟨rfl, haddr⟩
  · rw [Function.update_of_ne hy] at hvar
    exact .inr ⟨hy, var', hvar, hsize, haddr⟩

theorem Laid.below {m : Scope} {xs : List Bytes} {k : Nat} (laid : Laid m xs k) {x : Bytes} {a : Nat}
    (slot : Slot m x a) : a + 4 ≤ k := by
  obtain ⟨var, hvar, -⟩ := id slot
  obtain ⟨b, hb, hle⟩ := laid.slots x var hvar
  rwa [slot.unique hb]

theorem Laid.insert {m : Scope} {xs : List Bytes} {k : Nat} (laid : Laid m xs k) {x : Bytes}
    (fresh : m x = none) {var : VarInfo} (size : var.size = 4) (address : var.address = k) :
    Extends m (Function.update m x (some var)) ∧
      Laid (Function.update m x (some var)) (x :: xs) (k + 4) := by
  have kept : Extends m (Function.update m x (some var)) := by
    intro y var' hy
    have other : y ≠ x := by
      rintro rfl
      rw [fresh] at hy
      cases hy
    rw [Function.update_of_ne other]
    exact hy
  have new : Slot (Function.update m x (some var)) x k :=
    ⟨var, Function.update_self _ _ _, size, address⟩
  refine ⟨kept, ?_, ?_, ?_⟩
  · intro y hy
    rcases List.mem_cons.mp hy with rfl | hy
    · exact ⟨k, new⟩
    · obtain ⟨a, ha⟩ := laid.declared y hy
      exact ⟨a, ha.extends kept⟩
  · intro y var' hy
    by_cases hyx : y = x
    · subst hyx
      exact ⟨k, new, Nat.le_refl _⟩
    · rw [Function.update_of_ne hyx] at hy
      obtain ⟨a, ha, hle⟩ := laid.slots y var' hy
      exact ⟨a, ha.extends kept, by omega⟩
  · intro y z a b hy hz hne
    rcases slot_update hy with ⟨rfl, ha⟩ | ⟨hyx, ha⟩ <;>
      rcases slot_update hz with ⟨rfl, hb⟩ | ⟨hzx, hb⟩
    · exact absurd rfl hne
    · have := laid.below hb
      omega
    · have := laid.below ha
      omega
    · exact laid.disjoint y z a b ha hb hne

theorem compile_declaration_int {decl : Declaration} {t : VarType} {c : Compiler} {xs : List Bytes}
    {k : Nat} (typed : decl.var_type = some t) (int : t.name_ = bytes "int")
    (table : c.type_table_ = TypeTable.initBasicInfos) (htop : c.top = k)
    (laid : Laid c.current_func_.var_address_map xs k) (inside : k + 4 ≤ MAX_STACK) :
    ∃ m, Compiler.compile_declaration host decl c = some ((c.setVars m).setStackTop ↑(k + 4)) ∧
      Extends c.current_func_.var_address_map m ∧ Laid m (decl.var_name :: xs) (k + 4) := by
  have bumped : i32 (c.current_func_.cur_stack_top + 4) = ↑(k + 4) := by
    rw [show c.current_func_.cur_stack_top = (k : Int) from htop]
    apply i32_of_isInt
    unfold IsInt
    unfold MAX_STACK at inside
    omega
  simp only [Compiler.compile_declaration, typed, int, table, findByName_int, bumped, Scope.emplace]
  cases hvar : c.current_func_.var_address_map decl.var_name with
  | some var =>
    refine ⟨_, rfl, fun x var h => h, ?_, ?_, laid.disjoint⟩
    · intro x hx
      rcases List.mem_cons.mp hx with rfl | hx
      · obtain ⟨a, slot, -⟩ := laid.slots _ var hvar
        exact ⟨a, slot⟩
      · exact laid.declared x hx
    · intro x var h
      obtain ⟨a, slot, ha⟩ := laid.slots x var h
      exact ⟨a, slot, by omega⟩
  | none => exact ⟨_, rfl, laid.insert hvar rfl htop⟩

theorem compile_assignment_slot {asgm : Assignment} {c : Compiler} {a : Nat} {k : Int}
    {code : List Instruction} (slot : Slot c.current_func_.var_address_map asgm.var_name a)
    (htop : c.top = k) (hcode : Compiler.exprCode host asgm.expr k = some code) :
    Compiler.compile_assignment host asgm c = some (c.emit (code ++ Compiler.moveCode a k 4)) := by
  subst htop
  obtain ⟨var, hvar, hsize, haddr⟩ := slot
  simp only [Compiler.compile_assignment, Compiler.subscript_of_some hvar, hvar,
    Compiler.compile_expr_eq, hcode, hsize, haddr]
  exact congrArg some (Compiler.emit_emit c _ _)

theorem compile_print {start end_ start' end' : Loc} {v : Value} {e : Expr} {c : Compiler} {k : Int}
    {code : List Instruction} (callee : v.str_data_ = bytes "print") (htop : c.top = k)
    (hcode : Compiler.exprCode host e k = some code) :
    Compiler.compile_expr host (.FUNCALL start end_ [.TOKEN start' end' v, e]) c =
      some (c.emit (code ++ Compiler.callCode (bytes "print") k)) := by
  subst htop
  simp [Compiler.compile_expr_eq, Compiler.exprCode, Compiler.funcallCode, Compiler.argsCode, hcode,
    Expr.str, callee]

theorem fits_le {k : Nat} {body : List Stmt} (h : FrameFits k body) : k ≤ MAX_STACK := by
  induction body generalizing k with
  | nil => exact h
  | cons s body ih =>
    cases s with
    | declaration x => exact (Nat.le_add_right k 4).trans (ih h)
    | assignment x e => exact ih h.2
    | print e => exact ih h.2

variable (F : FloatOps)

theorem compile_body {nodes : List Node} {body : List Stmt} (of : List.Forall₂ Of nodes body)
    {xs : List Bytes} {k : Nat} {c : Compiler} (declared : DeclaredFirst xs body)
    (ref : ∀ e ∈ evaluated body, e.eval int32 ≠ none) (fits : FrameFits k body)
    (table : c.type_table_ = TypeTable.initBasicInfos) (htop : c.top = k)
    (laid : Laid c.current_func_.var_address_map xs k) :
    ∃ code m, ∃ k' : Nat, Compiler.compile_nodes host nodes c =
        some (((c.emit code).setVars m).setStackTop k') ∧
      Extends c.current_func_.var_address_map m ∧ (∃ xs', Laid m xs' k') ∧
      (∀ x e, assigned x body = some e → ∃ a, Slot m x a) ∧ Effect F code m k body := by
  induction of generalizing xs k c with
  | nil =>
    refine ⟨[], c.current_func_.var_address_map, k, ?_, fun x var h => h, ⟨xs, laid⟩, nofun,
      .nil _ _⟩
    rw [Compiler.emit_nil, ← htop]
    rfl
  | cons hs hrest ih =>
    cases hs with
    | declaration typed int =>
      obtain ⟨m, hdecl, hext, hlaid⟩ :=
        compile_declaration_int host typed int table htop laid (fits_le fits)
      obtain ⟨code, m', k', hnodes, hext', hlaid', hslots, heffect⟩ :=
        ih (c := (c.setVars m).setStackTop ↑(k + 4)) declared ref fits table rfl hlaid
      refine ⟨code, m', k', ?_, fun x var h => hext' x var (hext x var h), hlaid', hslots,
        (Effect.declaration m' k _).append heffect (by omega) nofun⟩
      rw [Compiler.compile_nodes, Compiler.compile_statement, hdecl]
      exact hnodes
    | assignment asgm =>
      obtain ⟨v, hv⟩ := Option.ne_none_iff_exists'.mp (ref _ (.head _))
      obtain ⟨ecode, hecode, hcomputes⟩ := Compiler.computes_expr host F _ hv fits.1
      obtain ⟨a, slot⟩ := laid.declared _ declared.1
      have hasgm := compile_assignment_slot host slot htop hecode
      have below : a + 4 ≤ k := laid.below slot
      obtain ⟨code, m', k', hnodes, hext', ⟨xs', hlaid'⟩, hslots, heffect⟩ :=
        ih (c := c.emit (ecode ++ Compiler.moveCode a k 4)) declared.2
          (fun e he => ref e (.tail _ he)) fits.2 table htop laid
      have one := Compiler.scratch_pos hv
      have scratch := fits.1
      have slot' := slot.extends hext'
      have first := Effect.assignment hcomputes (by omega) slot' below
        fun y b hy hne => hlaid'.disjoint _ y a b slot' hy hne
      have all := first.append heffect (Nat.le_refl k) fun x b e hb hlast => by
        obtain ⟨rfl, -⟩ : asgm.var_name = x ∧ _ := by simpa [assigned] using hlast
        rwa [← slot'.unique hb]
      refine ⟨_, m', k', ?_, hext', ⟨xs', hlaid'⟩, fun x e hlast => ?_, all⟩
      rotate_left
      · rcases Option.or_eq_some_iff.mp hlast with hlast | ⟨-, hlast⟩
        · exact hslots x e hlast
        · split at hlast
          · next hx => exact ⟨a, hx ▸ slot'⟩
          · cases hlast
      rw [Compiler.compile_nodes, Compiler.compile_statement, hasgm]
      exact hnodes.trans (by rw [Compiler.emit_emit])
    | print callee =>
      obtain ⟨v, hv⟩ := Option.ne_none_iff_exists'.mp (ref _ (.head _))
      obtain ⟨ecode, hecode, hcomputes⟩ := Compiler.computes_expr host F _ hv fits.1
      obtain ⟨code, m', k', hnodes, hext', hlaid', hslots, heffect⟩ :=
        ih (c := c.emit (ecode ++ Compiler.callCode (bytes "print") k)) declared
          (fun e he => ref e (.tail _ he)) fits.2 table htop laid
      have one := Compiler.scratch_pos hv
      have scratch := fits.1
      have first : Effect F _ m' k _ := Effect.print hcomputes (by omega)
      have all := first.append heffect (Nat.le_refl k) nofun
      refine ⟨_, m', k', ?_, hext', hlaid', hslots, all⟩
      rw [Compiler.compile_nodes, Compiler.compile_statement,
        compile_print host callee htop hecode]
      exact hnodes.trans (by rw [Compiler.emit_emit])

def reference (e : Expr) : BitVec 32 := BitVec.ofInt 32 ((e.eval int32).getD 0)

/-- The compiled program prints the reference values, and stops at its end with the last value
of each assigned local in its slot. -/
def Agrees (host : Host) (F : FloatOps) (ast : Root) (body : List Stmt) : Prop :=
  ∃ c vm, Compiler.compile host ast .init = some c ∧
    (∀ ticks, c.program_.length ≤ ticks → ByteCodeVM.Run F c.program_ ticks .Init = .ok vm) ∧
    vm.pc_ = c.program_.length ∧
    vm.out = (printed body).map (fun e => Output.I32 (reference e)) ∧
    ∀ x e, assigned x body = some e →
      ∃ a, Slot c.current_func_.var_address_map x a ∧ vm.stack_.load 32 a = reference e

/-- Exchanging the operands of every operator makes no undefined division, and changes no
printed value and no last value of a local. -/
structure ExchangeSafe (body : List Stmt) : Prop where
  defined : ∀ e ∈ evaluated body, e.eval exchanged ≠ none
  printed : ∀ e ∈ printed body, e.eval exchanged = some (reference e)
  assigned : ∀ x e, assigned x body = some e → e.eval exchanged = some (reference e)

theorem eval_word {e : Expr} (h : e.eval exchanged ≠ none) : e.eval exchanged = some (word e) := by
  obtain ⟨v, hv⟩ := Option.ne_none_iff_exists'.mp h
  rw [word, hv, Option.getD_some]

theorem laid_nil : Laid (CompilingFunc.new []).var_address_map [] 0 where
  declared _ h := nomatch h
  slots _ _ h := nomatch h
  disjoint x _ a _ h := by
    obtain ⟨var, hvar, -⟩ := h
    cases hvar

theorem compile_function {ast : Root} {start end_ start' end' : Loc} {func_name : Bytes}
    {args : List (Bytes × Bytes)} {returns : List Bytes} {nodes : List Node} {body : List Stmt}
    (one : ast.nodes = [.Function start end_ func_name args returns (.mk start' end' nodes)])
    (of : List.Forall₂ Of nodes body) (declared : DeclaredFirst [] body)
    (ref : ∀ e ∈ evaluated body, e.eval int32 ≠ none) (fits : FrameFits 0 body) :
    ∃ c, Compiler.compile host ast .init = some c ∧
      (∀ x e, assigned x body = some e → ∃ a, Slot c.current_func_.var_address_map x a) ∧
      Effect F c.program_ c.current_func_.var_address_map 0 body ∧ ∀ i ∈ c.program_, Emitted i := by
  obtain ⟨code, m, k', hnodes, -, -, hslots, heffect⟩ :=
    compile_body host F of (c := Compiler.init.setCurrentFunc (.new func_name)) declared ref fits
      rfl rfl laid_nil
  have generating : (Compiler.init.setCurrentFunc (.new func_name)).Generating :=
    ⟨nofun, (by decide : IsInt 0)⟩
  have emitted := (Compiler.generating_nodes host nodes generating hnodes).emitted
  obtain ⟨c, hcompile, hprogram, hfunc, -⟩ := Compiler.compile_single host one hnodes rfl rfl
  have code_eq : c.program_ = code := hprogram
  refine ⟨c, hcompile, ?_, ?_, hprogram ▸ emitted⟩
  · rw [hfunc]
    exact hslots
  · rw [code_eq, hfunc]
    exact heffect

/-- Integer arithmetic keeps its meaning exactly where exchanging operands does no harm. -/
theorem agrees_iff_exchangeSafe {ast : Root} {start end_ start' end' : Loc} {func_name : Bytes}
    {args : List (Bytes × Bytes)} {returns : List Bytes} {nodes : List Node} {body : List Stmt}
    (one : ast.nodes = [.Function start end_ func_name args returns (.mk start' end' nodes)])
    (of : List.Forall₂ Of nodes body) (declared : DeclaredFirst [] body)
    (ref : ∀ e ∈ evaluated body, e.eval int32 ≠ none) (fits : FrameFits 0 body) :
    Agrees host F ast body ↔ ExchangeSafe body := by
  obtain ⟨c, hcompile, slots, effect, emitted⟩ :=
    compile_function host F one of declared ref fits
  have run : ∀ ticks, c.program_.length ≤ ticks → ByteCodeVM.Run F c.program_ ticks .Init =
      (ByteCodeVM.interp F).execList c.program_ .Init := fun ticks hticks =>
    Interp.run_straight_program (fun i hi => ByteCodeVM.straight_emitted (emitted i hi)) rfl rfl hticks
  have flat : ByteCodeVM.Init.Flat := ⟨rfl, rfl⟩
  constructor
  · rintro ⟨c', vm, hcompile', hrun, -, hout, hslots⟩
    obtain rfl : c = c' := Option.some.inj (hcompile.symm.trans hcompile')
    have hlist := (run _ (Nat.le_refl _)).symm.trans (hrun _ (Nat.le_refl _))
    have defined : ∀ e ∈ evaluated body, e.eval exchanged ≠ none := by
      by_contra undefined
      push Not at undefined
      rw [effect.fault flat undefined] at hlist
      cases hlist
    obtain ⟨mem, hmem, hassigned, -⟩ := effect.value flat defined
    obtain rfl := Except.ok.inj (hlist.symm.trans hmem)
    refine ⟨defined, fun e he => ?_, fun x e hlast => ?_⟩
    · have same := List.map_inj_left.mp hout e he
      rw [eval_word (defined e (printed_subset he)), Output.I32.inj same]
    · obtain ⟨a, slot, hload⟩ := hslots x e hlast
      rw [eval_word (defined e (assigned_mem hlast)), ← hassigned x a e slot hlast]
      exact congrArg some hload
  · intro safe
    obtain ⟨mem, hmem, hassigned, -⟩ := effect.value flat safe.defined
    have value : ∀ {e}, e.eval exchanged = some (reference e) → word e = reference e := by
      intro e he
      rw [word, he, Option.getD_some]
    refine ⟨c, _, hcompile, fun ticks hticks => (run ticks hticks).trans hmem, ?_, ?_, ?_⟩
    · exact Nat.zero_add _
    · exact List.map_congr_left fun e he => congrArg Output.I32 (value (safe.printed e he))
    · intro x e hlast
      obtain ⟨a, slot⟩ := slots x e hlast
      exact ⟨a, slot, (hassigned x a e slot hlast).trans (value (safe.assigned x e hlast))⟩

def mainOf (nodes : List Node) : Root where
  start := .init
  end_ := .init
  block_ := .mk .init .init [.Function .init .init (bytes "main") [] [] (.mk .init .init nodes)]

def intToken (i : Int) : Expr := .TOKEN .init .init (.CreateInt 1 i)

def intLocal (x : Bytes) (e : Expr) : Declaration :=
  ⟨.init, .init, x, some ⟨.init, .init, false, none, bytes "int"⟩, e⟩

def printCall (e : Expr) : Node :=
  .Expr (.FUNCALL .init .init [.TOKEN .init .init (.CreateSymbol 5 (bytes "print")), e])

theorem agrees_sumProduct :
    Agrees .plain .unused (mainOf [
        .Declaration ⟨.init, .init, bytes "c", some ⟨.init, .init, false, none, bytes "int"⟩, intToken 0⟩,
        .Assignment ⟨.init, .init, bytes "c", .OPS .init .init [.Plus] [intToken 5, intToken 3]⟩,
        printCall (.OPS .init .init [.Star] [intToken 2, intToken 4])])
      [.declaration (bytes "c"), .assignment (bytes "c") (.OPS .init .init [.Plus] [intToken 5, intToken 3]),
        .print (.OPS .init .init [.Star] [intToken 2, intToken 4])] := by
  refine (agrees_iff_exchangeSafe .plain .unused rfl ?_ ?_ ?_ ?_).mpr ⟨?_, ?_, ?_⟩
  · exact .cons (.declaration rfl rfl) (.cons (.assignment _) (.cons (.print rfl) .nil))
  · exact ⟨.head _, trivial⟩
  · simp only [evaluated, List.forall_mem_cons]
    exact ⟨by decide, by decide, nofun⟩
  · exact ⟨by decide, by decide, Nat.le_of_ble_eq_true rfl⟩
  · simp only [evaluated, List.forall_mem_cons]
    exact ⟨by decide, by decide, nofun⟩
  · simp only [printed, List.forall_mem_cons]
    exact ⟨by decide, nofun⟩
  · intro x e hlast
    obtain ⟨-, rfl⟩ : bytes "c" = x ∧ _ = e := by simpa [assigned] using hlast
    decide

/-- `print(5 - 3)` meets every assumption and prints -2. -/
theorem difference_disagrees :
    List.Forall₂ Of [printCall (.OPS .init .init [.Sub] [intToken 5, intToken 3])]
      [.print (.OPS .init .init [.Sub] [intToken 5, intToken 3])] ∧
    (Expr.OPS .init .init [.Sub] [intToken 5, intToken 3]).eval int32 = some 2 ∧
    FrameFits 0 [.print (.OPS .init .init [.Sub] [intToken 5, intToken 3])] ∧
    ¬ Agrees .plain .unused (mainOf [printCall (.OPS .init .init [.Sub] [intToken 5, intToken 3])])
      [.print (.OPS .init .init [.Sub] [intToken 5, intToken 3])] := by
  refine ⟨.cons (.print rfl) .nil, by decide, ⟨by decide, Nat.zero_le _⟩, ?_⟩
  rintro ⟨c, vm, hcompile, hrun, -, hout, -⟩
  have prints : ((Compiler.compile .plain (mainOf [printCall
      (.OPS .init .init [.Sub] [intToken 5, intToken 3])]) .init).bind fun c =>
        (ByteCodeVM.Run .unused c.program_ c.program_.length .Init).toOption.map (·.out)) =
      some [Output.I32 (-2)] := by decide
  rw [hcompile, Option.bind_some, hrun _ (Nat.le_refl _)] at prints
  have wrong := Option.some.inj (prints.symm.trans (congrArg some hout))
  exact absurd wrong (by decide)

end Arith

end Mygo
