import Mygo.Compiler.Slots

namespace Mygo

open ByteMemory

structure Arithmetic (α : Type) where
  leaf : Value → Option α
  neg : α → Option α
  op : TokenType → α → α → Option α

namespace Expr

variable {α : Type} (A : Arithmetic α)

mutual

/-- Left folds of the chains; `none` where the tree is not integer arithmetic. -/
def eval : Expr → Option α
  | .TOKEN _ _ v => A.leaf v
  | .OPS _ _ ops exprs => evalOps ops exprs
  | .FUNCALL _ _ _ => none

def evalOps (ops : List TokenType) : List Expr → Option α
  | [] => none
  | e :: es => do
    let v ← eval e
    if ops = [.Sub] ∧ es = [] then A.neg v else evalChain v ops es

def evalChain (acc : α) : List TokenType → List Expr → Option α
  | [], [] => some acc
  | t :: ops, e :: es => do
    let v ← eval e
    let acc ← A.op t acc v
    evalChain acc ops es
  | _, _ => none

end

mutual

def scratch : Expr → Nat
  | .TOKEN _ _ _ => 1
  | .OPS _ _ _ exprs => scratchOps exprs
  | .FUNCALL _ _ _ => 0

def scratchOps : List Expr → Nat
  | [] => 0
  | e :: es => max (scratch e) (scratchRest es)

def scratchRest : List Expr → Nat
  | [] => 0
  | e :: es => max (1 + scratch e) (scratchRest es)

end

end Expr

namespace Arithmetic

def checked (x : Int) : Option Int := if IsInt x then some x else none

/-- The reference: exact integers that stay within `int`, division toward zero. -/
def int32 : Arithmetic Int where
  leaf v := if v.type_ = .Int then checked v.i_data_ else none
  neg x := checked (-x)
  op t x y := match t with
    | .Plus => checked (x + y)
    | .Sub => checked (x - y)
    | .Star => checked (x * y)
    | .Slash => if y = 0 then none else checked (x.tdiv y)
    | _ => none

/-- Machine words, and every binary operator with its operands exchanged. -/
def exchanged : Arithmetic (BitVec 32) where
  leaf v := if v.type_ = .Int then some (BitVec.ofInt 32 v.i_data_) else none
  neg x := some (-x)
  op t x y := match t with
    | .Plus => some (y + x)
    | .Sub => some (y - x)
    | .Star => some (y * x)
    | .Slash => (divInt y x).toOption
    | _ => none

end Arithmetic

open Arithmetic

/-- Run on any memory, `code` leaves at slot `k` what `f` makes of the word that was there,
and touches nothing but the `n` bytes from `k` on; where `f` has no value a division faults. -/
structure Computes (F : FloatOps) (code : List Instruction) (k n : Nat)
    (f : BitVec 32 → Option (BitVec 32)) : Prop where
  value : ∀ {vm : ByteCodeVM} {v : BitVec 32}, vm.Flat → f (vm.stack_.load 32 k) = some v →
    ∃ m : Mem, (ByteCodeVM.interp F).execList code vm = .ok (vm.after code.length m) ∧
      m.load 32 k = v ∧ ∀ j, j < k ∨ k + n ≤ j → m j = vm.stack_ j
  fault : ∀ {vm : ByteCodeVM}, vm.Flat → f (vm.stack_.load 32 k) = none →
    (ByteCodeVM.interp F).execList code vm = .error .divide

namespace Computes

variable {F : FloatOps} {code code' : List Instruction} {k n : Nat}
  {f g : BitVec 32 → Option (BitVec 32)}

theorem nil (k n : Nat) : Computes F [] k n some where
  value {vm _} _ hv := ⟨vm.stack_, rfl, Option.some.inj hv, fun _ _ => rfl⟩
  fault _ h := nomatch h

theorem mono {n' : Nat} (h : Computes F code k n f) (hn : n ≤ n') : Computes F code k n' f where
  value flat hv := by
    obtain ⟨m, hrun, hval, hframe⟩ := h.value flat hv
    exact ⟨m, hrun, hval, fun j hj => hframe j (by omega)⟩
  fault := h.fault

theorem single {ins : Instruction} {f : BitVec 32 → BitVec 32}
    (h : ∀ vm : ByteCodeVM, vm.Flat → ByteCodeVM.exec F ins vm =
      .ok (vm.after 1 (vm.stack_.store k (f (vm.stack_.load 32 k))))) :
    Computes F [ins] k 4 (fun x => some (f x)) where
  value {vm v} flat hv := by
    cases hv
    refine ⟨vm.stack_.store k (f (vm.stack_.load 32 k)), ?_, load_store_same _ _ _ rfl, ?_⟩
    · simp only [Interp.execList, ByteCodeVM.interp, h vm flat]
      rfl
    · intro j hj
      exact store_of_outside _ _ _ _ hj
  fault _ h := nomatch h

theorem append (h : Computes F code k n f) (h' : Computes F code' k n g) :
    Computes F (code ++ code') k n (fun x => (f x).bind g) where
  value {vm v} flat hv := by
    obtain ⟨w, hw, hv⟩ := Option.bind_eq_some_iff.mp hv
    obtain ⟨m, hrun, hval, hframe⟩ := h.value flat hw
    obtain ⟨m', hrun', hval', hframe'⟩ :=
      h'.value (flat.after code.length m) (hval.symm ▸ hv : g (m.load 32 k) = some v)
    refine ⟨m', ?_, hval', fun j hj => (hframe' j hj).trans (hframe j hj)⟩
    rw [Interp.execList_append, hrun, List.length_append]
    simpa using hrun'
  fault {vm} flat hv := by
    rw [Interp.execList_append]
    cases hf : f (vm.stack_.load 32 k) with
    | none => rw [h.fault flat hf]
    | some w =>
      obtain ⟨m, hrun, hval, -⟩ := h.value flat hf
      change (f (vm.stack_.load 32 k)).bind g = none at hv
      have hg : g (m.load 32 k) = none := by rwa [hf, Option.bind_some, ← hval] at hv
      rw [hrun]
      exact h'.fault (flat.after code.length m) hg

end Computes

namespace Compiler

variable (host : Host) (F : FloatOps)

theorem computes_literal {k : Nat} (h : k + 4 ≤ MAX_STACK) (x : Int) :
    Computes F [⟨.Set32, stackTop k, i32u64 x, 0⟩] k 4 (fun _ => some (BitVec.ofInt 32 x)) := by
  apply Computes.single
  intro vm flat
  rw [ByteCodeVM.exec_set32 flat h, i32u64_word]

theorem computes_negate {k : Nat} (h : k + 4 ≤ MAX_STACK) :
    Computes F [⟨.MulI32D, stackTop k, i32u64 (-1), stackTop k⟩] k 4 (fun x => some (-x)) := by
  apply Computes.single
  intro vm flat
  exact ByteCodeVM.exec_negate flat h _

def IsArith (t : TokenType) : Prop := t = .Plus ∨ t = .Sub ∨ t = .Star ∨ t = .Slash

theorem divInt_cases {w : Nat} (x y : BitVec w) :
    (∃ v, divInt x y = .ok v) ∨ divInt x y = .error .divide := by
  unfold divInt
  split
  · exact .inr rfl
  · split
    · exact .inr rfl
    · exact .inl ⟨_, rfl⟩

/-- The instruction of an operator reads the operand first and the accumulator second. -/
theorem exec_opInst {t : TokenType} (ht : IsArith t) {k : Nat} (h : k + 8 ≤ MAX_STACK)
    {vm : ByteCodeVM} (flat : vm.Flat) :
    (ByteCodeVM.interp F).execList (opInst k ↑(k + 4) t) vm =
      match exchanged.op t (vm.stack_.load 32 k) (vm.stack_.load 32 (k + 4)) with
      | some w => .ok (vm.after 1 (vm.stack_.store k w))
      | none => .error .divide := by
  have exec : ∀ op, ByteCodeVM.exec F ⟨.case1 op .I32, stackTop k, stackTop ↑(k + 4), stackTop k⟩
      vm = _ := ByteCodeVM.exec_arith flat (by omega) (by omega) (by omega)
  rcases ht with rfl | rfl | rfl | rfl
  · simp only [opInst, Interp.execList, ByteCodeVM.interp, exec]
    rfl
  · simp only [opInst, Interp.execList, ByteCodeVM.interp, exec]
    rfl
  · simp only [opInst, Interp.execList, ByteCodeVM.interp, exec]
    rfl
  · simp only [opInst, Interp.execList, ByteCodeVM.interp, exec, exchanged, arithInt]
    rcases divInt_cases (vm.stack_.load 32 (k + 4)) (vm.stack_.load 32 k) with ⟨v, hv⟩ | hfault
    · rw [hv]
      rfl
    · rw [hfault]
      rfl

theorem computes_step {t : TokenType} (ht : IsArith t) {code : List Instruction} {k n : Nat}
    {r : Option (BitVec 32)} (operand : Computes F code (k + 4) n (fun _ => r))
    (h : k + 8 ≤ MAX_STACK) :
    Computes F (code ++ opInst k ↑(k + 4) t) k (4 + n)
      (fun acc => r.bind fun v => exchanged.op t acc v) := by
  have last : ∀ {vm : ByteCodeVM} {m : Mem} {v : BitVec 32}, vm.Flat → m.load 32 (k + 4) = v →
      (∀ j, j < k + 4 ∨ k + 4 + n ≤ j → m j = vm.stack_ j) →
      (ByteCodeVM.interp F).execList (opInst k ↑(k + 4) t) (vm.after code.length m) =
        match exchanged.op t (vm.stack_.load 32 k) v with
        | some w => .ok (vm.after (code ++ opInst k ↑(k + 4) t).length (m.store k w))
        | none => .error .divide := by
    intro vm m v flat hval hframe
    have acc : m.load 32 k = vm.stack_.load 32 k := load_congr fun j _ hj => hframe j (by omega)
    have one : (opInst k ↑(k + 4) t).length = 1 := by
      rcases ht with rfl | rfl | rfl | rfl <;> rfl
    rw [exec_opInst F ht h (flat.after code.length m), ByteCodeVM.stack_after, hval, acc,
      List.length_append, one]
    simp only [ByteCodeVM.after_after]
  constructor
  · intro vm w flat hw
    obtain ⟨v, rfl, value⟩ := Option.bind_eq_some_iff.mp hw
    obtain ⟨m, hrun, hval, hframe⟩ := operand.value flat rfl
    refine ⟨m.store k w, ?_, load_store_same _ _ _ rfl, fun j hj => ?_⟩
    · rw [Interp.execList_append, hrun]
      exact (last flat hval hframe).trans (by rw [value])
    · rw [store_of_outside _ _ _ _ (by omega)]
      exact hframe j (by omega)
  · intro vm flat hw
    rw [Interp.execList_append]
    cases r with
    | none => rw [operand.fault flat rfl]
    | some v =>
      obtain ⟨m, hrun, hval, hframe⟩ := operand.value flat rfl
      rw [hrun]
      exact (last flat hval hframe).trans (by rw [show exchanged.op t _ v = none from hw])

mutual

theorem scratch_pos {e : Expr} {x : Int} (ref : e.eval int32 = some x) : 1 ≤ e.scratch := by
  cases e with
  | TOKEN s e v => exact Nat.le_refl 1
  | OPS s e ops exprs => exact scratchOps_pos ref
  | FUNCALL s e exprs => cases ref

theorem scratchOps_pos {ops : List TokenType} {exprs : List Expr} {x : Int}
    (ref : Expr.evalOps int32 ops exprs = some x) : 1 ≤ Expr.scratchOps exprs := by
  cases exprs with
  | nil => cases ref
  | cons e es =>
    obtain ⟨y, hy, -⟩ := Option.bind_eq_some_iff.mp ref
    exact (scratch_pos hy).trans (Nat.le_max_left _ _)

end

theorem isArith_of_op {t : TokenType} {x y z : Int} (h : int32.op t x y = some z) : IsArith t := by
  unfold int32 IsArith at *
  cases t <;> simp_all

mutual

theorem computes_expr (e : Expr) {x : Int} (ref : e.eval int32 = some x) {k : Nat}
    (fits : k + 4 * e.scratch ≤ MAX_STACK) :
    ∃ code, exprCode host e k = some code ∧
      Computes F code k (4 * e.scratch) (fun _ => e.eval exchanged) := by
  cases e with
  | TOKEN s e v =>
    simp only [Expr.eval, int32] at ref
    split at ref
    · next hv =>
      refine ⟨_, rfl, ?_⟩
      simp only [Expr.eval, exchanged, literatureCode, hv]
      exact computes_literal F fits v.i_data_
    · cases ref
  | OPS s e ops exprs => exact computes_ops ops exprs ref fits
  | FUNCALL s e exprs => cases ref

theorem computes_ops (ops : List TokenType) (exprs : List Expr) {x : Int}
    (ref : Expr.evalOps int32 ops exprs = some x) {k : Nat}
    (fits : k + 4 * Expr.scratchOps exprs ≤ MAX_STACK) :
    ∃ code, opsCode host ops exprs k = some code ∧
      Computes F code k (4 * Expr.scratchOps exprs) (fun _ => Expr.evalOps exchanged ops exprs) := by
  cases exprs with
  | nil => cases ref
  | cons e es =>
    rw [Expr.scratchOps] at fits ⊢
    obtain ⟨y, hy, ref⟩ := Option.bind_eq_some_iff.mp ref
    obtain ⟨code, hcode, first⟩ := computes_expr e hy (by omega : k + 4 * e.scratch ≤ MAX_STACK)
    have first := first.mono (by omega : 4 * e.scratch ≤ 4 * max e.scratch (Expr.scratchRest es))
    have one : 1 ≤ e.scratch := scratch_pos hy
    rw [opsCode, hcode, Option.bind_eq_bind, Option.bind_some]
    split at ref
    · next hunary =>
      rw [if_pos hunary]
      refine ⟨_, rfl, ?_⟩
      have all := first.append ((computes_negate F (by omega : k + 4 ≤ MAX_STACK)).mono
        (by omega : 4 ≤ 4 * max e.scratch (Expr.scratchRest es)))
      simp only [Expr.evalOps, if_pos hunary]
      exact all
    · next hchain =>
      rw [if_neg hchain]
      have bumped : i32 (k + 4) = ↑(k + 4) := i32_of_isInt (by
        unfold IsInt
        unfold MAX_STACK at fits
        omega)
      obtain ⟨rest, hrest, chain⟩ := computes_chain ops es ref
        (by omega : k + 4 * Expr.scratchRest es ≤ MAX_STACK)
      rw [bumped, hrest]
      refine ⟨_, rfl, ?_⟩
      have all := first.append (chain.mono
        (by omega : 4 * Expr.scratchRest es ≤ 4 * max e.scratch (Expr.scratchRest es)))
      simp only [Expr.evalOps, if_neg hchain]
      exact all

theorem computes_chain (ops : List TokenType) (es : List Expr) {acc x : Int}
    (ref : Expr.evalChain int32 acc ops es = some x) {k : Nat}
    (fits : k + 4 * Expr.scratchRest es ≤ MAX_STACK) :
    ∃ code, chainCode host k ↑(k + 4) ops es = some code ∧
      Computes F code k (4 * Expr.scratchRest es) (fun v => Expr.evalChain exchanged v ops es) := by
  cases es with
  | nil =>
    cases ops with
    | nil => exact ⟨[], rfl, .nil k _⟩
    | cons t ops => cases ref
  | cons e es =>
    cases ops with
    | nil => cases ref
    | cons t ops =>
      rw [Expr.scratchRest] at fits ⊢
      obtain ⟨y, hy, ref⟩ := Option.bind_eq_some_iff.mp ref
      obtain ⟨z, hz, ref⟩ := Option.bind_eq_some_iff.mp ref
      obtain ⟨code, hcode, operand⟩ := computes_expr e hy
        (by omega : k + 4 + 4 * e.scratch ≤ MAX_STACK)
      obtain ⟨rest, hrest, chain⟩ := computes_chain ops es ref
        (by omega : k + 4 * Expr.scratchRest es ≤ MAX_STACK)
      have one : 1 ≤ e.scratch := scratch_pos hy
      have step := computes_step F (isArith_of_op hz) operand (by omega)
      have all := (step.mono (by omega : 4 + 4 * e.scratch ≤
        4 * max (1 + e.scratch) (Expr.scratchRest es))).append (chain.mono (by omega :
        4 * Expr.scratchRest es ≤ 4 * max (1 + e.scratch) (Expr.scratchRest es)))
      rw [chainCode, hcode, hrest]
      refine ⟨_, rfl, ?_⟩
      simpa only [Expr.evalChain, Option.bind_eq_bind, Option.bind_assoc] using all

end

end Compiler

end Mygo
