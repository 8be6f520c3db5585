import Mygo.Compiler.Arguments
import Mygo.Compiler.Types
import Mygo.Compiler.Visits

namespace Mygo

open ByteMemory Arithmetic

abbrev Words := Nat → BitVec 32

namespace Store

def words (s : Store) : Words := fun j => s.mem.load 32 (4 * j)

variable {s : Store} {j : Nat}

theorem words_store (s : Store) (j : Nat) (v : BitVec 32) :
    (⟨s.mem.store (4 * j) v, s.out⟩ : Store).words = Function.update s.words j v := by
  funext i
  by_cases same : i = j
  · subst same
    rw [Function.update_self]
    exact load_store_same _ _ _ rfl
  · rw [Function.update_of_ne same]
    exact load_store_disjoint _ _ _ _ _ (by omega)

theorem words_copy (s : Store) (i j : Nat) :
    (⟨s.mem.copy (4 * i) (4 * j) 4, s.out⟩ : Store).words = Function.update s.words i (s.words j) := by
  funext k
  by_cases same : k = i
  · subst same
    rw [Function.update_self]
    exact load_copy_same _ _ _ 32
  · rw [Function.update_of_ne same]
    exact load_copy_disjoint _ _ _ _ _ _ (by omega)

theorem slot_word (fits : 4 * (j + 1) ≤ MAX_STACK) : SlotFits (4 * j : Nat) 4 := by
  unfold SlotFits
  omega

theorem get_word (fits : 4 * (j + 1) ≤ MAX_STACK) : s.get (4 * j : Nat) = .ok (s.words j) := by
  rw [get, if_pos (slot_word fits), Int.toNat_natCast]
  rfl

theorem set_word (fits : 4 * (j + 1) ≤ MAX_STACK) (v : BitVec 32) :
    s.set (4 * j : Nat) v = .ok ⟨s.mem.store (4 * j) v, s.out⟩ := by
  rw [set, if_pos (slot_word fits), Int.toNat_natCast]

theorem byte_fits {k : Nat} (fits : k + 1 ≤ MAX_STACK) : SlotFits (k : Nat) 1 := by
  unfold SlotFits
  omega

theorem move_fits {k l : Nat} (hk : k + 1 ≤ MAX_STACK) (hl : l + 1 ≤ MAX_STACK) :
    s.move k l = .ok ⟨Function.update s.mem k (s.mem l), s.out⟩ := by
  rw [move, if_pos ⟨byte_fits hl, byte_fits hk⟩, Int.toNat_natCast, Int.toNat_natCast]

theorem copy_fits {dst src n : Nat} (h : dst + n ≤ src) (fits : src + n ≤ MAX_STACK) :
    s.copy dst src n = .ok ⟨s.mem.copy dst src n, s.out⟩ := by
  induction n with
  | zero =>
    rw [copy_zero]
    rfl
  | succ n ih =>
    have small : ∀ k : Nat, k ≤ src → i32 (k + n) = ↑(k + n) := fun k hk => i32_of_isInt (by
      unfold IsInt
      unfold MAX_STACK at fits
      omega)
    have target : i32 (dst + n) = ↑(dst + n) := small dst (by omega)
    have source : i32 (src + n) = ↑(src + n) := small src (Nat.le_refl _)
    have first : s.copy dst src n = .ok ⟨s.mem.copy dst src n, s.out⟩ := ih (by omega) (by omega)
    rw [copy, first, Interp.bind_ok, target, source, move_fits (by omega) (by omega),
      copy_succ _ _ _ _ (by omega)]

end Store

namespace Expr

mutual

def leave : Expr → Nat → Words → Option Words
  | .TOKEN _ _ v, j, w => (exchanged.leaf v).map (Function.update w j)
  | .OPS _ _ ops exprs, j, w => leaveOps ops exprs j w
  | .FUNCALL _ _ _, _, _ => none

def leaveOps (ops : List TokenType) : List Expr → Nat → Words → Option Words
  | [], _, _ => none
  | e :: es, j, w => do
    let w ← leave e j w
    if ops = [.Sub] ∧ es = [] then (exchanged.neg (w j)).map (Function.update w j) else leaveChain ops es j w

def leaveChain : List TokenType → List Expr → Nat → Words → Option Words
  | [], [], _, w => some w
  | t :: ops, e :: es, j, w => do
    let w ← leave e (j + 1) w
    let acc ← exchanged.op t (w j) (w (j + 1))
    leaveChain ops es j (Function.update w j acc)
  | _, _, _, _ => none

end

def Leaves (r : Except Fault Store) (w : Option Words) : Prop := r.toOption.map Store.words = w

variable {host : Host} {r : Except Fault Store} {w : Option Words} {s : Store} {j : Nat}

theorem Leaves.bind {f : Store → Except Fault Store} {g : Words → Option Words} (h : Leaves r w)
    (h' : ∀ s, r = .ok s → Leaves (f s) (g s.words)) : Leaves (r >>= f) (w.bind g) := by
  subst h
  cases r with
  | error e => rfl
  | ok s => exact h' s rfl

theorem leaves_set (fits : 4 * (j + 1) ≤ MAX_STACK) (v : BitVec 32) :
    Leaves (s.set (4 * j : Nat) v) (some (Function.update s.words j v)) := by
  rw [Store.set_word fits]
  exact congrArg some (Store.words_store s j v)

theorem leaves_applyOp {t : TokenType} (arith : Compiler.IsArith t) (fits : 4 * (j + 2) ≤ MAX_STACK) :
    Leaves (s.applyOp t (4 * j : Nat) (4 * (j + 1) : Nat))
      ((exchanged.op t (s.words j) (s.words (j + 1))).map (Function.update s.words j)) := by
  have operand : s.get (4 * (j + 1) : Nat) = .ok (s.words (j + 1)) := Store.get_word (by omega)
  have acc : s.get (4 * j : Nat) = .ok (s.words j) := Store.get_word (by omega)
  have apply : ∀ op, (∀ x y, exchanged.op t x y = (arithInt op y x).toOption) →
      Leaves (s.apply op (4 * j : Nat) (4 * (j + 1) : Nat))
        ((exchanged.op t (s.words j) (s.words (j + 1))).map (Function.update s.words j)) := by
    intro op same
    rw [Store.apply, operand, Interp.bind_ok, acc, Interp.bind_ok, same]
    cases arithInt op (s.words (j + 1)) (s.words j) with
    | error e => rfl
    | ok v =>
      rw [Interp.bind_ok]
      exact leaves_set (Nat.le_trans (by omega) fits) v
  rcases arith with rfl | rfl | rfl | rfl
  · exact apply .Add fun _ _ => rfl
  · exact apply .Sub fun _ _ => rfl
  · exact apply .Mul fun _ _ => rfl
  · exact apply .Div fun _ _ => rfl

theorem next_slot (fits : 4 * (j + 1) ≤ MAX_STACK) : i32 ((4 * j : Nat) + 4) = (4 * (j + 1) : Nat) := by
  rw [show ((4 * j : Nat) : Int) + 4 = (4 * (j + 1) : Nat) by omega]
  apply i32_of_isInt
  unfold IsInt
  unfold MAX_STACK at fits
  omega

mutual

theorem leaves_run {e : Expr} {x : Int} (ref : e.eval int32 = some x) {j : Nat}
    (fits : 4 * (j + e.scratch) ≤ MAX_STACK) (s : Store) :
    Leaves (e.run host (4 * j : Nat) s) (e.leave j s.words) := by
  cases e with
  | TOKEN start end_ v =>
    simp only [eval, int32] at ref
    split at ref
    · next int =>
      simp only [run, int, leave, exchanged, if_pos]
      exact leaves_set fits _
    · cases ref
  | OPS start end_ ops exprs => exact leaves_runOps ref fits s
  | FUNCALL => cases ref

theorem leaves_runOps {ops : List TokenType} {exprs : List Expr} {x : Int}
    (ref : evalOps int32 ops exprs = some x) {j : Nat} (fits : 4 * (j + scratchOps exprs) ≤ MAX_STACK)
    (s : Store) : Leaves (runOps host ops exprs (4 * j : Nat) s) (leaveOps ops exprs j s.words) := by
  cases exprs with
  | nil => cases ref
  | cons e es =>
    obtain ⟨y, hy, ref⟩ := Option.bind_eq_some_iff.mp ref
    have one : 1 ≤ e.scratch := Compiler.scratch_pos hy
    rw [scratchOps] at fits
    have first : 4 * (j + e.scratch) ≤ MAX_STACK := by omega
    rw [runOps, leaveOps]
    refine (leaves_run hy first s).bind fun s₁ _ => ?_
    split at ref
    · next unary =>
      have room : 4 * (j + 1) ≤ MAX_STACK := by omega
      rw [if_pos unary, if_pos unary, Store.get_word room, Interp.bind_ok]
      exact leaves_set room _
    · next chain =>
      have room : 4 * (j + 1) ≤ MAX_STACK := by omega
      rw [if_neg chain, if_neg chain, next_slot room]
      exact leaves_runChain ref (by omega) s₁

theorem leaves_runChain {ops : List TokenType} {es : List Expr} {acc x : Int}
    (ref : evalChain int32 acc ops es = some x) {j : Nat} (fits : 4 * (j + scratchRest es) ≤ MAX_STACK)
    (s : Store) :
    Leaves (runChain host (4 * j : Nat) (4 * (j + 1) : Nat) ops es s) (leaveChain ops es j s.words) := by
  cases es with
  | nil =>
    cases ops with
    | nil => rfl
    | cons t ops => cases ref
  | cons e es =>
    cases ops with
    | nil => cases ref
    | cons t ops =>
      obtain ⟨y, hy, ref⟩ := Option.bind_eq_some_iff.mp ref
      obtain ⟨z, hz, ref⟩ := Option.bind_eq_some_iff.mp ref
      have one : 1 ≤ e.scratch := Compiler.scratch_pos hy
      rw [scratchRest] at fits
      rw [runChain, leaveChain]
      refine (leaves_run hy (by omega) s).bind fun s₁ _ => ?_
      have op := leaves_applyOp (s := s₁) (j := j) (Compiler.isArith_of_op hz) (by omega)
      have all := op.bind (g := leaveChain ops es j) fun s₂ _ => leaves_runChain ref (by omega) s₂
      rw [Option.bind_map] at all
      exact all

end

variable {w₁ w₂ : Words}

mutual

theorem leave_below (e : Expr) {j : Nat} {w w' : Words} (h : e.leave j w = some w') {i : Nat} (below : i < j) :
    w' i = w i := by
  cases e with
  | TOKEN start end_ v =>
    obtain ⟨x, -, rfl⟩ := Option.map_eq_some_iff.mp h
    exact Function.update_of_ne below.ne _ _
  | OPS start end_ ops exprs => exact leaveOps_below ops exprs h below
  | FUNCALL => cases h

theorem leaveOps_below (ops : List TokenType) (exprs : List Expr) {j : Nat} {w w' : Words}
    (h : leaveOps ops exprs j w = some w') {i : Nat} (below : i < j) : w' i = w i := by
  cases exprs with
  | nil => cases h
  | cons e es =>
    obtain ⟨w₁, first, rest⟩ := Option.bind_eq_some_iff.mp h
    refine Eq.trans ?_ (leave_below e first below)
    split at rest
    · obtain ⟨x, -, rfl⟩ := Option.map_eq_some_iff.mp rest
      exact Function.update_of_ne below.ne _ _
    · exact leaveChain_below ops es rest below

theorem leaveChain_below (ops : List TokenType) (es : List Expr) {j : Nat} {w w' : Words}
    (h : leaveChain ops es j w = some w') {i : Nat} (below : i < j) : w' i = w i := by
  cases ops with
  | nil =>
    cases es with
    | nil =>
      cases h
      rfl
    | cons e es => cases h
  | cons t ops =>
    cases es with
    | nil => cases h
    | cons e es =>
      obtain ⟨w₁, first, rest⟩ := Option.bind_eq_some_iff.mp h
      obtain ⟨acc, -, rest⟩ := Option.bind_eq_some_iff.mp rest
      refine (leaveChain_below ops es rest below).trans ?_
      rw [Function.update_of_ne below.ne]
      exact leave_below e first (Nat.lt_succ_of_lt below)

end

def SameFrom (j : Nat) (w w' : Words) : Prop := ∀ i, j ≤ i → w i = w' i

theorem SameFrom.update (h : SameFrom j w₁ w₂) (i : Nat) (v : BitVec 32) :
    SameFrom j (Function.update w₁ i v) (Function.update w₂ i v) := by
  intro k above
  by_cases same : k = i
  · subst same
    rw [Function.update_self, Function.update_self]
  · rw [Function.update_of_ne same, Function.update_of_ne same]
    exact h k above

theorem rel_bind {R S : Words → Words → Prop} {a b : Option Words} {f g : Words → Option Words}
    (h : Option.Rel R a b) (h' : ∀ x y, a = some x → b = some y → R x y → Option.Rel S (f x) (g y)) :
    Option.Rel S (a.bind f) (b.bind g) := by
  cases h with
  | some related => exact h' _ _ rfl rfl related
  | none => exact .none

mutual

theorem leave_congr (e : Expr) {j : Nat} {w w' : Words} (h : SameFrom j w w') :
    Option.Rel (SameFrom j) (e.leave j w) (e.leave j w') := by
  cases e with
  | TOKEN start end_ v =>
    rw [leave, leave]
    cases exchanged.leaf v with
    | none => exact .none
    | some x => exact .some (h.update j x)
  | OPS start end_ ops exprs => exact leaveOps_congr ops exprs h
  | FUNCALL => exact .none

theorem leaveOps_congr (ops : List TokenType) (exprs : List Expr) {j : Nat} {w w' : Words}
    (h : SameFrom j w w') : Option.Rel (SameFrom j) (leaveOps ops exprs j w) (leaveOps ops exprs j w') := by
  cases exprs with
  | nil => exact .none
  | cons e es =>
    rw [leaveOps, leaveOps]
    refine rel_bind (leave_congr e h) fun w₁ w₂ _ _ same => ?_
    split
    · rw [same j (Nat.le_refl j)]
      cases exchanged.neg (w₂ j) with
      | none => exact .none
      | some x => exact .some (same.update j x)
    · exact leaveChain_congr ops es same

theorem leaveChain_congr (ops : List TokenType) (es : List Expr) {j : Nat} {w w' : Words}
    (h : SameFrom j w w') : Option.Rel (SameFrom j) (leaveChain ops es j w) (leaveChain ops es j w') := by
  cases ops with
  | nil =>
    cases es with
    | nil => exact .some h
    | cons e es => exact .none
  | cons t ops =>
    cases es with
    | nil => exact .none
    | cons e es =>
      rw [leaveChain, leaveChain]
      have above : SameFrom (j + 1) w w' := fun i at_ => h i (Nat.le_of_succ_le at_)
      refine rel_bind (leave_congr e above) fun w₁ w₂ first second same => ?_
      have acc : w₁ j = w₂ j := by
        rw [leave_below e first (Nat.lt_succ_self j), leave_below e second (Nat.lt_succ_self j)]
        exact h j (Nat.le_refl j)
      have both : SameFrom j w₁ w₂ := fun i at_ => (Nat.eq_or_lt_of_le at_).elim (· ▸ acc) (same i)
      rw [acc, same (j + 1) (Nat.le_refl _)]
      cases exchanged.op t (w₂ j) (w₂ (j + 1)) with
      | none => exact .none
      | some v => exact leaveChain_congr ops es (both.update j v)

end

end Expr

namespace Expr

mutual

theorem shaped_of_eval {e : Expr} {x : Int} (ref : e.eval int32 = some x) : e.Shaped := by
  cases e with
  | TOKEN => trivial
  | OPS start end_ ops exprs => exact shaped_of_evalOps ref
  | FUNCALL => cases ref

theorem shaped_of_evalOps {ops : List TokenType} {exprs : List Expr} {x : Int}
    (ref : evalOps int32 ops exprs = some x) :
    (exprs.length = ops.length + 1 ∨ ops = [.Sub] ∧ exprs.length = 1) ∧ ShapedAll exprs := by
  cases exprs with
  | nil => cases ref
  | cons e es =>
    obtain ⟨y, hy, ref⟩ := Option.bind_eq_some_iff.mp ref
    have first : e.Shaped := shaped_of_eval hy
    split at ref
    · next unary =>
      obtain ⟨rfl, rfl⟩ := unary
      exact ⟨.inr ⟨rfl, rfl⟩, first, trivial⟩
    · obtain ⟨count, rest⟩ := shaped_of_evalChain ref
      exact ⟨.inl (congrArg Nat.succ count), first, rest⟩

theorem shaped_of_evalChain {ops : List TokenType} {es : List Expr} {acc x : Int}
    (ref : evalChain int32 acc ops es = some x) : es.length = ops.length ∧ ShapedAll es := by
  cases es with
  | nil =>
    cases ops with
    | nil => exact ⟨rfl, trivial⟩
    | cons t ops => cases ref
  | cons e es =>
    cases ops with
    | nil => cases ref
    | cons t ops =>
      obtain ⟨y, hy, ref⟩ := Option.bind_eq_some_iff.mp ref
      obtain ⟨z, hz, ref⟩ := Option.bind_eq_some_iff.mp ref
      obtain ⟨count, rest⟩ := shaped_of_evalChain ref
      exact ⟨congrArg Nat.succ count, shaped_of_eval hy, rest⟩

end

end Expr

namespace Arith

variable {host : Host} {nodes : List Node} {xs : List Bytes} {x : Bytes} {i j : Nat} {m : Scope} {l l' : Layout}
  {s s' : Store}

def Unassigned (x : Bytes) (nodes : List Node) : Prop :=
  ∀ asgm, .Assignment asgm ∈ nodes → asgm.var_name ≠ x

/-- Declarations of `int` locals with new names, and assignments to declared ones; all expressions
are integer arithmetic. -/
def IntBody : List Bytes → List Node → Prop
  | _, [] => True
  | xs, .Declaration decl :: nodes =>
    (∃ t, decl.var_type = some t ∧ t.name_ = bytes "int") ∧ decl.var_name ∉ xs ∧
      decl.expr.eval int32 ≠ none ∧ IntBody (decl.var_name :: xs) nodes
  | xs, .Assignment asgm :: nodes => asgm.var_name ∈ xs ∧ asgm.expr.eval int32 ≠ none ∧ IntBody xs nodes
  | _, _ :: _ => False

/-- A local that is not assigned finds the value of its initialiser in its slot, left over from
earlier expressions or from before.  Everything lies inside the stack. -/
def LeftOver : Nat → List Node → Words → Prop
  | j, .Declaration decl :: nodes, w =>
    4 * (j + 1) ≤ MAX_STACK ∧ (Unassigned decl.var_name nodes → w j = reference decl.expr) ∧
      LeftOver (j + 1) nodes w
  | j, .Assignment asgm :: nodes, w =>
    4 * (j + asgm.expr.scratch) ≤ MAX_STACK ∧ ∃ w', asgm.expr.leave j w = some w' ∧ LeftOver j nodes w'
  | _, _, _ => True

structure Aligned (m : Scope) (xs : List Bytes) (j : Nat) : Prop where
  declared : ∀ x ∈ xs, ∃ i < j, Slot m x (4 * i)
  only : ∀ x var, m x = some var → x ∈ xs
  different : ∀ x y i, Slot m x (4 * i) → Slot m y (4 * i) → x = y

theorem aligned_nil : Aligned (fun _ => none) [] 0 where
  declared _ h := nomatch h
  only _ _ h := nomatch h
  different _ _ _ h := by
    obtain ⟨var, found, -⟩ := h
    cases found

theorem Aligned.insert (h : Aligned m xs j) (new : x ∉ xs) :
    Extends m (Function.update m x (some ⟨x, none, 4, (4 * j : Nat)⟩)) ∧
      Aligned (Function.update m x (some ⟨x, none, 4, (4 * j : Nat)⟩)) (x :: xs) (j + 1) ∧
      Slot (Function.update m x (some ⟨x, none, 4, (4 * j : Nat)⟩)) x (4 * j) := by
  have kept : Extends m (Function.update m x (some ⟨x, none, 4, (4 * j : Nat)⟩)) := by
    intro y var found
    have other : y ≠ x := fun same => new (same ▸ h.only y var found)
    rw [Function.update_of_ne other]
    exact found
  have slot : Slot (Function.update m x (some ⟨x, none, 4, (4 * j : Nat)⟩)) x (4 * j) :=
    ⟨_, Function.update_self _ _ _, rfl, rfl⟩
  have below : ∀ y i, Slot m y (4 * i) → i < j := by
    intro y i old
    obtain ⟨var, found, -⟩ := id old
    obtain ⟨i', inside, slot'⟩ := h.declared y (h.only y var found)
    have same := old.unique slot'
    omega
  refine ⟨kept, ⟨List.forall_mem_cons.mpr ⟨⟨j, Nat.lt_succ_self j, slot⟩, fun y inside => ?_⟩, ?_, ?_⟩, slot⟩
  · obtain ⟨i, inside, old⟩ := h.declared y inside
    exact ⟨i, Nat.lt_succ_of_lt inside, old.extends kept⟩
  · intro y var found
    by_cases same : y = x
    · exact same ▸ .head _
    · rw [Function.update_of_ne same] at found
      exact .tail _ (h.only y var found)
  · intro y z i hy hz
    rcases slot_update hy with ⟨rfl, ha⟩ | ⟨_, hy'⟩
    · rcases slot_update hz with ⟨rfl, -⟩ | ⟨_, hz'⟩
      · rfl
      · have inside := below z i hz'
        have same : ((4 * j : Nat) : Int) = (4 * i : Nat) := ha
        omega
    · rcases slot_update hz with ⟨rfl, ha⟩ | ⟨_, hz'⟩
      · have inside := below y i hy'
        have same : ((4 * j : Nat) : Int) = (4 * i : Nat) := ha
        omega
      · exact h.different y z i hy' hz'

theorem leftOver_congr {w w' : Words} (h : Expr.SameFrom j w w') :
    LeftOver j nodes w → LeftOver j nodes w' := by
  induction nodes generalizing j w w' with
  | nil => exact fun _ => trivial
  | cons node nodes ih =>
    cases node with
    | Declaration decl =>
      rintro ⟨fits, lucky, rest⟩
      exact ⟨fits, fun un => (h j (Nat.le_refl j)).symm.trans (lucky un),
        ih (fun i above => h i (Nat.le_of_succ_le above)) rest⟩
    | Assignment asgm =>
      rintro ⟨fits, w₁, some, rest⟩
      have related := Expr.leave_congr asgm.expr h
      rw [some] at related
      cases found : asgm.expr.leave j w' with
      | none =>
        rw [found] at related
        cases related
      | some w₂ =>
        rw [found] at related
        cases related with
        | some same => exact ⟨fits, w₂, found, ih same rest⟩
    | Expr | If | Function | Return | For | Typedef => exact fun _ => trivial

theorem declare_int {decl : Declaration} (int : ∃ t, decl.var_type = some t ∧ t.name_ = bytes "int")
    (new : l.vars decl.var_name = none) (top : l.top = (4 * j : Nat)) :
    l.declare host TypeTable.initBasicInfos decl = ⟨i32 ((4 * j : Nat) + 4),
      Function.update l.vars decl.var_name (some ⟨decl.var_name, none, 4, (4 * j : Nat)⟩)⟩ := by
  obtain ⟨t, typed, name⟩ := int
  simp only [Layout.declare, typed, Option.bind_some, name, findByName_int, Scope.emplace, new, top]

theorem run_assignment {asgm : Assignment} (slot : Slot l.vars asgm.var_name (4 * i))
    (top : l.top = (4 * j : Nat)) :
    Meaning.runNode host TypeTable.initBasicInfos (.Assignment asgm) l s =
      (asgm.expr.run host (4 * j : Nat) s >>= fun s' => s'.copy (4 * i : Nat) (4 * j : Nat) 4) >>=
        fun s' => .ok (l, s') := by
  obtain ⟨var, found, size, address⟩ := slot
  have same : l.subscript asgm.var_name = l := by
    simp only [Layout.subscript, Scope.emplace, found]
  simp only [Meaning.runNode, same, found, size, address, top, bind_assoc]
  rfl

theorem assignment_runs {asgm : Assignment} (ref : asgm.expr.eval int32 ≠ none)
    (slot : Slot l.vars asgm.var_name (4 * i)) (below : i < j) (top : l.top = (4 * j : Nat)) {w : Words}
    (fits : 4 * (j + asgm.expr.scratch) ≤ MAX_STACK) (left : asgm.expr.leave j s.words = some w) :
    ∃ s', Meaning.runNode host TypeTable.initBasicInfos (.Assignment asgm) l s = .ok (l, s') ∧
      s'.words = Function.update w i (w j) := by
  obtain ⟨x, value⟩ := Option.ne_none_iff_exists'.mp ref
  have one : 1 ≤ asgm.expr.scratch := Compiler.scratch_pos value
  have leaves : Expr.Leaves (asgm.expr.run host (4 * j : Nat) s) (asgm.expr.leave j s.words) :=
    Expr.leaves_run value fits s
  rw [left] at leaves
  rw [run_assignment slot top]
  cases run : asgm.expr.run host (4 * j : Nat) s with
  | error e =>
    rw [run] at leaves
    cases leaves
  | ok s₁ =>
    rw [run] at leaves
    obtain rfl : s₁.words = w := Option.some.inj leaves
    have copied : s₁.copy (4 * i : Nat) (4 * j : Nat) 4 = .ok ⟨s₁.mem.copy (4 * i) (4 * j) 4, s₁.out⟩ :=
      Store.copy_fits (by omega) (by omega)
    rw [Interp.bind_ok, copied, Interp.bind_ok]
    exact ⟨_, rfl, Store.words_copy s₁ i j⟩

theorem assignment_ran {asgm : Assignment} (ref : asgm.expr.eval int32 ≠ none)
    (slot : Slot l.vars asgm.var_name (4 * i)) (below : i < j) (top : l.top = (4 * j : Nat))
    (run : Meaning.runNode host TypeTable.initBasicInfos (.Assignment asgm) l s = .ok (l', s')) :
    4 * (j + asgm.expr.scratch) ≤ MAX_STACK ∧ ∃ w, asgm.expr.leave j s.words = some w ∧ l' = l ∧
      s'.words = Function.update w i (w j) := by
  obtain ⟨x, value⟩ := Option.ne_none_iff_exists'.mp ref
  have steps := run
  rw [run_assignment slot top] at steps
  obtain ⟨s₂, steps, -⟩ := Control.ok_bind steps
  obtain ⟨s₁, first, -⟩ := Control.ok_bind steps
  have fits : 4 * (j + asgm.expr.scratch) ≤ MAX_STACK := by
    have inside := (Expr.run_fits value first).2
    omega
  have leaves : Expr.Leaves (asgm.expr.run host (4 * j : Nat) s) (asgm.expr.leave j s.words) :=
    Expr.leaves_run value fits s
  rw [first] at leaves
  obtain ⟨s'', run', words⟩ : ∃ s'', Meaning.runNode host TypeTable.initBasicInfos (.Assignment asgm) l s =
      .ok (l, s'') ∧ s''.words = Function.update s₁.words i (s₁.words j) :=
    assignment_runs ref slot below top fits leaves.symm
  cases run.symm.trans run'
  exact ⟨fits, s₁.words, leaves.symm, rfl, words⟩

theorem assignment_layout {asgm : Assignment}
    (run : Meaning.runNode host TypeTable.initBasicInfos (.Assignment asgm) l s = .ok (l', s')) :
    l' = l.subscript asgm.var_name := by
  simp only [Meaning.runNode] at run
  split at run
  · cases run
    rfl
  · obtain ⟨s₁, -, run⟩ := Control.ok_bind run
    obtain ⟨s₂, -, run⟩ := Control.ok_bind run
    cases run
    rfl

theorem runNodes_kept (body : IntBody xs nodes)
    (run : Meaning.runNodes host TypeTable.initBasicInfos nodes l s = .ok (l', s')) :
    Extends l.vars l'.vars := by
  induction nodes generalizing xs l s with
  | nil =>
    cases run
    exact fun _ _ => id
  | cons node nodes ih =>
    obtain ⟨⟨l₁, s₁⟩, first, rest⟩ := Control.ok_bind run
    cases node with
    | Declaration decl =>
      cases first
      obtain ⟨-, -, -, body⟩ := body
      exact fun y var found => ih body rest y var (Layout.lay_kept found (.declaration decl))
    | Assignment asgm =>
      obtain ⟨-, -, body⟩ := body
      cases assignment_layout first
      exact fun y var found => ih body rest y var (Layout.emplace_kept found)
    | Expr | If | Function | Return | For | Typedef => exact body.elim

theorem assigned_fits (body : IntBody xs nodes) (slot : Slot l.vars x (4 * i)) (low : 4 * i ≤ MAX_STACK)
    (run : Meaning.runNodes host TypeTable.initBasicInfos nodes l s = .ok (l', s'))
    (assigned : ¬ Unassigned x nodes) : 4 * (i + 1) ≤ MAX_STACK := by
  induction nodes generalizing xs l s with
  | nil => exact absurd nofun assigned
  | cons node nodes ih =>
    obtain ⟨⟨l₁, s₁⟩, first, rest⟩ := Control.ok_bind run
    cases node with
    | Declaration decl =>
      cases first
      obtain ⟨-, -, -, body⟩ := body
      refine ih body (slot.extends fun y var found => Layout.lay_kept found (.declaration decl)) rest ?_
      intro un
      exact assigned fun asgm inside => un asgm ((List.mem_cons.mp inside).resolve_left nofun)
    | Assignment asgm =>
      obtain ⟨-, -, body⟩ := body
      by_cases same : asgm.var_name = x
      · -- The copy of the last byte.
        obtain ⟨var, found, size, address⟩ := slot
        have kept : (l.subscript asgm.var_name).vars asgm.var_name = some var :=
          Layout.emplace_kept (same ▸ found)
        simp only [Meaning.runNode, kept, size, address] at first
        obtain ⟨s₂, -, first⟩ := Control.ok_bind first
        obtain ⟨s₃, copied, -⟩ := Control.ok_bind first
        obtain ⟨s₄, -, moved⟩ := Control.ok_bind copied
        have last : i32 ((4 * i : Nat) + (3 : Nat)) = (4 * i + 3 : Nat) := i32_of_isInt (by
          unfold IsInt
          unfold MAX_STACK at low
          omega)
        unfold Store.move at moved
        split at moved
        · next fits =>
          have target := fits.2.2
          rw [last] at target
          omega
        · cases moved
      · refine ih body ?_ rest fun un => assigned fun other inside => ?_
        · rw [assignment_layout first]
          exact slot.extends fun y var found => Layout.emplace_kept found
        · rcases List.mem_cons.mp inside with head | tail
          · cases head
            exact same
          · exact un other tail
    | Expr | If | Function | Return | For | Typedef => exact body.elim

theorem unassigned_kept (body : IntBody xs nodes) (left : LeftOver j nodes s.words)
    (aligned : Aligned l.vars xs j) (top : l.top = (4 * j : Nat)) (slot : Slot l.vars x (4 * i)) (below : i < j)
    (un : Unassigned x nodes)
    (run : Meaning.runNodes host TypeTable.initBasicInfos nodes l s = .ok (l', s')) :
    s'.words i = s.words i := by
  induction nodes generalizing xs l s j with
  | nil =>
    cases run
    rfl
  | cons node nodes ih =>
    obtain ⟨⟨l₁, s₁⟩, first, rest⟩ := Control.ok_bind run
    cases node with
    | Declaration decl =>
      cases first
      obtain ⟨int, new, -, body⟩ := body
      obtain ⟨fits, -, left⟩ := left
      have fresh : l.vars decl.var_name = none := Option.eq_none_iff_forall_ne_some.mpr fun var found =>
        new (aligned.only _ var found)
      obtain ⟨kept, aligned', -⟩ := aligned.insert new
      rw [declare_int int fresh top, Expr.next_slot fits] at rest
      exact ih body left aligned' rfl (slot.extends kept) (Nat.lt_succ_of_lt below)
        (fun asgm inside => un asgm (.tail _ inside)) rest
    | Assignment asgm =>
      obtain ⟨declared, ref, body⟩ := body
      obtain ⟨i', below', slot'⟩ := aligned.declared _ declared
      obtain ⟨-, w, leaves, rfl, words⟩ := assignment_ran ref slot' below' top first
      obtain ⟨-, w', leaves', left⟩ := left
      cases leaves.symm.trans leaves'
      have other : i ≠ i' := by
        rintro rfl
        exact un asgm (.head _) (aligned.different _ _ _ slot' slot)
      have above : Expr.SameFrom j w s₁.words := by
        intro k at_
        have different : k ≠ i' := by omega
        rw [words, Function.update_of_ne different]
      have same : s₁.words i = s.words i := by
        rw [words, Function.update_of_ne other]
        exact Expr.leave_below _ leaves below
      exact (ih body (leftOver_congr above left) aligned top slot below
        (fun asgm inside => un asgm (.tail _ inside)) rest).trans same
    | Expr | If | Function | Return | For | Typedef => exact body.elim

theorem IntBody.fresh {decl : Declaration} (body : IntBody xs nodes) (inside : .Declaration decl ∈ nodes) :
    decl.var_name ∉ xs := by
  induction nodes generalizing xs with
  | nil => cases inside
  | cons node nodes ih =>
    cases node with
    | Declaration first =>
      obtain ⟨-, new, -, body⟩ := body
      rcases List.mem_cons.mp inside with head | tail
      · cases head
        exact new
      · exact fun declared => ih body tail (.tail _ declared)
    | Assignment asgm => exact ih body.2.2 ((List.mem_cons.mp inside).resolve_left nofun)
    | Expr | If | Function | Return | For | Typedef => exact body.elim

theorem unassigned_declaration {decl : Declaration} :
    Unassigned x (.Declaration decl :: nodes) ↔ Unassigned x nodes := by
  constructor
  · exact fun un asgm inside => un asgm (.tail _ inside)
  · exact fun un asgm inside => un asgm ((List.mem_cons.mp inside).resolve_left nofun)

theorem unassigned_assignment {asgm : Assignment} :
    Unassigned x (.Assignment asgm :: nodes) ↔ asgm.var_name ≠ x ∧ Unassigned x nodes := by
  constructor
  · exact fun un => ⟨un asgm (.head _), fun other inside => un other (.tail _ inside)⟩
  · rintro ⟨first, un⟩ other inside
    rcases List.mem_cons.mp inside with head | tail
    · cases head
      exact first
    · exact un other tail

/-- Running the body ends, with the value of its initialiser in every local that is not assigned. -/
def Effective (host : Host) (nodes : List Node) (l : Layout) (s : Store) : Prop :=
  ∃ l' s', Meaning.runNodes host TypeTable.initBasicInfos nodes l s = .ok (l', s') ∧
    ∀ decl, .Declaration decl ∈ nodes → Unassigned decl.var_name nodes →
      ∃ a, Slot l'.vars decl.var_name a ∧ a + 4 ≤ MAX_STACK ∧ s'.mem.load 32 a = reference decl.expr

theorem Aligned.declare (host : Host) {decl : Declaration}
    (int : ∃ t, decl.var_type = some t ∧ t.name_ = bytes "int") (new : decl.var_name ∉ xs)
    (aligned : Aligned l.vars xs j) (top : l.top = (4 * j : Nat)) :
    Aligned (l.declare host TypeTable.initBasicInfos decl).vars (decl.var_name :: xs) (j + 1) ∧
      Slot (l.declare host TypeTable.initBasicInfos decl).vars decl.var_name (4 * j) ∧
      (l.declare host TypeTable.initBasicInfos decl).top = i32 ((4 * j : Nat) + 4) := by
  have fresh : l.vars decl.var_name = none := Option.eq_none_iff_forall_ne_some.mpr fun var found =>
    new (aligned.only _ var found)
  obtain ⟨-, aligned', slot⟩ := aligned.insert new
  rw [declare_int int fresh top]
  exact ⟨aligned', slot, by simp only⟩

theorem effective_of_leftOver (body : IntBody xs nodes) (aligned : Aligned l.vars xs j)
    (top : l.top = (4 * j : Nat)) (left : LeftOver j nodes s.words) : Effective host nodes l s := by
  induction nodes generalizing xs l s j with
  | nil => exact ⟨l, s, rfl, nofun⟩
  | cons node nodes ih =>
    cases node with
    | Declaration decl =>
      obtain ⟨int, new, -, body⟩ := body
      obtain ⟨fits, lucky, left⟩ := left
      obtain ⟨aligned', slot, top'⟩ := aligned.declare host int new top
      rw [Expr.next_slot fits] at top'
      obtain ⟨l', s', run, all⟩ := ih body aligned' top' left
      refine ⟨l', s', run, fun other inside un => ?_⟩
      have un' : Unassigned other.var_name nodes := unassigned_declaration.mp un
      rcases List.mem_cons.mp inside with head | tail
      · cases head
        have kept : s'.words j = s.words j :=
          unassigned_kept body left aligned' top' slot (Nat.lt_succ_self j) un' run
        exact ⟨4 * j, slot.extends (runNodes_kept body run), fits, kept.trans (lucky un')⟩
      · exact all other tail un'
    | Assignment asgm =>
      obtain ⟨declared, ref, body⟩ := body
      obtain ⟨i, below, slot⟩ := aligned.declared _ declared
      obtain ⟨fits, w, leaves, left⟩ := left
      obtain ⟨s₁, first, words⟩ : ∃ s₁, Meaning.runNode host TypeTable.initBasicInfos (.Assignment asgm) l s =
          .ok (l, s₁) ∧ s₁.words = Function.update w i (w j) := assignment_runs ref slot below top fits leaves
      have above : Expr.SameFrom j w s₁.words := by
        intro k at_
        have different : k ≠ i := by omega
        rw [words, Function.update_of_ne different]
      obtain ⟨l', s', run, all⟩ := ih body aligned top (leftOver_congr above left)
      refine ⟨l', s', ?_, fun decl inside un => ?_⟩
      · rw [Meaning.runNodes, first, Interp.bind_ok]
        exact run
      · exact all decl ((List.mem_cons.mp inside).resolve_left nofun) (unassigned_assignment.mp un).2
    | Expr | If | Function | Return | For | Typedef => exact body.elim

theorem leftOver_of_effective (body : IntBody xs nodes) (aligned : Aligned l.vars xs j)
    (top : l.top = (4 * j : Nat)) (low : 4 * j ≤ MAX_STACK) (effective : Effective host nodes l s) :
    LeftOver j nodes s.words := by
  induction nodes generalizing xs l s j with
  | nil => trivial
  | cons node nodes ih =>
    obtain ⟨l', s', run, all⟩ := effective
    obtain ⟨⟨l₁, s₁⟩, first, rest⟩ := Control.ok_bind run
    cases node with
    | Declaration decl =>
      cases first
      obtain ⟨int, new, -, body⟩ := body
      obtain ⟨aligned', slot, top'⟩ := aligned.declare host int new top
      have found : Unassigned decl.var_name nodes →
          4 * (j + 1) ≤ MAX_STACK ∧ s'.words j = reference decl.expr := by
        intro un
        obtain ⟨a, last, fits, holds⟩ := all decl (.head _) (unassigned_declaration.mpr un)
        obtain rfl : a = 4 * j := last.unique (slot.extends (runNodes_kept body rest))
        exact ⟨fits, holds⟩
      have fits : 4 * (j + 1) ≤ MAX_STACK := by
        by_cases un : Unassigned decl.var_name nodes
        · exact (found un).1
        · exact assigned_fits body slot low rest un
      rw [Expr.next_slot fits] at top'
      have left : LeftOver (j + 1) nodes s.words := ih body aligned' top' fits
        ⟨l', s', rest, fun other inside un => all other (.tail _ inside) (unassigned_declaration.mpr un)⟩
      refine ⟨fits, fun un => ?_, left⟩
      have kept : s'.words j = s.words j :=
        unassigned_kept body left aligned' top' slot (Nat.lt_succ_self j) un rest
      exact kept.symm.trans (found un).2
    | Assignment asgm =>
      obtain ⟨declared, ref, body⟩ := body
      obtain ⟨i, below, slot⟩ := aligned.declared _ declared
      obtain ⟨fits, w, leaves, rfl, words⟩ := assignment_ran ref slot below top first
      have above : Expr.SameFrom j s₁.words w := by
        intro k at_
        have different : k ≠ i := by omega
        rw [words, Function.update_of_ne different]
      have left : LeftOver j nodes s₁.words := ih body aligned top low ⟨l', s', rest, fun decl inside un =>
        all decl (.tail _ inside) (unassigned_assignment.mpr
          ⟨fun same => body.fresh inside (same ▸ declared), un⟩)⟩
      exact ⟨fits, w, leaves, leftOver_congr above left⟩
    | Expr | If | Function | Return | For | Typedef => exact body.elim

theorem effective_iff (body : IntBody xs nodes) (aligned : Aligned l.vars xs j) (top : l.top = (4 * j : Nat))
    (low : 4 * j ≤ MAX_STACK) : Effective host nodes l s ↔ LeftOver j nodes s.words :=
  ⟨leftOver_of_effective body aligned top low, effective_of_leftOver body aligned top⟩

theorem IntBody.shaped (body : IntBody xs nodes) : Node.ShapedAll nodes := by
  induction nodes generalizing xs with
  | nil => trivial
  | cons node nodes ih =>
    cases node with
    | Declaration decl =>
      obtain ⟨⟨t, typed, -⟩, -, -, body⟩ := body
      refine ⟨?_, ih body⟩
      rw [Node.Shaped, typed]
      nofun
    | Assignment asgm =>
      obtain ⟨-, ref, body⟩ := body
      obtain ⟨x, value⟩ := Option.ne_none_iff_exists'.mp ref
      exact ⟨Expr.shaped_of_eval value, ih body⟩
    | Expr | If | Function | Return | For | Typedef => exact body.elim

def InitOn (m : Mem) : ByteCodeVM := { ByteCodeVM.Init with stack_ := m }

def Initialises (host : Host) (F : FloatOps) (ast : Root) (nodes : List Node) (m : Mem) : Prop :=
  ∃ c vm, Compiler.compile host ast .init = some c ∧
    (∀ ticks, c.program_.length ≤ ticks → ByteCodeVM.Run F c.program_ ticks (InitOn m) = .ok vm) ∧
    ∀ decl, .Declaration decl ∈ nodes → Unassigned decl.var_name nodes →
      ∃ a, Slot c.current_func_.var_address_map decl.var_name a ∧ a + 4 ≤ MAX_STACK ∧
        vm.stack_.load 32 a = reference decl.expr

theorem run_body {ast : Root} {start end_ start' end' : Loc} {func_name : Bytes}
    {args : List (Bytes × Bytes)} {returns : List Bytes} (host : Host) (F : FloatOps) (m : Mem)
    (one : ast.nodes = [.Function start end_ func_name args returns (.mk start' end' nodes)])
    (shaped : Node.ShapedAll nodes) :
    ∃ c, Compiler.compile host ast .init = some c ∧
      (∀ ticks, c.program_.length ≤ ticks → ByteCodeVM.Run F c.program_ ticks (InitOn m) =
        (Meaning.runNodes host TypeTable.initBasicInfos nodes .empty ⟨m, []⟩).map fun p =>
          (InitOn m).advance c.program_.length p.2) ∧
      ∀ l s, Meaning.runNodes host TypeTable.initBasicInfos nodes .empty ⟨m, []⟩ = .ok (l, s) →
        l.vars = c.current_func_.var_address_map := by
  have basic : TypeTable.Named basicNames Compiler.init.type_table_ := TypeTable.named_basic
  obtain ⟨c₁, compiled, -⟩ : ∃ c₁,
      Compiler.compile_nodes host nodes (Compiler.init.setCurrentFunc (.new func_name)) = some c₁ ∧ _ :=
    Compiler.compile_nodes_reports nodes shaped basic
  have generating : (Compiler.init.setCurrentFunc (.new func_name)).Generating :=
    ⟨nofun, (by decide : IsInt 0)⟩
  have simulates := Compiler.simulates_nodes host F nodes generating compiled
  have emitted := (Compiler.generating_nodes host nodes generating compiled).emitted
  obtain ⟨c, hcompile, hprogram, hfunc, -⟩ := Compiler.compile_single host one compiled
    simulates.kept.program simulates.kept.funcs
  obtain ⟨code, instructions, performs⟩ := simulates.code
  have program : c.program_ = code := hprogram.trans instructions
  refine ⟨c, hcompile, fun ticks enough => ?_, fun l s run => ?_⟩
  · have straight : ∀ i ∈ c.program_, (ByteCodeVM.interp F).Straight i := fun i inside =>
      ByteCodeVM.straight_emitted (emitted i (hprogram ▸ inside))
    rw [ByteCodeVM.Run, Interp.run_straight_program straight rfl rfl enough, program,
      performs (InitOn m) ⟨rfl, rfl⟩]
    change Except.map _ (Except.map _ (Meaning.runNodes host TypeTable.initBasicInfos nodes .empty ⟨m, []⟩)) = _
    cases Meaning.runNodes host TypeTable.initBasicInfos nodes .empty ⟨m, []⟩ with
    | error e => rfl
    | ok p => rfl
  · rw [simulates.layout ⟨m, []⟩ l s run, hfunc]
    rfl

/-- Initialisers are not compiled, so that their values have to be there already. -/
theorem initialises_iff {ast : Root} {start end_ start' end' : Loc} {func_name : Bytes}
    {args : List (Bytes × Bytes)} {returns : List Bytes} {F : FloatOps} {m : Mem}
    (one : ast.nodes = [.Function start end_ func_name args returns (.mk start' end' nodes)])
    (body : IntBody [] nodes) :
    Initialises host F ast nodes m ↔ LeftOver 0 nodes (Store.words ⟨m, []⟩) := by
  obtain ⟨c, compiled, runs, layout⟩ := run_body host F m one body.shaped
  have effective : Effective host nodes .empty ⟨m, []⟩ ↔ LeftOver 0 nodes (Store.words ⟨m, []⟩) :=
    effective_iff body aligned_nil rfl (Nat.zero_le _)
  rw [← effective]
  constructor
  · rintro ⟨c', vm, compiled', run, all⟩
    cases compiled.symm.trans compiled'
    have ran := (runs _ (Nat.le_refl _)).symm.trans (run _ (Nat.le_refl _))
    cases found : Meaning.runNodes host TypeTable.initBasicInfos nodes .empty ⟨m, []⟩ with
    | error e =>
      rw [found] at ran
      cases ran
    | ok p =>
      rw [found] at ran
      cases ran
      refine ⟨p.1, p.2, found, ?_⟩
      rw [layout _ _ found]
      exact all
  · rintro ⟨l, s, run, all⟩
    rw [layout l s run] at all
    exact ⟨c, _, compiled, fun ticks enough => (runs ticks enough).trans (by rw [run]; rfl), all⟩

theorem initialises_leftover :
    Initialises .plain .unused (mainOf [.Declaration (intLocal (bytes "a") (intToken 0)),
      .Assignment ⟨.init, .init, bytes "a", intToken 7⟩, .Declaration (intLocal (bytes "b") (intToken 7))])
      [.Declaration (intLocal (bytes "a") (intToken 0)),
        .Assignment ⟨.init, .init, bytes "a", intToken 7⟩, .Declaration (intLocal (bytes "b") (intToken 7))]
      fun _ => 0 := by
  refine (initialises_iff rfl ?_).mpr ?_
  · exact ⟨⟨_, rfl, rfl⟩, nofun, by decide, .head _, by decide, ⟨_, rfl, rfl⟩, by decide, by decide, trivial⟩
  · refine ⟨by decide, fun un => absurd rfl (un _ (.head _)), by decide, _, rfl, by decide, fun _ => ?_, trivial⟩
    rw [Function.update_self]
    decide

/-- `var x int = 5` leaves 0 in `x`. -/
theorem initialiser_lost :
    IntBody [] [.Declaration (intLocal (bytes "x") (intToken 5))] ∧
    ¬ Initialises .plain .unused (mainOf [.Declaration (intLocal (bytes "x") (intToken 5))])
      [.Declaration (intLocal (bytes "x") (intToken 5))] fun _ => 0 := by
  refine ⟨⟨⟨_, rfl, rfl⟩, nofun, by decide, trivial⟩, ?_⟩
  rintro ⟨c, vm, compiled, run, all⟩
  have unassigned : Unassigned (bytes "x") [.Declaration (intLocal (bytes "x") (intToken 5))] := by
    intro asgm inside
    cases List.mem_singleton.mp inside
  obtain ⟨a, ⟨var, found, -, address⟩, -, holds⟩ := all _ (.head _) unassigned
  have final : ((Compiler.compile .plain (mainOf [.Declaration (intLocal (bytes "x") (intToken 5))]) .init).bind
      fun c => (ByteCodeVM.Run .unused c.program_ c.program_.length (InitOn fun _ => 0)).toOption.map fun vm =>
        ((c.current_func_.var_address_map (bytes "x")).map (·.address), vm.stack_.load 32 0)) =
      some (some 0, 0) := by decide
  rw [compiled, Option.bind_some, run _ (Nat.le_refl _)] at final
  obtain ⟨place, zero⟩ := Prod.mk.inj (Option.some.inj final)
  rw [show c.current_func_.var_address_map (bytes "x") = some var from found, Option.map_some, address] at place
  obtain rfl : a = 0 := Int.ofNat.inj (Option.some.inj place)
  exact absurd (zero.symm.trans holds) (by decide)

end Arith

end Mygo
