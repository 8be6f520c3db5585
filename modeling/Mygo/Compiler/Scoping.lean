import Mygo.Compiler.Visits
import Mygo.Compiler.Types

namespace Mygo

abbrev Offset := { k : Int // IsInt k }

namespace Offset

def zero : Offset := ⟨0, by decide⟩

def raise (k : Offset) (size : Int) : Offset := ⟨i32 (k + size), isInt_i32 _⟩

end Offset

structure Extent where
  address : Offset
  size : Int

namespace Extent

/-- The bytes of the entry that `operator[]` makes. -/
def zero : Extent := ⟨.zero, 0⟩

def Same (a b : Extent) : Prop := a.size.toNat = b.size.toNat ∧ (0 < a.size → a.address = b.address)

def Of (e : Extent) (var : VarInfo) : Prop := var.address = e.address ∧ var.size = e.size

end Extent

/-- The innermost declaration of every name that is in force, with the bytes it has taken, if it took
any: none are for the head of a loop or for a type that is not defined. -/
structure Scopes where
  top : Offset
  names : Bytes → Option (Option Extent)
  outer : List (Bytes → Option (Option Extent))

namespace Scopes

def empty : Scopes := ⟨.zero, fun _ => none, []⟩

def declare (name : Bytes) (extent : Option Extent) (s : Scopes) : Scopes :=
  { s with names := Function.update s.names name (some extent) }

end Scopes

theorem Layout.emplace_fresh {m : Scope} {name x : Bytes} {new : VarInfo} (fresh : m name = none)
    (different : x ≠ name) : m.emplace x new name = none := by
  cases found : m.emplace x new name with
  | none => rfl
  | some var =>
    rcases emplace_cases found with old | ⟨same, -⟩
    · exact nomatch fresh.symm.trans old
    · exact absurd same.symm different

namespace Visit

variable (host : Host) (table : TypeTable)

def scope (s : Scopes) : Visit → Scopes
  | .declaration decl =>
    match decl.var_type.bind fun t => table.findByName host t.name_ with
    | none => s.declare decl.var_name none
    | some t => { s.declare decl.var_name (some ⟨s.top, t.size⟩) with top := s.top.raise t.size }
  | .init decl => s.declare decl.var_name none
  | .enter => { s with outer := s.names :: s.outer }
  | .leave => { s with names := s.outer.headD s.names, outer := s.outer.tail }
  | .assignment _ | .expr _ | .jump | .label | .step _ => s

/-- The first compiled mention of a name: by a declaration, with its bytes, or by an assignment. -/
def first (name : Bytes) : Offset → List Visit → Option (Option Extent)
  | _, [] => none
  | top, .declaration decl :: vs =>
    match decl.var_type.bind fun t => table.findByName host t.name_ with
    | none => first name top vs
    | some t => if decl.var_name = name then some (some ⟨top, t.size⟩) else first name (top.raise t.size) vs
  | top, .assignment asgm :: vs => if asgm.var_name = name then some none else first name top vs
  | top, .expr _ :: vs | top, .jump :: vs | top, .label :: vs | top, .enter :: vs | top, .leave :: vs
  | top, .init _ :: vs | top, .step _ :: vs => first name top vs

variable {host table}

theorem first_entry {vs : List Visit} {l : Layout} {top : Offset} {name : Bytes} (same : l.top = top)
    (fresh : l.vars name = none) :
    match first host table name top vs with
    | none => (vs.foldl (lay host table) l).vars name = none
    | some extent => ∃ var, (vs.foldl (lay host table) l).vars name = some var ∧ (extent.getD .zero).Of var := by
  induction vs generalizing l top with
  | nil => exact fresh
  | cons v vs ih =>
    rw [List.foldl_cons]
    cases v with
    | declaration decl =>
      rw [lay, Layout.declare, first]
      cases decl.var_type.bind fun t => table.findByName host t.name_ with
      | none => exact ih same fresh
      | some t =>
        by_cases named : decl.var_name = name
        · subst named
          simp only [Scope.emplace, fresh, if_true]
          exact ⟨_, Layout.layAll_kept (Function.update_self _ _ _), same, rfl⟩
        · simp only [if_neg named]
          exact ih (congrArg (fun k => i32 (k + t.size)) same) (Layout.emplace_fresh fresh named)
    | assignment asgm =>
      rw [lay, Layout.subscript, first]
      by_cases named : asgm.var_name = name
      · subst named
        simp only [Scope.emplace, fresh, if_true]
        exact ⟨_, Layout.layAll_kept (Function.update_self _ _ _), rfl, rfl⟩
      · simp only [if_neg named]
        exact ih same (Layout.emplace_fresh fresh named)
    | expr | jump | label | enter | leave | init | step => exact ih same fresh

theorem first_assigned {vs : List Visit} {top : Offset} {name : Bytes}
    (h : first host table name top vs = some none) :
    ∃ pre asgm mid, vs = pre ++ .assignment asgm :: mid ∧ asgm.var_name = name ∧
      first host table name top pre = none := by
  induction vs generalizing top with
  | nil => cases h
  | cons v vs ih =>
    have later : ∀ {top' : Offset}, first host table name top' vs = some none →
        (∀ pre, first host table name top (v :: pre) = first host table name top' pre) →
        ∃ pre asgm mid, v :: vs = pre ++ .assignment asgm :: mid ∧ asgm.var_name = name ∧
          first host table name top pre = none := by
      intro top' rest same
      obtain ⟨pre, asgm, mid, rfl, named, none⟩ := ih rest
      exact ⟨v :: pre, asgm, mid, rfl, named, (same pre).trans none⟩
    cases v with
    | declaration decl =>
      rw [first] at h
      cases found : decl.var_type.bind fun t => table.findByName host t.name_ with
      | none =>
        simp only [found] at h
        exact later h fun pre => by simp only [first, found]
      | some t =>
        simp only [found] at h
        by_cases named : decl.var_name = name
        · rw [if_pos named] at h
          cases h
        · rw [if_neg named] at h
          exact later h fun pre => by simp only [first, found, if_neg named]
    | assignment asgm =>
      rw [first] at h
      by_cases named : asgm.var_name = name
      · exact ⟨[], asgm, vs, rfl, named, rfl⟩
      · rw [if_neg named] at h
        exact later h fun pre => by rw [first, if_neg named]
    | expr | jump | label | enter | leave | init | step => exact later h fun pre => rfl

def Bare (name : Bytes) (s : Scopes) : Prop :=
  (∀ extent, s.names name ≠ some (some extent)) ∧ ∀ m ∈ s.outer, ∀ extent, m name ≠ some (some extent)

theorem bare_empty (name : Bytes) : Bare name .empty :=
  ⟨fun _ => (Option.some_ne_none _).symm, fun _ inside => nomatch inside⟩

theorem Bare.declare {name x : Bytes} {s : Scopes} {extent : Option Extent} (bare : Bare name s)
    (other : x ≠ name ∨ extent = none) : Bare name (s.declare x extent) := by
  refine ⟨fun extent' found => ?_, bare.2⟩
  by_cases same : name = x
  · subst same
    change Function.update s.names name (some extent) name = _ at found
    rw [Function.update_self] at found
    rcases other with other | rfl
    · exact other rfl
    · cases found
  · change Function.update s.names x (some extent) name = _ at found
    rw [Function.update_of_ne same] at found
    exact bare.1 extent' found

theorem Bare.scope {vs : List Visit} {s : Scopes} {top : Offset} {name : Bytes} (bare : Bare name s)
    (h : first host table name top vs = none) : Bare name (vs.foldl (Visit.scope host table) s) := by
  induction vs generalizing s top with
  | nil => exact bare
  | cons v vs ih =>
    cases v with
    | declaration decl =>
      rw [first] at h
      rw [List.foldl_cons, Visit.scope]
      cases found : decl.var_type.bind fun t => table.findByName host t.name_ with
      | none =>
        simp only [found] at h
        exact ih (bare.declare (.inr rfl)) h
      | some t =>
        simp only [found] at h
        by_cases named : decl.var_name = name
        · rw [if_pos named] at h
          cases h
        · rw [if_neg named] at h
          exact ih (bare.declare (.inl named) : Bare name (s.declare decl.var_name (some ⟨s.top, t.size⟩))) h
    | assignment asgm =>
      rw [first] at h
      by_cases named : asgm.var_name = name
      · rw [if_pos named] at h
        cases h
      · rw [if_neg named] at h
        exact ih bare h
    | init decl => exact ih (bare.declare (.inr rfl)) h
    | enter => exact ih ⟨bare.1, List.forall_mem_cons.mpr ⟨bare.1, bare.2⟩⟩ h
    | leave =>
      refine ih ?_ h
      cases outer : s.outer with
      | nil => exact ⟨by simpa [Visit.scope, outer] using bare.1, by simp [Visit.scope, outer]⟩
      | cons m ms =>
        have inside := bare.2
        rw [outer] at inside
        obtain ⟨first, rest⟩ := List.forall_mem_cons.mp inside
        exact ⟨by simpa [Visit.scope, outer] using first, by simpa [Visit.scope, outer] using rest⟩
    | expr | jump | label | step => exact ih bare h

def Shaped : Visit → Prop
  | .declaration decl => decl.var_type ≠ none
  | .assignment asgm => asgm.expr.Shaped
  | .expr e => e.Shaped
  | _ => True

mutual

theorem shaped_statement (stmt : Node) (h : stmt.Shaped) : ∀ v ∈ stmt.visits, v.Shaped := by
  cases stmt with
  | Declaration decl => exact List.forall_mem_singleton.mpr h
  | Assignment asgm => exact List.forall_mem_singleton.mpr h
  | Expr e => exact List.forall_mem_singleton.mpr h
  | If s e branches tail =>
    rw [Node.visits, List.forall_mem_cons, List.forall_mem_append, List.forall_mem_append,
      List.forall_mem_singleton]
    exact ⟨trivial, shaped_branches branches h.1, shaped_tail tail h.2, trivial⟩
  | For s e init cond step block =>
    rw [Node.visits, List.forall_mem_cons, List.forall_mem_append, List.forall_mem_append,
      List.forall_mem_append, List.forall_mem_singleton]
    exact ⟨trivial, List.forall_mem_map.mpr fun _ _ => trivial, List.forall_mem_map.mpr fun _ _ => trivial,
      shaped_block block h, trivial⟩
  | Function | Return | Typedef => exact nofun

theorem shaped_branches (branches : List (Expr × Block)) (h : Node.ShapedBranches branches) :
    ∀ v ∈ Node.visitsBranches branches, v.Shaped := by
  cases branches with
  | nil => exact nofun
  | cons branch branches =>
    exact List.forall_mem_append.mpr ⟨shaped_block branch.2 h.1, shaped_branches branches h.2⟩

theorem shaped_tail (tail : Option Block) (h : Node.ShapedTail tail) :
    ∀ v ∈ Node.visitsTail tail, v.Shaped := by
  cases tail with
  | none => exact nofun
  | some block => exact shaped_block block h

theorem shaped_block (block : Block) (h : block.Shaped) : ∀ v ∈ block.visits, v.Shaped := by
  cases block with
  | mk s e nodes =>
    rw [Block.visits, List.forall_mem_cons, List.forall_mem_append, List.forall_mem_singleton]
    exact ⟨trivial, shaped_nodes nodes h, trivial⟩

theorem shaped_nodes (nodes : List Node) (h : Node.ShapedAll nodes) :
    ∀ v ∈ Node.visitsAll nodes, v.Shaped := by
  cases nodes with
  | nil => exact nofun
  | cons stmt nodes =>
    exact List.forall_mem_append.mpr ⟨shaped_statement stmt h.1, shaped_nodes nodes h.2⟩

end

open Compiler

theorem Shaped.run {v : Visit} (h : v.Shaped) (p : State) : ∃ p', v.run host p = some p' := by
  obtain ⟨c, labels⟩ := p
  cases v with
  | declaration decl =>
    obtain ⟨t, typed⟩ := Option.ne_none_iff_exists'.mp h
    cases found : c.type_table_.findByName host t.name_ with
    | none => exact ⟨_, by simp only [Visit.run, compile_declaration, typed, found]; rfl⟩
    | some info => exact ⟨_, by simp only [Visit.run, compile_declaration, typed, found]; rfl⟩
  | assignment asgm =>
    obtain ⟨code, compiled⟩ := compile_expr_shaped host h (c.subscript asgm.var_name)
    cases found : (c.subscript asgm.var_name).current_func_.var_address_map asgm.var_name with
    | none => exact ⟨_, by simp only [Visit.run, compile_assignment, found]; rfl⟩
    | some var => exact ⟨_, by simp only [Visit.run, compile_assignment, found, compiled]; rfl⟩
  | expr e =>
    obtain ⟨code, compiled⟩ := compile_expr_shaped host h c
    exact ⟨_, by rw [Visit.run, compiled]; rfl⟩
  | jump | label | enter | leave | init | step => exact ⟨_, rfl⟩

theorem runAll_shaped {vs : List Visit} (h : ∀ v ∈ vs, v.Shaped) (p : State) :
    ∃ p', runAll host vs p = some p' := by
  induction vs generalizing p with
  | nil => exact ⟨p, rfl⟩
  | cons v vs ih =>
    obtain ⟨first, rest⟩ := List.forall_mem_cons.mp h
    obtain ⟨q, step⟩ : ∃ q, v.run host p = some q := first.run p
    obtain ⟨p', run⟩ := ih rest q
    exact ⟨p', by rw [runAll, step]; exact run⟩

end Visit

theorem Offset.stackTop_inj {a b : Offset} (h : stackTop a = stackTop b) : a = b := by
  have word : ∀ k : Offset, ((stackTop k &&& OffsetPart).toNat : Int) = (k : Int) % 2 ^ 56 := by
    intro k
    rw [stackTop, base_offset (by decide), toNat_offset, BitVec.toNat_ofInt]
    omega
  obtain ⟨⟨a, ha⟩, ⟨b, hb⟩⟩ := a, b
  have same : a % 2 ^ 56 = b % 2 ^ 56 := by
    rw [← word ⟨a, ha⟩, ← word ⟨b, hb⟩, h]
  unfold IsInt at ha hb
  have equal : a = b := by omega
  exact Subtype.ext equal

namespace Compiler

theorem moveCode_inj {a b : Extent} {k : Int} :
    moveCode a.address k a.size = moveCode b.address k b.size ↔ a.Same b := by
  constructor
  · intro h
    have size : a.size.toNat = b.size.toNat := by
      simpa only [length_moveCode] using congrArg List.length h
    refine ⟨size, fun some => ?_⟩
    have same : stackTop (i32 (a.address + (0 : Nat))) = stackTop (i32 (b.address + (0 : Nat))) := by
      obtain ⟨n, hn⟩ : ∃ n, a.size.toNat = n + 1 := ⟨a.size.toNat - 1, by omega⟩
      simp only [moveCode, ← size, hn, List.range_succ_eq_map, List.map_cons] at h
      exact congrArg Instruction.arg0 (List.cons.inj h).1
    simp only [Nat.cast_zero, add_zero, i32_of_isInt a.address.2, i32_of_isInt b.address.2] at same
    exact Offset.stackTop_inj same
  · rintro ⟨size, address⟩
    rcases Int.lt_or_le 0 a.size with some | none
    · simp only [moveCode, address some, size]
    · have zero : a.size.toNat = 0 := Int.toNat_of_nonpos none
      simp only [moveCode, ← size, zero, List.range_zero, List.map_nil]

variable {host : Host} {nodes : List Node} {start : Compiler}

/-- What an assignment is compiled to: the moves into the bytes of the innermost declaration, or an
error where no declaration is in force. -/
def Stores (host : Host) (asgm : Assignment) (p p' : Visit.State) : Option (Option Extent) → Prop
  | some (some extent) => ∃ code, exprCode host asgm.expr p.1.top = some code ∧
    p'.1.current_func_.instructions =
      p.1.current_func_.instructions ++ (code ++ moveCode extent.address p.1.top extent.size)
  | some none => False
  | none => p'.1.errors_ = p.1.errors_ ++ [bytes "var is not defined: " ++ asgm.var_name]

/-- Block scoping is lexical: this holds for all assignments of the body, and there are none that are
not compiled. -/
structure Lexical (host : Host) (nodes : List Node) (start : Compiler) : Prop where
  steps : ∀ asgm, .step asgm ∉ Node.visitsAll nodes
  stores : ∀ pre asgm more p, Comes host nodes start pre asgm more p →
    ∃ p', (Visit.assignment asgm).run host p = some p' ∧
      Stores host asgm p p' ((pre.foldl (Visit.scope host start.type_table_) .empty).names asgm.var_name)

/-- Every assignment is to the bytes of the name's first declaration in the function. -/
structure FirstInForce (host : Host) (table : TypeTable) (nodes : List Node) : Prop where
  steps : ∀ asgm, .step asgm ∉ Node.visitsAll nodes
  same : ∀ pre asgm more, Node.visitsAll nodes = pre ++ .assignment asgm :: more → ∃ inner outer,
    (pre.foldl (Visit.scope host table) .empty).names asgm.var_name = some (some inner) ∧
    Visit.first host table asgm.var_name .zero pre = some (some outer) ∧ inner.Same outer

theorem assignment_first {func_name : Bytes} {pre more : List Visit} {asgm : Assignment} {p p' : Visit.State}
    (comes : Comes host nodes (start.setCurrentFunc (.new func_name)) pre asgm more p)
    (run : (Visit.assignment asgm).run host p = some p') :
    ∃ code, exprCode host asgm.expr p.1.top = some code ∧ p'.1.errors_ = p.1.errors_ ∧
      p'.1.current_func_.instructions = p.1.current_func_.instructions ++ (code ++
        let extent := (Visit.first host start.type_table_ asgm.var_name .zero pre).join.getD .zero
        moveCode extent.address p.1.top extent.size) := by
  obtain ⟨c', compiled, rfl⟩ := Option.map_eq_some_iff.mp run
  obtain ⟨var, code, found, expr, rfl⟩ := assignment_effect host compiled
  have layout := (Visit.runAll_layout comes.reached).1
  have entry : match Visit.first host start.type_table_ asgm.var_name .zero pre with
      | none => p.1.layout.vars asgm.var_name = none
      | some extent => ∃ var, p.1.layout.vars asgm.var_name = some var ∧ (extent.getD .zero).Of var := by
    rw [layout]
    exact Visit.first_entry rfl rfl
  refine ⟨code, expr, rfl, ?_⟩
  have bytes : ((Visit.first host start.type_table_ asgm.var_name .zero pre).join.getD .zero).Of var := by
    change p.1.layout.vars.emplace asgm.var_name .zero asgm.var_name = some var at found
    cases mention : Visit.first host start.type_table_ asgm.var_name .zero pre with
    | none =>
      rw [mention] at entry
      simp only [Scope.emplace, show p.1.layout.vars asgm.var_name = none from entry] at found
      rw [Function.update_self] at found
      cases found
      exact ⟨rfl, rfl⟩
    | some extent =>
      rw [mention] at entry
      obtain ⟨var', old, bytes⟩ := entry
      cases (Layout.emplace_kept old).symm.trans found
      cases extent <;> exact bytes
  rw [bytes.1, bytes.2]
  rfl

/-- Block scoping is lexical exactly for the bodies in which every assignment is to the first
declaration of its name. -/
theorem lexical_iff {func_name : Bytes} (shaped : Node.ShapedAll nodes) :
    Lexical host nodes (start.setCurrentFunc (.new func_name)) ↔
      FirstInForce host start.type_table_ nodes := by
  have visited := Visit.shaped_nodes nodes shaped
  have comes : ∀ {pre asgm more}, Node.visitsAll nodes = pre ++ .assignment asgm :: more → ∃ p p',
      Comes host nodes (start.setCurrentFunc (.new func_name)) pre asgm more p ∧
      (Visit.assignment asgm).run host p = some p' := by
    intro pre asgm more body
    rw [body, List.forall_mem_append, List.forall_mem_cons] at visited
    obtain ⟨p, reached⟩ : ∃ p, Visit.runAll host pre (start.setCurrentFunc (.new func_name), []) = some p :=
      Visit.runAll_shaped visited.1 _
    obtain ⟨p', run⟩ : ∃ p', (Visit.assignment asgm).run host p = some p' := visited.2.1.run p
    exact ⟨p, p', ⟨body, reached⟩, run⟩
  constructor
  · intro lexical
    -- No assignment finds its name undeclared, or declared without bytes.
    have inForce : ∀ {pre asgm more}, Node.visitsAll nodes = pre ++ .assignment asgm :: more →
        ∃ inner,
          (pre.foldl (Visit.scope host start.type_table_) .empty).names asgm.var_name = some (some inner) ∧
          inner.Same ((Visit.first host start.type_table_ asgm.var_name .zero pre).join.getD .zero) := by
      intro pre asgm more body
      obtain ⟨p, p', come, run⟩ := comes body
      obtain ⟨code, expr, errors, code_eq⟩ := assignment_first come run
      obtain ⟨p'', run', stores⟩ := lexical.stores pre asgm more p come
      cases run.symm.trans run'
      change Stores host asgm p p'
        ((pre.foldl (Visit.scope host start.type_table_) .empty).names asgm.var_name) at stores
      cases visible : (pre.foldl (Visit.scope host start.type_table_) .empty).names asgm.var_name with
      | none =>
        rw [visible] at stores
        have same := stores.symm.trans errors
        exact absurd (List.append_right_eq_self.mp same) (List.cons_ne_nil _ _)
      | some extent =>
        cases extent with
        | none =>
          rw [visible] at stores
          exact stores.elim
        | some inner =>
          rw [visible] at stores
          obtain ⟨code', expr', stored⟩ := stores
          cases expr.symm.trans expr'
          have moves := List.append_cancel_left (List.append_cancel_left (stored.symm.trans code_eq))
          exact ⟨inner, rfl, moveCode_inj.mp moves⟩
    refine ⟨lexical.steps, fun pre asgm more body => ?_⟩
    obtain ⟨inner, visible, same⟩ := inForce body
    have nothing : Visit.Bare asgm.var_name .empty := Visit.bare_empty asgm.var_name
    cases mention : Visit.first host start.type_table_ asgm.var_name .zero pre with
    | none => exact absurd visible ((nothing.scope mention).1 inner)
    | some extent =>
      cases extent with
      | some outer => exact ⟨inner, outer, visible, rfl, by rwa [mention] at same⟩
      | none =>
        -- The name has been assigned before, and was not in force then.
        obtain ⟨pre', asgm', mid, rfl, named, unmentioned⟩ := Visit.first_assigned mention
        obtain ⟨inner', visible', -⟩ := inForce (body.trans (List.append_assoc _ _ _))
        rw [named] at visible'
        exact absurd visible' ((nothing.scope unmentioned).1 inner')
  · intro inForce
    refine ⟨inForce.steps, fun pre asgm more p come => ?_⟩
    have body := come.body
    rw [body, List.forall_mem_append, List.forall_mem_cons] at visited
    obtain ⟨p', run⟩ : ∃ p', (Visit.assignment asgm).run host p = some p' := visited.2.1.run p
    obtain ⟨code, expr, -, code_eq⟩ := assignment_first come run
    obtain ⟨inner, outer, visible, mention, same⟩ := inForce.same pre asgm more body
    rw [mention] at code_eq
    refine ⟨p', run, ?_⟩
    rw [show (pre.foldl (Visit.scope host (start.setCurrentFunc (.new func_name)).type_table_) .empty).names
      asgm.var_name = some (some inner) from visible]
    exact ⟨code, expr, code_eq.trans (by rw [moveCode_inj.mpr same]; rfl)⟩

def loopBody (stmts : List Node) : List Node :=
  [.Declaration ⟨.init, .init, bytes "x", some ⟨.init, .init, false, none, bytes "int"⟩,
      .TOKEN .init .init (.CreateInt 1 0)⟩,
    .For .init .init none none none (.mk .init .init stmts)]

theorem lexical_outer :
    Lexical .plain (loopBody [.Assignment ⟨.init, .init, bytes "x", .TOKEN .init .init (.CreateInt 1 1)⟩])
      (init.setCurrentFunc (.new (bytes "main"))) := by
  have shaped : Node.ShapedAll
      (loopBody [.Assignment ⟨.init, .init, bytes "x", .TOKEN .init .init (.CreateInt 1 1)⟩]) :=
    ⟨Option.some_ne_none _, ⟨trivial, trivial⟩, trivial⟩
  refine (lexical_iff shaped).mpr ⟨fun asgm inside => ?_, fun pre asgm more body => ?_⟩
  · simp [loopBody, Node.visitsAll, Node.visits, Block.visits] at inside
  · rcases pre with _ | ⟨v₁, _ | ⟨v₂, _ | ⟨v₃, _ | ⟨v₄, pre⟩⟩⟩⟩
    · cases body
    · cases body
    · cases body
    · cases body
      exact ⟨_, _, rfl, rfl, rfl, fun _ => rfl⟩
    · simp [loopBody, Node.visitsAll, Node.visits, Block.visits] at body
      obtain ⟨-, -, -, -, body⟩ := body
      rcases pre with _ | ⟨v, _ | ⟨v', pre⟩⟩ <;> simp at body

/-- `var x int = 1` and `x = 2` in the loop: the outer `x` gets the 2. -/
theorem redeclared_not_lexical :
    ¬ Lexical .plain (loopBody [
        .Declaration ⟨.init, .init, bytes "x", some ⟨.init, .init, false, none, bytes "int"⟩,
          .TOKEN .init .init (.CreateInt 1 1)⟩,
        .Assignment ⟨.init, .init, bytes "x", .TOKEN .init .init (.CreateInt 1 2)⟩])
      (init.setCurrentFunc (.new (bytes "main"))) := by
  intro lexical
  obtain ⟨p', run, stores⟩ := lexical.stores [_, _, _, _] _ [_, _] _ ⟨rfl, rfl⟩
  cases run
  obtain ⟨code, expr, stored⟩ := stores
  cases expr
  exact absurd stored (by decide)

end Compiler

end Mygo
