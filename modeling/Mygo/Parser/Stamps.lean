import Mygo.Parser.Spans

namespace Mygo

open Lexer Parser TokenStream

namespace Spans

variable {src : Bytes} {α β : Type}

def Lands (src : Bytes) (Q : α → TokenStream → Prop) : Parse TokenStream Err α → Prop :=
  Parse.Meets Q (fun _ t => Coherent t ∧ t.src_ = src) True True

structure Stays (src : Bytes) (s t : TokenStream) : Prop where
  coherent : Coherent t
  source : t.src_ = src
  same : t.state_ = s.state_

def Reads (src : Bytes) (D : TokenStream → α → TokenStream → Prop) (p : Parsing TokenStream α) : Prop :=
  ∀ s, Coherent s → s.src_ = src → Lands src (D s) (p s)

def Restores (src : Bytes) (D : TokenStream → α → TokenStream → Prop) (p : Parsing TokenStream α) : Prop :=
  ∀ s, Coherent s → s.src_ = src → (p s).Meets (D s) (fun _ t => Stays src s t) True True

abbrev Nests (src : Bytes) (spans : α → SpanTree Loc) (p : Parsing TokenStream α) : Prop :=
  Restores src (fun s a t => Marks src s t [spans a]) p

section Rules

variable {Q : β → TokenStream → Prop} {D : TokenStream → α → TokenStream → Prop} {p : Parsing TokenStream α}
variable {f : α → Parsing TokenStream β} {s t u : TokenStream} {cs : List (SpanTree Loc)} {T : TokenType}

theorem Restores.mono {D' : TokenStream → α → TokenStream → Prop} (h : Restores src D p)
    (weaken : ∀ s a t, D s a t → D' s a t) : Restores src D' p :=
  fun s coherent source => (h s coherent source).mono (weaken s) (fun _ _ => id) id id

theorem Reads.guard {q : Loc → Parsing TokenStream α}
    (h : ∀ s, Marks src s s [] → Lands src (D s) (q s.state_.loc s)) : Restores src D (guard q) := by
  intro s coherent source
  refine meets_guarded ((h s (.here coherent source rfl)).mono (fun _ _ => id) ?_ id id)
  rintro e t ⟨coherent', source'⟩
  refine ⟨coherent'.Load ?_, source', rfl⟩
  rw [source', ← source]
  exact coherent.located

theorem Reads.of (h : ∀ s, Marks src s s [] → Lands src (D s) (p s)) : Reads src D p :=
  fun s coherent source => h s (.here coherent source rfl)

theorem Reads.bind (h : Reads src D p) (so_far : Marks src s t cs)
    (hf : ∀ a u, D t a u → Lands src Q (f a u)) : Lands src Q ((p >>= f) t) :=
  meets_bind (h t so_far.coherent so_far.source) hf

theorem Restores.bind {f : Except Err α → Parsing TokenStream β} (h : Restores src D p)
    (so_far : Marks src s t cs) (ok : ∀ a u, D t a u → Lands src Q (f (.ok a) u))
    (err : ∀ e u, Stays src t u → Lands src Q (f (.error e) u)) : Lands src Q ((attempt p >>= f) t) := by
  refine meets_bind (meets_attempt (h t so_far.coherent so_far.source)) ?_
  rintro (e | a) u post
  · exact err e u post
  · exact ok a u post

theorem Stays.marks (h : Stays src t u) (so_far : Marks src s t cs) : Marks src s u cs :=
  so_far.again h.coherent h.source h.same

theorem stays_here (so_far : Marks src s t cs) : Stays src t t := ⟨so_far.coherent, so_far.source, rfl⟩

theorem Stays.fails {e : Err} (h : Stays src s t) : Lands src Q (.err e t) := ⟨h.coherent, h.source⟩

def Begins (src : Bytes) (s : TokenStream) (kind : TokenType) : Prop :=
  ∃ w, token src s.state_.pos = some w ∧ w.type_ = kind

theorem Begins.unique {kind kind' : TokenType} (h : Begins src s kind) (h' : Begins src s kind') : kind = kind' := by
  obtain ⟨w, here, is⟩ := h
  obtain ⟨w', here', is'⟩ := h'
  obtain rfl := Option.some.inj (here.symm.trans here')
  exact is.symm.trans is'

theorem Begins.back {kind : TokenType} (h : Begins src t kind) (stays : Stays src s t) : Begins src s kind := by
  rw [Begins, ← stays.same]
  exact h

theorem begins_visible {v : Value} {vs : List Value} {kind : TokenType}
    (seen : visible (src.drop s.state_.pos) = v :: vs) (is : v.type_ = kind) : Begins src s kind := by
  cases here : token src s.state_.pos with
  | none => exact nomatch (visible_none here).symm.trans seen
  | some w =>
    obtain ⟨ws, head⟩ := visible_head here
    cases head.symm.trans seen
    exact ⟨v, here, is⟩

structure Sees (src : Bytes) (s : TokenStream) (kind : TokenType) (t : TokenStream) : Prop extends Stays src s t where
  begins : Begins src s kind

theorem Stays.trans (h : Stays src s t) (h' : Stays src t u) : Stays src s u :=
  ⟨h'.coherent, h'.source, h'.same.trans h.same⟩

theorem Sees.trans {kind kind' : TokenType} (h : Sees src s kind t) (h' : Sees src t kind' u) :
    Sees src s kind' u :=
  ⟨h.toStays.trans h'.toStays, h'.begins.back h.toStays⟩

theorem reads_peek : Reads src (fun s r t => ∃ v, r = some v ∧ Sees src s v.type_ t) peek := by
  rintro s coherent rfl
  rw [peek]
  cases here : token s.src_ s.state_.pos with
  | none =>
    have peeks : Stream.Peek s = none := coherent.peek_none here
    rw [peeks]
    trivial
  | some w =>
    have peeks : Stream.Peek s = some _ := coherent.peek here
    rw [peeks]
    refine ⟨_, rfl, ⟨coherent_settled coherent.located here, rfl, rfl⟩, w, here, ?_⟩
    split
    · rfl
    · rfl

theorem reads_peeked : Reads src (fun s v t => Sees src s v.type_ t) peeked := by
  intro s coherent source
  refine meets_bind (reads_peek s coherent source) ?_
  rintro _ t ⟨v, rfl, sees⟩
  exact sees

theorem reads_peek_type : Reads src (Sees src) peek_type :=
  fun s coherent source => meets_bind (reads_peeked s coherent source) fun _ _ => id

theorem reads_is_token (T : TokenType) :
    Reads src (fun s b t => ∃ kind, Sees src s kind t ∧ b = decide (kind = T)) (is_token T) := by
  intro s coherent source
  refine meets_bind (reads_peek s coherent source) ?_
  rintro _ t ⟨v, rfl, sees⟩
  refine meets_bind (reads_peeked t sees.coherent sees.source) fun v' u sees' => ?_
  exact ⟨_, sees.trans sees', rfl⟩

theorem lands_peek_type {f : TokenType → Parsing TokenStream β} (so_far : Marks src s t cs)
    (h : ∀ kind u, Sees src t kind u → Lands src Q (f kind u)) : Lands src Q ((peek_type >>= f) t) :=
  reads_peek_type.bind so_far h

theorem lands_is_token {f : Bool → Parsing TokenStream β} (so_far : Marks src s t cs)
    (yes : ∀ u, Sees src t T u → Lands src Q (f true u))
    (no : ∀ kind u, Sees src t kind u → kind ≠ T → Lands src Q (f false u)) :
    Lands src Q ((is_token T >>= f) t) := by
  refine (reads_is_token T).bind so_far ?_
  rintro _ u ⟨kind, sees, rfl⟩
  by_cases is : kind = T
  · rw [decide_eq_true is]
    exact yes u (is ▸ sees)
  · rw [decide_eq_false is]
    exact no kind u sees is

theorem lands_step {f : Unit → Parsing TokenStream β} {kind : TokenType} (sees : Sees src s kind t)
    (h : ∀ v u, v.type_ = kind → Steps src t u v → Lands src Q (f () u)) : Lands src Q ((next >>= f) t) := by
  rw [run_bind, next]
  cases moved : t.Next with
  | none =>
    have stuck : Stream.Next t = none := moved
    rw [stuck]
    trivial
  | some u =>
    have goes : Stream.Next t = some u := moved
    rw [goes]
    obtain ⟨v, steps⟩ := sees.coherent.steps sees.source moved
    obtain ⟨w, here, is⟩ := sees.begins
    rw [← sees.same] at here
    obtain rfl := Option.some.inj (here.symm.trans steps.here)
    exact h w u is steps

theorem lands_next {f : Unit → Parsing TokenStream β} {kind : TokenType} (so_far : Marks src s t cs)
    (sees : Sees src t kind u) (other : kind ≠ .Var) (h : ∀ v, Marks src s v cs → Lands src Q (f () v)) :
    Lands src Q ((next >>= f) u) := by
  refine lands_step sees fun w v is steps => h v ((sees.marks so_far).step steps ?_)
  exact untyped_var steps.here (is ▸ other)

theorem reads_expect {error : String → Parsing TokenStream Value} {null other : String}
    (fails : ∀ msg t, ∃ e, error msg t = .err e t) :
    Reads src (fun s v t => v.type_ = T ∧ ∃ s' w, Sees src s T s' ∧ w.type_ = T ∧ Steps src s' t w)
      (expect_with error null other T) := by
  intro s coherent source
  refine meets_bind (reads_peek s coherent source) ?_
  rintro _ t ⟨v, rfl, sees⟩
  refine meets_bind (reads_peeked t sees.coherent sees.source) fun v' u sees' => ?_
  have seen := sees.trans sees'
  split
  · next is =>
    refine lands_step seen fun w u' is' steps => ⟨is, u, w, is ▸ seen, is' ▸ is, steps⟩
  · obtain ⟨e, failed⟩ := fails other u
    rw [failed]
    exact ⟨seen.coherent, seen.source⟩

theorem lands_expect {f : Value → Parsing TokenStream β} {error : String → Parsing TokenStream Value}
    {null other : String} (fails : ∀ msg t, ∃ e, error msg t = .err e t) (word : T ≠ .Var)
    (so_far : Marks src s t cs) (h : ∀ v u, Marks src s u cs → Lands src Q (f v u)) :
    Lands src Q ((expect_with error null other T >>= f) t) := by
  refine (reads_expect fails).bind so_far ?_
  rintro v u ⟨-, t', w, sees, is, steps⟩
  exact h v u ((sees.marks so_far).step steps (untyped_var steps.here (is ▸ word)))

theorem reads_skip_token (word : T ≠ .Var) (rounds : Nat) :
    Reads src (fun s _ t => Marks src s t []) (skip_token T rounds) := by
  induction rounds with
  | zero => exact fun _ _ _ => trivial
  | succ rounds ih =>
    refine .of fun s start => ?_
    refine lands_is_token start (fun u sees => ?_) fun kind u sees _ => sees.marks start
    refine lands_next start sees word fun v so_far => ?_
    exact (ih v so_far.coherent so_far.source).mono (fun _ _ => so_far.skip) (fun _ _ => id) id id

theorem reads_skip_once (word : T ≠ .Var) : Reads src (fun s _ t => Marks src s t []) (skip_token_once T) := by
  refine .of fun s start => ?_
  refine lands_is_token start (fun u sees => ?_) fun kind u sees _ => sees.marks start
  have past : Lands src (fun _ t => Marks src s t []) ((next >>= pure : Parsing TokenStream Unit) u) :=
    lands_next start sees word fun v so_far => so_far
  rw [run_bind_pure] at past
  exact past

theorem lands_skip {f : Unit → Parsing TokenStream β} {rounds : Nat} (word : T ≠ .Var) (so_far : Marks src s t cs)
    (h : ∀ u, Marks src s u cs → Lands src Q (f () u)) : Lands src Q ((skip_token T rounds >>= f) t) :=
  (reads_skip_token word rounds).bind so_far fun _ u marks => h u (so_far.skip marks)

end Rules

section Expressions

open Mygo.Expr

variable {expr : Parsing TokenStream Expr} {rounds : Nat}

/-- An expression has the span between the streams, so it is stamped again with the span that it has. -/
def Stamped (src : Bytes) (s : TokenStream) (e : Expr) (t : TokenStream) : Prop :=
  Marks src s t [e.spans] ∧ e.setLoc s.state_.loc t.state_.loc = e

theorem Stamped.again {s t u : TokenStream} {e : Expr} (h : Stamped src s e t) (stays : Stays src t u) :
    Stamped src s (e.setLoc s.state_.loc u.state_.loc) u := by
  obtain ⟨marks, same⟩ := h
  rw [stays.same, same, Stamped, stays.same]
  exact ⟨stays.marks marks, same⟩

theorem Stamped.back {s t u : TokenStream} {e : Expr} (h : Stamped src t e u) (same : t.state_ = s.state_) :
    Stamped src s e u :=
  ⟨h.1.back same, same ▸ h.2⟩

theorem kind_other {kind : TokenType} {is_kind : TokenType → Bool} (is : is_kind kind = true)
    (word : is_kind .Var = false) : kind ≠ .Var := by
  rintro rfl
  exact nomatch is.symm.trans word

theorem reads_token : Restores src (Stamped src) (parse_token : Parsing TokenStream Expr) := by
  refine Reads.guard fun s start => reads_peek.bind start ?_
  rintro _ t ⟨v, rfl, sees⟩
  simp only
  split
  · next atomic =>
    exact lands_next start sees (kind_other atomic rfl) fun u so_far => ⟨so_far.node, rfl⟩
  · exact sees.fails

theorem reads_args (h : Restores src (Stamped src) expr) :
    Reads src (fun s es t => Marks src s t (spansAll es)) (parse_args expr rounds) := by
  induction rounds with
  | zero => exact fun _ _ _ => trivial
  | succ rounds ih =>
    refine .of fun s start => ?_
    refine h.bind start (fun e t ⟨first, _⟩ => ?_) fun _ u stays => stays.marks start
    refine lands_is_token first (fun u sees => ?_) fun kind u sees _ => sees.marks first
    refine lands_next first sees nofun fun v so_far => ?_
    exact ih.bind so_far fun es w rest => so_far.append rest

theorem reads_call (h : Restores src (Stamped src) expr) :
    Restores src (Stamped src) (parse_funcall expr rounds) := by
  refine Reads.guard fun s start => reads_token.bind start (fun f t ⟨callee, _⟩ => ?_) fun _ u stays => stays.fails
  refine lands_expect (fun _ _ => ⟨_, rfl⟩) nofun callee fun _ t₁ opened => ?_
  refine (reads_args h).bind opened fun args t₂ rest => ?_
  refine lands_expect (fun _ _ => ⟨_, rfl⟩) nofun (opened.append rest) fun _ t₃ closed => ?_
  exact ⟨closed.node, rfl⟩

theorem reads_atom (h : Restores src (Stamped src) expr) :
    Restores src (Stamped src) (parse_atomic expr rounds) := by
  refine Reads.guard fun s start => (reads_call h).bind start (fun e t stamped => ?_) fun _ t stays => ?_
  · exact stamped.again (stays_here stamped.1)
  · have so_far := stays.marks start
    refine lands_peek_type so_far fun kind u sees => ?_
    split
    · next minus =>
      refine lands_next so_far sees (by rw [minus]; nofun) fun v so_far => ?_
      refine reads_token.bind so_far (fun e w ⟨operand, _⟩ => ?_) fun _ w stays => stays.fails
      exact ⟨(so_far.append operand).node, rfl⟩
    · refine reads_token.bind (sees.marks so_far) (fun e w stamped => ?_) fun _ w stays => stays.fails
      have whole := stamped.back (sees.same.trans stays.same)
      exact whole.again (stays_here whole.1)

theorem reads_operators {operand : Parsing TokenStream Expr} {is_op : TokenType → Bool} {msg : String}
    (word : is_op .Var = false) (h : Restores src (Stamped src) operand) :
    Reads src (fun s r t => Marks src s t (spansAll r.2)) (parse_operators is_op operand msg rounds) := by
  induction rounds with
  | zero => exact fun _ _ _ => trivial
  | succ rounds ih =>
    refine .of fun s start => ?_
    refine lands_peek_type start fun kind u sees => ?_
    split
    · next op =>
      refine lands_next start sees (kind_other op word) fun v so_far => ?_
      refine h.bind so_far (fun e w ⟨first, _⟩ => ?_) fun _ w stays => stays.fails
      exact ih.bind (so_far.append first) fun r x rest => (so_far.append first).append rest
    · exact sees.marks start

theorem reads_chain {operand : Parsing TokenStream Expr} {is_op : TokenType → Bool} {first_msg msg : String}
    (word : is_op .Var = false) (h : Restores src (Stamped src) operand) :
    Restores src (Stamped src) (parse_chain is_op operand first_msg msg rounds) := by
  refine Reads.guard fun s start => h.bind start (fun e t stamped => ?_) fun _ t stays => stays.fails
  refine lands_peek_type stamped.1 fun kind u sees => ?_
  split
  · refine (reads_operators word h).bind (sees.marks stamped.1) fun r v rest => ?_
    exact ⟨((sees.marks stamped.1).append rest).node, rfl⟩
  · exact stamped.again sees.toStays

theorem reads_comparison (h : Restores src (Stamped src) expr) :
    Restores src (Stamped src) (parse_with_greater expr rounds) := by
  have sum : Restores src (Stamped src) (parse_with_plus expr rounds) :=
    reads_chain rfl (reads_chain rfl (reads_atom h))
  refine Reads.guard fun s start => sum.bind start (fun a t stamped => ?_) fun _ t stays => stays.fails
  refine lands_peek_type stamped.1 fun kind u sees => ?_
  split
  · next op =>
    refine lands_next stamped.1 sees (kind_other op rfl) fun v so_far => ?_
    refine sum.bind so_far (fun b w ⟨second, _⟩ => ?_) fun _ w stays => stays.fails
    exact ⟨(so_far.append second).node, rfl⟩
  · exact stamped.again sees.toStays

theorem reads_expr (rounds : Nat) : Restores src (Stamped src) (Expr.parse rounds) := by
  induction rounds with
  | zero => exact fun _ _ _ => trivial
  | succ rounds ih => exact reads_comparison ih

end Expressions

section Types

variable (rounds : Nat)

theorem reads_fields (left : Nat) :
    Reads src (fun s _ t => Marks src s t []) (Struct.parse_fields rounds left : Parsing TokenStream _) := by
  induction left with
  | zero => exact fun _ _ _ => trivial
  | succ left ih =>
    refine .of fun s start => ?_
    refine reads_peeked.bind start fun n t sees => ?_
    split
    · next first =>
      refine lands_next start sees (by rw [first]; nofun) fun u named => ?_
      refine reads_peeked.bind named fun k v sees' => ?_
      split
      · next second =>
        refine lands_next named sees' (by rw [second]; nofun) fun w typed => ?_
        refine lands_expect (fun _ _ => ⟨_, rfl⟩) nofun typed fun _ x line => ?_
        refine lands_skip nofun line fun y lines => ?_
        exact ih.bind lines fun fields z rest => lines.skip rest
      · exact sees'.fails
    · exact sees.marks start

theorem reads_struct :
    Restores src (fun s stct t => Marks src s t [stct.spans] ∧ Begins src s .Struct)
      (Struct.parse rounds : Parsing TokenStream Struct) := by
  refine Reads.guard fun s start => (reads_expect fun _ _ => ⟨_, rfl⟩).bind start ?_
  rintro k t ⟨-, s', w, sees, is, steps⟩
  have so_far : Marks src s t [] := (sees.marks start).step steps (untyped_var steps.here (by rw [is]; nofun))
  refine lands_expect (fun _ _ => ⟨_, rfl⟩) nofun so_far fun _ u opened => ?_
  refine lands_skip nofun opened fun v lines => (reads_fields rounds 10000).bind lines fun fields x rest => ?_
  refine lands_expect (fun _ _ => ⟨_, rfl⟩) nofun (lines.skip rest) fun _ y closed => ?_
  exact ⟨closed.node, sees.begins⟩

theorem reads_type :
    Reads src (fun s ty t => Marks src s t [ty.spans] ∧ (Begins src s .Struct ∨ Begins src s .Symbol) ∨
      Stays src s t ∧ ty = ⟨.init, .init, false, none, []⟩ ∧ ¬ Begins src s .Symbol)
      (VarType.parse rounds : Parsing TokenStream VarType) := by
  refine .of fun s start => ?_
  change Lands src _ ((attempt (Struct.parse rounds) >>= _) s)
  refine (reads_struct rounds).bind start (fun stct t ⟨body, keyword⟩ => ?_) fun _ t stays => ?_
  · exact .inl ⟨body.node, .inl keyword⟩
  · have so_far := stays.marks start
    refine lands_is_token so_far (fun u sees => ?_) fun kind u sees other => ?_
    · refine reads_peeked.bind (sees.marks so_far) fun n v sees' => ?_
      have symbol : n.type_ = .Symbol := (sees'.begins.back sees.toStays).unique sees.begins
      refine lands_next (sees.marks so_far) sees' (by rw [symbol]; nofun) fun x named => ?_
      exact .inl ⟨named.node, .inr (sees.begins.back stays)⟩
    · have back : Coherent (u.Load s.state_) := by
        refine sees.coherent.Load ?_
        rw [sees.source, ← start.source]
        exact start.coherent.located
      refine .inr ⟨⟨back, sees.source, rfl⟩, rfl, fun symbol => ?_⟩
      exact other ((sees.begins.back stays).unique symbol)

theorem lands_type {Q : β → TokenStream → Prop} {f : Except Err VarType → Parsing TokenStream β}
    {s t : TokenStream} {cs : List (SpanTree Loc)} (so_far : Marks src s t cs)
    (typed : ∀ ty u, Marks src s u (cs ++ [ty.spans]) → Begins src t .Struct ∨ Begins src t .Symbol →
      Lands src Q (f (.ok ty) u))
    (untyped : ∀ u, Stays src t u → ¬ Begins src t .Symbol →
      Lands src Q (f (.ok ⟨.init, .init, false, none, []⟩) u)) :
    Lands src Q ((attempt (VarType.parse rounds) >>= f) t) := by
  have reads := reads_type rounds t so_far.coherent so_far.source
  have fails := sure_var_type rounds t
  rw [run_bind, attempt]
  cases run : VarType.parse rounds t with
  | ok ty u =>
    rw [run] at reads
    rcases reads with ⟨marks, begins⟩ | ⟨stays, rfl, other⟩
    · exact typed ty u (so_far.append marks) begins
    · exact untyped u stays other
  | err e u =>
    rw [run] at fails
    exact fails.elim
  | abort => trivial
  | out_of_fuel => trivial

theorem reads_declaration : Nests src Declaration.spans (Declaration.parse rounds) := by
  refine Reads.guard fun s start => (reads_expect fun _ _ => ⟨_, rfl⟩).bind start ?_
  rintro k t ⟨-, s', w, sees, keyword, steps⟩
  have first := steps.back sees.same
  have declared : Marks src t t [] := .here steps.coherent steps.source rfl
  refine (reads_expect fun _ _ => ⟨_, rfl⟩).bind declared ?_
  rintro n u ⟨-, t', w', sees', symbol, steps'⟩
  have second := steps'.back sees'.same
  have named : Marks src t u [] := declared.step second (untyped_var second.here (by rw [symbol]; nofun))
  have seen : visible (src.drop s.state_.pos) = w :: w' :: visible (src.drop u.state_.pos) := by
    rw [first.behind (by rw [keyword]; nofun), second.behind (by rw [symbol]; nofun)]
  refine lands_type rounds named (fun ty v typed begins => ?_) fun v stays _ => ?_
  · refine lands_expect (fun _ _ => ⟨_, rfl⟩) nofun typed fun _ x assigned => ?_
    refine (reads_expr rounds).bind assigned (fun e y ⟨value, _⟩ => ?_) fun _ y stays => stays.fails
    have plain : ¬ Untyped (visible (src.drop s.state_.pos)) := by
      rw [seen]
      rintro ⟨_, _, a, rest, same, -, -, assign⟩
      have tail := (List.cons.inj (List.cons.inj same).2).2
      have behind : Begins src u .Assign := begins_visible tail assign
      rcases begins with struct_ | name
      · exact nomatch struct_.unique behind
      · exact nomatch name.unique behind
    exact ((start.step first plain).append (assigned.append value)).node
  · refine (reads_expect fun _ _ => ⟨_, rfl⟩).bind (stays.marks named) ?_
    rintro _ x ⟨-, v', a, sees'', assign, steps''⟩
    have assigned : Marks src t x [] :=
      (sees''.marks (stays.marks named)).step steps'' (untyped_var steps''.here (by rw [assign]; nofun))
    refine (reads_expr rounds).bind assigned (fun e y ⟨value, _⟩ => ?_) fun _ y stays => stays.fails
    obtain ⟨a, here, is⟩ := sees''.begins.back stays
    obtain ⟨rest, head⟩ := visible_head here
    have untyped : Untyped (visible (src.drop s.state_.pos)) :=
      ⟨w, w', a, rest, by rw [seen, head], keyword, symbol, is⟩
    exact .untyped start.coherent start.source first untyped (assigned.append value)

theorem reads_assignment : Nests src Assignment.spans (Assignment.parse rounds) := by
  refine Reads.guard fun s start => lands_expect (fun _ _ => ⟨_, rfl⟩) nofun start fun v t named => ?_
  refine lands_expect (fun _ _ => ⟨_, rfl⟩) nofun named fun _ u assigned => ?_
  refine (reads_expr rounds).bind assigned (fun e w ⟨value, _⟩ => ?_) fun _ w stays => stays.fails
  exact (assigned.append value).node

theorem reads_exprs (left : Nat) :
    Reads src (fun s es t => Marks src s t (Expr.spansAll es)) (Return.parse_exprs rounds left) := by
  induction left with
  | zero => exact fun _ _ _ => trivial
  | succ left ih =>
    refine .of fun s start => ?_
    refine (reads_expr rounds).bind start (fun e t ⟨first, _⟩ => ?_) fun _ t stays => stays.marks start
    exact ih.bind first fun es u rest => first.append rest

theorem reads_return : Nests src Return.spans (Return.parse rounds) := by
  refine Reads.guard fun s start => lands_expect (fun _ _ => ⟨_, rfl⟩) nofun start fun _ t keyword => ?_
  exact (reads_exprs rounds 100).bind keyword fun es u rest => (keyword.append rest).node

theorem reads_typedef : Nests src Typedef.spans (Typedef.parse rounds) := by
  refine Reads.guard fun s start => lands_expect (fun _ _ => ⟨_, rfl⟩) nofun start fun _ t keyword => ?_
  refine lands_type rounds keyword (fun ty u typed _ => ?_) fun u stays other => ?_
  · refine reads_peeked.bind typed fun n v sees => ?_
    split
    · next symbol => exact lands_next typed sees (by rw [symbol]; nofun) fun w named => named.node
    · exact sees.fails
  · refine reads_peeked.bind (stays.marks keyword) fun n v sees => ?_
    split
    · next symbol => exact absurd (symbol ▸ sees.begins.back stays) other
    · exact sees.fails

end Types

end Spans

end Mygo
