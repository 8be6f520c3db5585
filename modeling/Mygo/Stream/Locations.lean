import Mygo.Parser.Backtrack

namespace Mygo

/-- One byte of a scan; the flag tells that a line feed would belong to the line end before it. -/
def Loc.step (s : Loc × Bool) (c : UInt8) : Loc × Bool :=
  if c = 10 ∧ s.2 = true then (s.1, false)
  else if c = 10 ∨ c = 13 then (⟨s.1.line + 1, 1⟩, c = 13)
  else (⟨s.1.line, s.1.coloum + 1⟩, false)

def Loc.scan (s : Loc × Bool) (cs : Bytes) : Loc × Bool := cs.foldl Loc.step s

def inline (c : UInt8) : Bool := c != 10 && c != 13

namespace Lexer

variable {cs : Bytes} {v : Value}

theorem digits_takeWhile (len : Nat) (res : Int) (cs : Bytes) :
    (digits len res cs).1 = len + (cs.takeWhile is_digit).length := by
  induction cs generalizing len res with
  | nil => rfl
  | cons c cs ih =>
    rw [digits, List.takeWhile_cons]
    split
    · next digit =>
      rw [ih, List.length_cons]
      omega
    · rfl

theorem inline_digit {c : UInt8} (h : is_digit c = true) : inline c = true := by
  simp [is_digit, inline, UInt8.le_iff_toNat_le, ← UInt8.toNat_inj] at h ⊢
  omega

theorem inline_blank {c : UInt8} (h : is_blank c = true) : inline c = true := by
  simp [is_blank, inline, ← UInt8.toNat_inj] at h ⊢
  omega

theorem inline_symbol {c : UInt8} (h : is_symbol_ele c = true) : inline c = true := by
  simp [is_symbol_ele, is_symbol_head_ele, is_digit, inline, UInt8.le_iff_toNat_le, ← UInt8.toNat_inj] at h ⊢
  omega

theorem inline_takeWhile {p : UInt8 → Bool} (h : ∀ c, p c = true → inline c = true) (cs : Bytes) :
    ∀ c ∈ cs.takeWhile p, inline c = true :=
  fun c member => h c (List.all_eq_true.mp List.all_takeWhile c member)

theorem int_take (h : int_from_chars cs = some v) : cs.take v.len_ = cs.takeWhile is_digit := by
  simp only [int_from_chars] at h
  split at h
  · cases h
    rw [Value.CreateInt, Value.len_make, digits_takeWhile, Nat.zero_add]
    exact (List.prefix_iff_eq_take.mp (List.takeWhile_prefix _)).symm
  · cases h

theorem inline_float (h : float_from_chars cs = some v) : ∀ c ∈ cs.take v.len_, inline c = true := by
  unfold float_from_chars at h
  split at h
  · cases h
  · next n1 first =>
    split at h
    · cases h
    · next dot rest dropped =>
      split at h
      · cases h
      · next point =>
        split at h
        · cases h
        · next n2 second =>
          cases h
          obtain rfl : dot = 46 := not_not.mp point
          have parts : cs.take (n1.len_ + n2.len_ + 1) =
              cs.takeWhile is_digit ++ 46 :: rest.takeWhile is_digit := by
            rw [← int_take first, ← int_take second, Nat.add_assoc, List.take_add, dropped]
            rfl
          change ∀ c ∈ cs.take (n1.len_ + n2.len_ + 1), inline c = true
          rw [parts]
          exact List.forall_mem_append.mpr ⟨inline_takeWhile (fun _ => inline_digit) cs,
            List.forall_mem_cons.mpr ⟨rfl, inline_takeWhile (fun _ => inline_digit) rest⟩⟩

theorem inline_simple (h : simple_from_chars cs = some v) : ∀ c ∈ cs.take v.len_, inline c = true := by
  obtain ⟨t, member, begins, rfl⟩ := simple_some h
  have spelled : ∀ t ∈ simple_tokens, ∀ c ∈ t.spelling, inline c = true := by decide +kernel
  rw [Value.len_make, ← List.prefix_iff_eq_take.mp begins]
  exact spelled t member

theorem inline_word {c : UInt8} (h : symbol_from_chars (c :: cs) = some v) :
    ∀ c' ∈ (c :: cs).take v.len_, inline c' = true := by
  simp only [symbol_from_chars] at h
  split at h
  · next head =>
    split at h
    · cases h
    · cases h
      have word : (c :: cs).take ((cs.takeWhile is_symbol_ele).length + 1) = c :: cs.takeWhile is_symbol_ele :=
        congrArg (c :: ·) (List.prefix_iff_eq_take.mp (List.takeWhile_prefix _)).symm
      change ∀ c' ∈ (c :: cs).take ((cs.takeWhile is_symbol_ele).length + 1), inline c' = true
      rw [word]
      refine List.forall_mem_cons.mpr ⟨inline_symbol ?_, inline_takeWhile (fun _ => inline_symbol) cs⟩
      rw [is_symbol_ele, head]
      rfl
  · cases h

theorem fromChars_inline (h : Value.FromChars cs = some v) (line : v.type_ ≠ .Enl) (string : v.type_ ≠ .Str) :
    ∀ c ∈ cs.take v.len_, inline c = true := by
  cases cs with
  | nil => simp
  | cons c cs =>
    rcases fromChars_cases h with endl | ⟨-, rfl⟩ | simple | float | int | str | symbol
    · exact absurd (bare_endl endl).2 line
    · rw [Value.len_make, ← List.prefix_iff_eq_take.mp (List.takeWhile_prefix _)]
      exact inline_takeWhile (fun _ => inline_blank) _
    · exact inline_simple simple
    · exact inline_float float
    · rw [int_take int]
      exact inline_takeWhile (fun _ => inline_digit) _
    · exact absurd (bare_str str).2 string
    · exact inline_word symbol

theorem endl_cases (h : endl_from_chars cs = some v) : v.type_ = .Enl ∧
    (cs.take v.len_ = [13, 10] ∨ cs.take v.len_ = [10] ∨
      cs.take v.len_ = [13] ∧ (cs.drop v.len_).head? ≠ some 10) := by
  unfold endl_from_chars at h
  split at h
  · cases h
    exact ⟨rfl, .inl rfl⟩
  · next rest other =>
    cases h
    refine ⟨rfl, .inr (.inr ⟨rfl, fun follows => ?_⟩)⟩
    obtain ⟨tail, rfl⟩ := List.head?_eq_some_iff.mp follows
    exact other tail rfl
  · cases h
    exact ⟨rfl, .inr (.inl rfl)⟩
  · cases h

end Lexer

namespace Loc

variable {s : Loc × Bool} {cs cs' : Bytes}

theorem scan_append (s : Loc × Bool) (cs cs' : Bytes) : scan s (cs ++ cs') = scan (scan s cs) cs' :=
  List.foldl_append

theorem step_inline {c : UInt8} (h : inline c = true) : step s c = (⟨s.1.line, s.1.coloum + 1⟩, false) := by
  simp only [inline, Bool.and_eq_true, bne_iff_ne] at h
  rw [step, if_neg (fun both => h.1 both.1), if_neg (not_or.mpr h)]

theorem scan_inline (h : ∀ c ∈ cs, inline c = true) :
    scan s cs = (⟨s.1.line, s.1.coloum + cs.length⟩, s.2 && cs.isEmpty) := by
  induction cs generalizing s with
  | nil => simp [scan]
  | cons c cs ih =>
    obtain ⟨first, rest⟩ := List.forall_mem_cons.mp h
    change scan (step s c) cs = _
    rw [ih rest, step_inline first, List.length_cons]
    simp [Nat.add_comm 1, Nat.add_assoc]

theorem line_le_step (s : Loc × Bool) (c : UInt8) : s.1.line ≤ (step s c).1.line := by
  unfold step
  split
  · exact Nat.le_refl _
  · split
    · exact Nat.le_succ _
    · exact Nat.le_refl _

theorem line_le_scan (s : Loc × Bool) (cs : Bytes) : s.1.line ≤ (scan s cs).1.line := by
  induction cs generalizing s with
  | nil => exact Nat.le_refl _
  | cons c cs ih => exact (line_le_step s c).trans (ih _)

end Loc

/-- A string with a line end in it. -/
def Value.broken (v : Value) : Bool := v.type_ = .Str && !v.str_data_.all inline

namespace TokenStream

variable {src : Bytes} {p q : Nat} {l m l' : Loc} {v : Value} {vs : List Value} {flag : Bool}

def Ready (src : Bytes) (p : Nat) (flag : Bool) : Prop := flag = true → (src.drop p).head? ≠ some 10

theorem texts_cons (src : Bytes) (p : Nat) (v : Value) (vs : List Value) :
    texts src p (v :: vs) = (src.drop p).take v.len_ ++ texts src (p + v.len_) vs := rfl

theorem string_text (h : token src p = some v) (string : v.type_ = .Str) :
    (src.drop p).take v.len_ = 34 :: (v.str_data_ ++ [34]) := by
  rw [token] at h
  cases rest : src.drop p with
  | nil =>
    rw [rest] at h
    cases h
    cases string
  | cons c cs =>
    rw [rest] at h
    exact (Lexer.fromChars_covers h).string string

theorem text_length (h : token src p = some v) : ((src.drop p).take v.len_).length = v.len_ := by
  rw [token] at h
  cases rest : src.drop p with
  | nil =>
    rw [rest] at h
    cases h
    rfl
  | cons c cs =>
    rw [rest] at h
    rw [List.length_take]
    exact Nat.min_eq_left (Lexer.fromChars_covers h).within

theorem scan_endl (h : token src p = some v) (line : v.type_ = .Enl) (ready : Ready src p flag) :
    (Loc.scan (l, flag) ((src.drop p).take v.len_)).1 = ⟨l.line + 1, 1⟩ ∧
      Ready src (p + v.len_) (Loc.scan (l, flag) ((src.drop p).take v.len_)).2 := by
  obtain ⟨-, text | text | ⟨text, follows⟩⟩ := Lexer.endl_cases (Lexer.fromChars_endl h line)
  · rw [text]
    cases flag with
    | true | false => exact ⟨rfl, nofun⟩
  · have feed : (src.drop p).head? = some 10 := by
      have head := congrArg List.head? text
      rw [List.head?_take] at head
      split at head
      · cases head
      · exact head
    rw [text]
    cases flag with
    | true => exact absurd feed (ready rfl)
    | false => exact ⟨rfl, nofun⟩
  · rw [List.drop_drop] at follows
    rw [text]
    cases flag with
    | true | false => exact ⟨rfl, fun _ => follows⟩

theorem ready_token (l : Loc) (h : token src p = some v) (ready : Ready src p flag) :
    Ready src (p + v.len_) (Loc.scan (l, flag) ((src.drop p).take v.len_)).2 := by
  by_cases line : v.type_ = .Enl
  · exact (scan_endl h line ready).2
  · by_cases string : v.type_ = .Str
    · rw [string_text h string, ← List.cons_append, Loc.scan_append]
      intro follows
      change (Loc.step _ 34).2 = true at follows
      rw [Loc.step_inline rfl] at follows
      cases follows
    · rw [Loc.scan_inline (Lexer.fromChars_inline h line string)]
      intro both
      obtain ⟨set, none⟩ := Bool.and_eq_true_iff.mp both
      have empty : v.len_ = 0 := by
        rw [← text_length h]
        exact List.length_eq_zero_iff.mpr (List.isEmpty_iff.mp none)
      rw [empty]
      exact ready set

theorem scan_token (h : token src p = some v) (ready : Ready src p flag) (whole : v.broken = false) :
    (Loc.scan (l, flag) ((src.drop p).take v.len_)).1 = after l v := by
  by_cases line : v.type_ = .Enl
  · rw [(scan_endl h line ready).1, after, if_pos line]
  · have plain : ∀ c ∈ (src.drop p).take v.len_, inline c = true := by
      by_cases string : v.type_ = .Str
      · simp only [Value.broken, string, decide_true, Bool.true_and, Bool.not_eq_false'] at whole
        rw [string_text h string]
        exact List.forall_mem_cons.mpr ⟨rfl, List.forall_mem_append.mpr
          ⟨List.all_eq_true.mp whole, List.forall_mem_singleton.mpr rfl⟩⟩
      · exact Lexer.fromChars_inline h line string
    rw [Loc.scan_inline plain, text_length h, after, if_neg line]

theorem line_token (h : token src p = some v) (ready : Ready src p flag) {k : Nat}
    (more : l.line + k ≤ l'.line) : (after l v).line + (k + if v.broken then 1 else 0) ≤
      (Loc.scan (l', flag) ((src.drop p).take v.len_)).1.line := by
  cases broken : v.broken with
  | false =>
    rw [scan_token h ready broken]
    unfold after
    split
    · simp only [Bool.false_eq_true, if_false]
      omega
    · simpa using more
  | true =>
    obtain ⟨string, ends⟩ := Bool.and_eq_true_iff.mp broken
    have string : v.type_ = .Str := of_decide_eq_true string
    have stays : (after l v).line = l.line := by rw [after, if_neg (by rw [string]; nofun)]
    have stops : (v.str_data_.takeWhile inline).length ≠ v.str_data_.length := by
      intro same
      have all : v.str_data_.all inline = true := by
        rw [← List.IsPrefix.eq_of_length (List.takeWhile_prefix inline) same]
        exact List.all_takeWhile
      rw [all] at ends
      cases ends
    obtain ⟨c, rest, parts, line⟩ := Lexer.takeWhile_stops stops
    have plain : ∀ c ∈ 34 :: v.str_data_.takeWhile inline, inline c = true :=
      List.forall_mem_cons.mpr ⟨rfl, List.all_eq_true.mp List.all_takeWhile⟩
    have text : (src.drop p).take v.len_ = (34 :: v.str_data_.takeWhile inline) ++ c :: (rest ++ [34]) := by
      rw [string_text h string]
      conv_lhs => rw [parts]
      simp
    have newline : ∀ s : Loc, (Loc.step (s, false) c).1.line = s.line + 1 := by
      intro s
      have ends : c = 10 ∨ c = 13 := by
        simp only [inline, Bool.and_eq_false_iff, bne_eq_false_iff_eq] at line
        exact line
      rw [Loc.step, if_neg (fun both => nomatch both.2), if_pos ends]
    rw [text, Loc.scan_append, Loc.scan_inline plain]
    have later := Loc.line_le_scan
      (Loc.step (⟨l'.line, l'.coloum + (34 :: v.str_data_.takeWhile inline).length⟩, false) c)
      (rest ++ [34])
    rw [newline] at later
    simp only [List.isEmpty_cons, Bool.and_false, if_true]
    exact le_trans (by simp only [stays]; omega) later

theorem scan_tiles (h : Tiles src p l vs q m) (ready : Ready src p flag) (whole : ∀ v ∈ vs, v.broken = false) :
    (Loc.scan (l, flag) (texts src p vs)).1 = m := by
  induction h generalizing flag with
  | nil => rfl
  | cons first _ ih =>
    obtain ⟨one, others⟩ := List.forall_mem_cons.mp whole
    rw [texts_cons, Loc.scan_append, ← ih (ready_token _ first ready) others, ← scan_token first ready one]

theorem line_tiles (h : Tiles src p l vs q m) (ready : Ready src p flag) {k : Nat}
    (more : l.line + k ≤ l'.line) :
    m.line + (k + vs.countP Value.broken) ≤ (Loc.scan (l', flag) (texts src p vs)).1.line := by
  induction h generalizing flag k l' with
  | nil => exact more
  | @cons p v l vs q m first _ ih =>
    rw [texts_cons, Loc.scan_append, List.countP_cons]
    have rest := ih (ready_token l' first ready) (line_token first ready more)
    rw [Nat.add_assoc, Nat.add_comm (ite _ _ _)] at rest
    exact rest

def Complete (src : Bytes) : Prop := ∃ vs m, Tiles src 0 .init vs src.length m

theorem Complete.extends (complete : Complete src) (h : Tiles src 0 .init vs q m) :
    ∃ us n, Tiles src 0 .init (vs ++ us) src.length n := by
  obtain ⟨all, n, whole⟩ := complete
  rcases Nat.lt_or_ge q src.length with further | last
  · obtain ⟨v, us, rest⟩ := h.between whole further
    exact ⟨v :: us, n, h.append rest⟩
  · obtain rfl : q = src.length := Nat.le_antisymm (h.within (Nat.zero_le _)) last
    exact ⟨[], m, by rwa [List.append_nil]⟩

theorem Complete.reaches (complete : Complete src) :
    ∃ n s, walk src n = some s ∧ s.state_.pos = src.length := by
  obtain ⟨n, s, walked, -, ⟨last, -⟩ | ⟨-, vs, q, m, tiles, -, stuck⟩⟩ := (tokens_tile src).ends
  · exact ⟨n, s, walked, last⟩
  · obtain ⟨coherent, rfl⟩ := walk_coherent walked
    obtain ⟨before, sofar⟩ := coherent.located
    obtain ⟨all, _, whole⟩ := complete
    have reached := sofar.append tiles
    rcases Nat.lt_or_ge q s.src_.length with further | last
    · obtain ⟨v, us, rest⟩ := reached.between whole further
      cases rest with
      | cons first _ => exact nomatch first.symm.trans stuck
    · exact nomatch (token_end last).symm.trans stuck

/-- The location of a stream is the line and the column of its position. -/
def Truthful (s : TokenStream) : Prop := s.state_.loc = (Loc.scan (.init, false) (s.src_.take s.state_.pos)).1

theorem Tiles.token (h : Tiles src p l vs q m) : ∀ v ∈ vs, ∃ r, token src r = some v := by
  induction h with
  | nil => exact nofun
  | cons first _ ih => exact List.forall_mem_cons.mpr ⟨⟨_, first⟩, ih⟩

/-- Locations are true in every state of a walk exactly when no string has a line end in it. -/
theorem locations_true_iff (complete : Complete src) :
    (∀ n s, walk src n = some s → s.Truthful) ↔
      ∀ vs m, Tiles src 0 .init vs src.length m →
        ∀ v ∈ vs, v.type_ = .Str → ∀ c ∈ v.str_data_, c ≠ 10 ∧ c ≠ 13 := by
  have unbroken : ∀ v : Value, v.broken = false ↔ v.type_ = .Str → ∀ c ∈ v.str_data_, c ≠ 10 ∧ c ≠ 13 := by
    intro v
    simp [Value.broken, inline]
  constructor
  · intro truth vs m tiles
    obtain ⟨n, s, walked, last⟩ := complete.reaches
    obtain ⟨coherent, rfl⟩ := walk_coherent walked
    have here := truth n s walked
    rw [Truthful, last, tiles.covers, List.take_zero, List.nil_append] at here
    have ready : Ready s.src_ 0 false := nofun
    have counted := line_tiles tiles ready (Nat.le_refl (Loc.init.line + 0))
    have same : s.state_.loc = m := by
      obtain ⟨ws, sofar⟩ := coherent.located
      rw [last] at sofar
      exact sofar.unique tiles
    rw [← here, same, Nat.zero_add] at counted
    have none : vs.countP Value.broken = 0 := by omega
    intro v member
    have whole := List.countP_eq_zero.mp none v member
    exact (unbroken v).mp (Bool.not_eq_true _ ▸ whole)
  · intro whole n s walked
    obtain ⟨coherent, rfl⟩ := walk_coherent walked
    obtain ⟨vs, sofar⟩ := coherent.located
    obtain ⟨us, m, tiles⟩ := complete.extends sofar
    have all := whole _ m tiles
    rw [Truthful, sofar.covers, List.take_zero, List.nil_append]
    have ready : Ready s.src_ 0 false := nofun
    refine (scan_tiles sofar ready fun v member => ?_).symm
    exact (unbroken v).mpr (all v (List.mem_append_left _ member))

theorem locations_true_sample : Complete (bytes "x = 1" ++ [13, 10]) ∧
    ∀ n s, walk (bytes "x = 1" ++ [13, 10]) n = some s → s.Truthful := by
  have complete : Complete (bytes "x = 1" ++ [13, 10]) := by
    exact ⟨_, _, .cons (rfl : token _ 0 = some (.CreateSymbol 1 [120])) <|
      .cons (rfl : token _ 1 = some (.make .Space 1)) <|
      .cons (rfl : token _ 2 = some (.make .Assign 1)) <|
      .cons (rfl : token _ 3 = some (.make .Space 1)) <|
      .cons (rfl : token _ 4 = some (.CreateInt 1 1)) <|
      .cons (rfl : token _ 5 = some (.make .Enl 2)) .nil⟩
  refine ⟨complete, (locations_true_iff complete).mpr fun vs m tiles v member string => ?_⟩
  obtain ⟨r, here⟩ := tiles.token v member
  have quote : (34 : UInt8) ∈ ((bytes "x = 1" ++ [13, 10]).drop r).take v.len_ := by
    rw [string_text here string]
    exact List.mem_cons_self
  exact absurd (List.mem_of_mem_drop (List.mem_of_mem_take quote)) (by decide)

/-- A string of one line feed: after it the location is `(1,4)`, the position `(2,2)`. -/
theorem broken_string_untrue :
    Complete [34, 10, 34] ∧ ∃ n s, walk [34, 10, 34] n = some s ∧ ¬ s.Truthful := by
  refine ⟨⟨_, _, .cons (rfl : token _ 0 = some (.CreateStr 3 [10])) .nil⟩, 1, _, rfl, ?_⟩
  unfold Truthful
  decide

end TokenStream

end Mygo
