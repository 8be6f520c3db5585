import Mygo.Compiler.Order

namespace Mygo

abbrev Sizes := List (Bytes × Nat)

def basicSizes : Sizes := [(bytes "bool", 1), (bytes "int", 4), (bytes "float32", 4), (bytes "string", 16)]

namespace Typedef

variable (tf : Typedef)

def fields : List (Bytes × Bytes) := (tf.old_type_.stct_.map (·.fields_)).getD []

/-- A struct is the sum of its fields, and any other type what it is a name for. -/
def size (sizes : Sizes) : Nat :=
  if tf.old_type_.is_struct_ then (tf.fields.map fun field => (sizes.lookup field.2).getD 0).sum
  else (sizes.lookup tf.old_type_.name_).getD 0

def Refers (names : List Bytes) : Prop :=
  if tf.old_type_.is_struct_ then tf.old_type_.stct_ ≠ none ∧ ∀ field ∈ tf.fields, field.2 ∈ names
  else tf.old_type_.name_ ∈ names

structure Entry (sizes : Sizes) (table : TypeTable) (info : TypeInfo) : Prop where
  name : info.name = tf.new_name_
  size : info.size = tf.size sizes
  fields : tf.old_type_.is_struct_ = true → List.Forall₂
    (fun entry field => entry.2 = field.1 ∧ ∃ t ∈ table, t.name = field.2 ∧ t.type_id = entry.1)
    info.fields tf.fields

def RefersAll : List Bytes → List Typedef → Prop
  | _, [] => True
  | names, tf :: tfs => tf.Refers names ∧ RefersAll (names ++ [tf.new_name_]) tfs

def Sized (c : Compiler) : Sizes → List Typedef → Prop
  | _, [] => True
  | sizes, tf :: tfs =>
    ((tf.size sizes < 2 ^ 31 → ∃ info ∈ c.type_table_, tf.Entry sizes c.type_table_ info) ∧
      (2 ^ 31 ≤ tf.size sizes → c.errors_ ≠ [])) ∧ Sized c (sizes ++ [(tf.new_name_, tf.size sizes)]) tfs

/-- Structs are not too large, and all other types have no bytes. -/
def Modest : Sizes → List Typedef → Prop
  | _, [] => True
  | sizes, tf :: tfs =>
    tf.size sizes < 2 ^ 31 ∧ (tf.old_type_.is_struct_ = false → tf.size sizes = 0) ∧
      Modest (sizes ++ [(tf.new_name_, tf.size sizes)]) tfs

end Typedef

namespace TypeTable

def capacity : Nat := 214748364

def ids (n : Nat) : List Int := (List.range n).map fun i : Nat => 10 * (i : Int) + 10

/-- The ids are the multiples of ten in order; after the last one there is one that has wrapped. -/
inductive Numbered (table : TypeTable) : Prop
  | room (n : Nat) (some : 0 < n) (few : n ≤ capacity) (same : table.map (·.type_id) = ids n)
  | full (same : table.map (·.type_id) = ids capacity ++ [(-2147483646 : Int)])

variable {table : TypeTable} {info : TypeInfo}

theorem mem_ids {n : Nat} {id : Int} (h : id ∈ ids n) : 0 < id ∧ id ≤ 10 * n := by
  obtain ⟨i, inside, rfl⟩ := List.mem_map.mp h
  have := List.mem_range.mp inside
  omega

theorem length_ids (n : Nat) : (ids n).length = n := by
  rw [ids, List.length_map, List.length_range]

theorem nodup_ids (n : Nat) : (ids n).Nodup :=
  List.nodup_range.map fun i j same => by omega

theorem ids_succ (n : Nat) : ids (n + 1) = ids n ++ [10 * (n : Int) + 10] := by
  rw [ids, List.range_succ, List.map_append]
  rfl

theorem max_type_id_ids (table : TypeTable) :
    max_type_id table =
      (table.map (·.type_id)).foldl (fun (max id : Int) => if id > max then id else max) (-1) := by
  rw [List.foldl_map, max_type_id]

theorem foldl_ids {n : Nat} (some : 0 < n) :
    (ids n).foldl (fun (max id : Int) => if id > max then id else max) (-1) = 10 * (n : Int) := by
  induction n with
  | zero => cases some
  | succ n ih =>
    rw [ids_succ, List.foldl_append, List.foldl_cons, List.foldl_nil]
    rcases Nat.eq_zero_or_pos n with rfl | some
    · rfl
    · rw [ih some, if_pos (by omega)]
      omega

namespace Numbered

theorem basic : Numbered initBasicInfos := .room 4 (by decide) (by decide) rfl

theorem nodup (h : Numbered table) : (table.map (·.type_id)).Nodup := by
  cases h with
  | room n some few same =>
    rw [same]
    exact nodup_ids n
  | full same =>
    rw [same, List.nodup_append]
    refine ⟨nodup_ids capacity, List.nodup_singleton _, fun id inside last single => ?_⟩
    have positive : 0 < id := (mem_ids inside).1
    rw [List.mem_singleton.mp single]
    exact (positive.trans_le' (by norm_num)).ne'

theorem length_room {n : Nat} (same : table.map (·.type_id) = ids n) : table.length = n := by
  rw [← List.length_map (·.type_id), same, length_ids]

theorem length_full (same : table.map (·.type_id) = ids capacity ++ [(-2147483646 : Int)]) :
    table.length = capacity + 1 := by
  rw [← List.length_map (·.type_id), same, List.length_append, length_ids, List.length_singleton]

theorem length (h : Numbered table) : table.length ≤ capacity + 1 := by
  cases h with
  | room n some few same => exact (length_room same).le.trans (Nat.le_succ_of_le few)
  | full same => exact (length_full same).le

theorem max_full (same : table.map (·.type_id) = ids capacity ++ [(-2147483646 : Int)]) :
    max_type_id table = 2147483640 := by
  rw [max_type_id_ids, same, List.foldl_append, foldl_ids (by decide)]
  rfl

theorem insert (h : Numbered table) (id : info.type_id = i32 (max_type_id table + 10)) :
    Numbered (table.insert info) ∧ (table.length ≤ capacity → table.insert info = table ++ [info]) := by
  have fresh : info.type_id ∉ table.map (·.type_id) → table.insert info = table ++ [info] := by
    intro absent
    rw [TypeTable.insert, if_neg]
    rw [List.any_eq_true]
    rintro ⟨old, member, same⟩
    exact absent (of_decide_eq_true same ▸ List.mem_map_of_mem member)
  cases h with
  | room n some few same =>
    have max : max_type_id table = 10 * n := by
      rw [max_type_id_ids, same, foldl_ids some]
    rw [max] at id
    rcases Nat.lt_or_ge n capacity with room | full
    · have next : info.type_id = 10 * (n : Int) + 10 := by
        rw [id]
        unfold capacity at room
        exact i32_of_isInt ⟨by omega, by omega⟩
      have absent : info.type_id ∉ table.map (·.type_id) := by
        rw [same, next]
        intro inside
        have := (mem_ids inside).2
        omega
      rw [fresh absent]
      refine ⟨.room (n + 1) (Nat.succ_pos n) room ?_, fun _ => rfl⟩
      rw [List.map_append, same, ids_succ, List.map_singleton, next]
    · obtain rfl : n = capacity := Nat.le_antisymm few full
      have next : info.type_id = -2147483646 := id
      have absent : info.type_id ∉ table.map (·.type_id) := by
        rw [same, next]
        intro inside
        have := (mem_ids inside).1
        omega
      rw [fresh absent]
      refine ⟨.full ?_, fun _ => rfl⟩
      rw [List.map_append, same, List.map_singleton, next]
  | full same =>
    rw [max_full same] at id
    have next : info.type_id = -2147483646 := id
    have present : info.type_id ∈ table.map (·.type_id) := by
      rw [same, next]
      exact List.mem_append_right _ (List.mem_singleton_self _)
    obtain ⟨old, member, equal⟩ := List.mem_map.mp present
    have kept : table.insert info = table := by
      rw [TypeTable.insert, if_pos]
      exact List.any_eq_true.mpr ⟨old, member, decide_eq_true equal⟩
    rw [kept]
    exact ⟨.full same, fun room => absurd (length_full same) (Nat.lt_succ_of_le room).ne⟩

end Numbered

def Right (sizes : Sizes) (table : TypeTable) : Prop :=
  table.map (fun info => (info.name, info.size)) = sizes.map fun entry => (entry.1, (entry.2 : Int))

theorem right_basic : Right basicSizes initBasicInfos := rfl

theorem lookup_nodup {sizes : Sizes} {name : Bytes} {size : Nat} (nodup : (sizes.map Prod.fst).Nodup)
    (h : (name, size) ∈ sizes) : sizes.lookup name = some size := by
  obtain ⟨before, after, rfl⟩ := List.append_of_mem h
  refine List.lookup_eq_some_iff.mpr ⟨before, after, rfl, fun entry inside => bne_iff_ne.mpr ?_⟩
  rw [List.map_append, List.nodup_append] at nodup
  exact (nodup.2.2 entry.1 (List.mem_map_of_mem inside) name (.head _)).symm

namespace Right

variable {sizes : Sizes} {host : Host}

theorem names (h : Right sizes table) : table.map (·.name) = sizes.map Prod.fst := by
  have first := congrArg (List.map Prod.fst) h
  rwa [List.map_map, List.map_map] at first

theorem append (h : Right sizes table) {size : Nat} (exact_ : info.size = size) :
    Right (sizes ++ [(info.name, size)]) (table ++ [info]) := by
  rw [Right, List.map_append, List.map_append, h, List.map_singleton, List.map_singleton, exact_]

theorem find (h : Right sizes table) (nodup : (sizes.map Prod.fst).Nodup) {name : Bytes}
    (inside : name ∈ sizes.map Prod.fst) (host : Host) :
    ∃ info ∈ table, table.findByName host name = some info ∧ info.name = name ∧
      info.size = ((sizes.lookup name).getD 0 : Nat) := by
  have distinct : Distinct table := by rwa [Distinct, h.names]
  rw [← h.names] at inside
  obtain ⟨info, member, rfl⟩ := List.mem_map.mp inside
  refine ⟨info, member, distinct.find member host, rfl, ?_⟩
  have pair : (info.name, info.size) ∈ sizes.map fun entry => (entry.1, (entry.2 : Int)) :=
    h ▸ List.mem_map_of_mem member
  obtain ⟨⟨name, size⟩, there, same⟩ := List.mem_map.mp pair
  obtain ⟨rfl, value⟩ := Prod.mk.inj same
  rw [lookup_nodup nodup there]
  exact value.symm

end Right

end TypeTable

namespace Typedef

variable {sizes : Sizes} {c : Compiler} {tf : Typedef} {tfs : List Typedef}

theorem Entry.mono {table table' : TypeTable} {info : TypeInfo} (h : tf.Entry sizes table info)
    (more : ∀ t ∈ table, t ∈ table') : tf.Entry sizes table' info :=
  ⟨h.name, h.size, fun struct => (h.fields struct).imp fun _ _ ⟨name, t, member, rest⟩ =>
    ⟨name, t, more t member, rest⟩⟩

theorem Sized.names (h : Sized c sizes tfs) (silent : c.errors_ = []) :
    ∀ tf ∈ tfs, ∃ info ∈ c.type_table_, info.name = tf.new_name_ := by
  induction tfs generalizing sizes with
  | nil => exact nofun
  | cons tf tfs ih =>
    obtain ⟨⟨small, large⟩, rest⟩ := h
    refine List.forall_mem_cons.mpr ⟨?_, ih rest⟩
    rcases Nat.lt_or_ge (tf.size sizes) (2 ^ 31) with size | size
    · obtain ⟨info, member, entry⟩ := small size
      exact ⟨info, member, entry.name⟩
    · exact absurd silent (large size)

theorem Sized.modest (h : Sized c sizes tfs) (silent : c.errors_ = [])
    (aliases : ∀ tf ∈ tfs, tf.old_type_.is_struct_ = false →
      ∀ info ∈ c.type_table_, info.name = tf.new_name_ → info.size = 0) : Modest sizes tfs := by
  induction tfs generalizing sizes with
  | nil => trivial
  | cons tf tfs ih =>
    obtain ⟨⟨small, large⟩, rest⟩ := h
    obtain ⟨first, others⟩ := List.forall_mem_cons.mp aliases
    rcases Nat.lt_or_ge (tf.size sizes) (2 ^ 31) with size | size
    · obtain ⟨info, member, entry⟩ := small size
      refine ⟨size, fun isAlias => ?_, ih rest others⟩
      have zero := entry.size.symm.trans (first isAlias info member entry.name)
      exact_mod_cast zero
    · exact absurd silent (large size)

end Typedef

namespace Compiler

open TypeTable Typedef

variable {host : Host} {sizes : Sizes} {c c' : Compiler} {tf : Typedef} {tfs : List Typedef}

abbrev FieldsOf (table : TypeTable) : List (TypeId × Bytes) → List (Bytes × Bytes) → Prop :=
  List.Forall₂ fun entry field => entry.2 = field.1 ∧ ∃ t ∈ table, t.name = field.2 ∧ t.type_id = entry.1

theorem compile_fields_exact {table : TypeTable} (right : Right sizes table)
    (nodup : (sizes.map Prod.fst).Nodup) {fields : List (Bytes × Bytes)}
    (refers : ∀ field ∈ fields, field.2 ∈ sizes.map Prod.fst) {info : TypeInfo} {n : Nat}
    (start : info.size = n)
    (small : n + (fields.map fun field => (sizes.lookup field.2).getD 0).sum < 2 ^ 31) :
    ∃ info' more, compile_fields host table fields info = some info' ∧
      info'.size = (n + (fields.map fun field => (sizes.lookup field.2).getD 0).sum : Nat) ∧
      info'.fields = info.fields ++ more ∧ FieldsOf table more fields := by
  induction fields generalizing info n with
  | nil => exact ⟨info, [], rfl, start, (List.append_nil _).symm, .nil⟩
  | cons field fields ih =>
    obtain ⟨first, rest⟩ := List.forall_mem_cons.mp refers
    obtain ⟨t, member, found, named, size⟩ := right.find nodup first host
    rw [List.map_cons, List.sum_cons, ← Nat.add_assoc] at small ⊢
    have sum : i32 (info.size + t.size) = (n + (sizes.lookup field.2).getD 0 : Nat) := by
      rw [start, size, ← Nat.cast_add]
      exact i32_small (Int.natCast_nonneg _) (by omega)
    obtain ⟨info', more, compiled, total, entries, of⟩ := @ih rest { info with
      size := i32 (info.size + t.size)
      fields := info.fields ++ [(t.type_id, field.1)] } _ sum small
    refine ⟨info', (t.type_id, field.1) :: more, ?_, total, ?_, .cons ⟨rfl, t, member, named, rfl⟩ of⟩
    · rw [compile_fields, found]
      exact compiled
    · rw [entries, List.append_assoc]
      rfl

theorem compile_typedef_exact (right : Right sizes c.type_table_) (nodup : (sizes.map Prod.fst).Nodup)
    (numbered : Numbered c.type_table_) (room : c.type_table_.length ≤ capacity)
    (refers : tf.Refers (sizes.map Prod.fst)) (small : tf.size sizes < 2 ^ 31)
    (alias_ : tf.old_type_.is_struct_ = false → tf.size sizes = 0) :
    ∃ info, compile_typedef host tf c = some { c with type_table_ := c.type_table_ ++ [info] } ∧
      tf.Entry sizes c.type_table_ info ∧ Numbered (c.type_table_ ++ [info]) := by
  have inserted : ∀ info : TypeInfo, info.type_id = i32 (c.type_table_.max_type_id + 10) →
      c.type_table_.insert info = c.type_table_ ++ [info] ∧ Numbered (c.type_table_ ++ [info]) := by
    intro info id
    obtain ⟨kept, appended⟩ := numbered.insert id
    rw [appended room] at kept
    exact ⟨appended room, kept⟩
  rw [Refers] at refers
  rw [compile_typedef]
  cases struct : tf.old_type_.is_struct_ with
  | false =>
    obtain ⟨appended, kept⟩ :=
      inserted ⟨i32 (c.type_table_.max_type_id + 10), 0, tf.new_name_, false, -1, []⟩ rfl
    refine ⟨_, by rw [if_neg Bool.false_ne_true, appended], ⟨rfl, ?_, fun isStruct => ?_⟩, kept⟩
    · rw [alias_ struct]
      rfl
    · rw [struct] at isStruct
      cases isStruct
  | true =>
    rw [struct, if_pos rfl] at refers
    obtain ⟨stct, some⟩ := Option.ne_none_iff_exists'.mp refers.1
    have fields : tf.fields = stct.fields_ := by rw [Typedef.fields, some]; rfl
    have size : tf.size sizes = (stct.fields_.map fun field => (sizes.lookup field.2).getD 0).sum := by
      rw [Typedef.size, struct, if_pos rfl, fields]
    let new : TypeInfo := ⟨i32 (c.type_table_.max_type_id + 10), 0, tf.new_name_, true, -1, []⟩
    obtain ⟨info, more, compiled, total, entries, of⟩ := @compile_fields_exact host sizes _ right nodup
      stct.fields_ (fields ▸ refers.2) new 0 rfl (by rwa [Nat.zero_add, ← size])
    obtain ⟨name, id⟩ := compile_fields_kept compiled
    obtain ⟨appended, kept⟩ := inserted info id
    refine ⟨info, ?_, ⟨name, ?_, fun _ => ?_⟩, kept⟩
    · simp only [some, if_true, Option.bind_eq_bind, Option.bind_some]
      rw [compiled, Option.bind_some, appended]
    · rw [total, Nat.zero_add, size]
    · rw [fields, entries]
      exact of

theorem compile_types_typedefs (nodes : List Node) (c : Compiler) :
    compile_types host nodes c = compile_types host ((nodes.flatMap Node.typedef).map .Typedef) c := by
  induction nodes generalizing c with
  | nil => rfl
  | cons node nodes ih =>
    cases node with
    | Typedef tf => exact congrArg (Option.bind _) (funext ih)
    | Declaration | Assignment | Expr | If | Function | Return | For => exact ih c

theorem compile_types_exact (right : Right sizes c.type_table_)
    (nodup : (sizes.map Prod.fst ++ tfs.map (·.new_name_)).Nodup) (numbered : Numbered c.type_table_)
    (room : c.type_table_.length + tfs.length ≤ capacity + 1)
    (refers : RefersAll (sizes.map Prod.fst) tfs) (modest : Modest sizes tfs) :
    ∃ c', compile_types host (tfs.map .Typedef) c = some c' ∧ (∀ t ∈ c.type_table_, t ∈ c'.type_table_) ∧
      Numbered c'.type_table_ ∧ Sized c' sizes tfs := by
  induction tfs generalizing sizes c with
  | nil => exact ⟨c, rfl, fun _ => id, numbered, trivial⟩
  | cons tf tfs ih =>
    obtain ⟨small, alias_, modest⟩ := modest
    rw [List.length_cons] at room
    obtain ⟨info, step, entry, numbered⟩ := @compile_typedef_exact host _ _ _ right nodup.of_append_left
      numbered (by omega) refers.1 small alias_
    have right' : Right (sizes ++ [(tf.new_name_, tf.size sizes)]) (c.type_table_ ++ [info]) := by
      rw [← entry.name]
      exact right.append entry.size
    have names : (sizes ++ [(tf.new_name_, tf.size sizes)]).map Prod.fst =
        sizes.map Prod.fst ++ [tf.new_name_] := List.map_append
    obtain ⟨c', compiled, kept, numbered', sized⟩ := @ih _
      { c with type_table_ := c.type_table_ ++ [info] } right'
      (by rw [names, List.append_assoc]; exact nodup) numbered
      (by rw [List.length_append, List.length_singleton]; omega) (names ▸ refers.2) modest
    obtain ⟨old, ⟨new, -⟩⟩ := (List.forall_mem_append.mp kept).imp_right List.forall_mem_cons.mp
    refine ⟨c', ?_, old, numbered', ⟨fun _ => ⟨info, new, entry.mono old⟩, fun large => ?_⟩, sized⟩
    · rw [List.map_cons, compile_types, step]
      exact compiled
    · exact absurd small large.not_gt

structure Grown (tfs : List Typedef) (c c' : Compiler) : Prop where
  errors : c'.errors_ = c.errors_
  numbered : Numbered c'.type_table_
  old : ∀ t ∈ c.type_table_, t ∈ c'.type_table_
  new : ∀ t ∈ c'.type_table_, t ∈ c.type_table_ ∨
    ∃ tf ∈ tfs, t.name = tf.new_name_ ∧ (tf.old_type_.is_struct_ = false → t.size = 0)

theorem Grown.typedef (numbered : Numbered c.type_table_) (h : compile_typedef host tf c = some c') :
    Grown [tf] c c' := by
  have inserted : ∀ info : TypeInfo, info.type_id = i32 (c.type_table_.max_type_id + 10) →
      info.name = tf.new_name_ → (tf.old_type_.is_struct_ = false → info.size = 0) →
      Grown [tf] c { c with type_table_ := c.type_table_.insert info } := by
    intro info id name size
    refine ⟨rfl, (numbered.insert id).1, fun t member => ?_, fun t member => ?_⟩
    · rw [TypeTable.insert]
      split
      · exact member
      · exact List.mem_append_left _ member
    · rw [TypeTable.insert] at member
      split at member
      · exact .inl member
      · rcases List.mem_append.mp member with member | new
        · exact .inl member
        · rw [List.mem_singleton.mp new]
          exact .inr ⟨tf, .head _, name, size⟩
  rw [compile_typedef] at h
  cases struct : tf.old_type_.is_struct_ with
  | false =>
    rw [struct, if_neg Bool.false_ne_true] at h
    cases h
    exact inserted _ rfl rfl fun _ => rfl
  | true =>
    rw [struct, if_pos rfl] at h
    obtain ⟨stct, -, h⟩ := Option.bind_eq_some_iff.mp h
    obtain ⟨info, compiled, h⟩ := Option.bind_eq_some_iff.mp h
    cases h
    obtain ⟨name, id⟩ := compile_fields_kept compiled
    exact inserted info id name fun none => by cases struct.symm.trans none

theorem Grown.types (numbered : Numbered c.type_table_)
    (h : compile_types host (tfs.map .Typedef) c = some c') : Grown tfs c c' := by
  induction tfs generalizing c with
  | nil =>
    cases h
    exact ⟨rfl, numbered, fun _ => id, fun _ => .inl⟩
  | cons tf tfs ih =>
    obtain ⟨c₁, step, rest⟩ := Option.bind_eq_some_iff.mp h
    have first := Grown.typedef numbered step
    have second := ih first.numbered rest
    refine ⟨second.errors.trans first.errors, second.numbered, fun t old => second.old t (first.old t old), ?_⟩
    intro t member
    rcases second.new t member with member | ⟨tf', inside, new⟩
    · rcases first.new t member with old | ⟨tf', inside, new⟩
      · exact .inl old
      · exact .inr ⟨tf', List.mem_singleton.mp inside ▸ .head _, new⟩
    · exact .inr ⟨tf', .tail _ inside, new⟩

/-- Type sizes are right exactly where all aliases are of types without bytes, all structs have less
than 2^31 bytes, and there are ids for all types. -/
theorem sizes_right_iff {nodes : List Node} {tfs : List Typedef} (top : nodes.flatMap Node.typedef = tfs)
    (nodup : (basicNames ++ tfs.map (·.new_name_)).Nodup) (refers : RefersAll basicNames tfs) :
    (∃ c, compile_types host nodes .init = some c ∧ (c.type_table_.map (·.type_id)).Nodup ∧
        Sized c basicSizes tfs) ↔
      Modest basicSizes tfs ∧ tfs.length ≤ 214748361 := by
  subst top
  rw [compile_types_typedefs]
  have names : basicSizes.map Prod.fst = basicNames := rfl
  constructor
  · rintro ⟨c, compiled, -, sized⟩
    have grown := Grown.types Numbered.basic compiled
    have known := sized.names grown.errors
    refine ⟨sized.modest grown.errors fun tf inside isAlias info member name => ?_, ?_⟩
    · rcases grown.new info member with basic | ⟨tf', inside', name', size⟩
      · -- A basic type has another name.
        have old : info.name ∈ basicNames := List.mem_map_of_mem basic
        have new : info.name ∈ (nodes.flatMap Node.typedef).map (·.new_name_) :=
          name ▸ List.mem_map_of_mem inside
        exact absurd rfl ((List.nodup_append.mp nodup).2.2 _ old _ new)
      · have same : tf' = tf :=
          List.inj_on_of_nodup_map nodup.of_append_right inside' inside (name'.symm.trans name)
        exact size (same ▸ isAlias)
    · have subset : basicNames ++ (nodes.flatMap Node.typedef).map (·.new_name_) ⊆
          c.type_table_.map (·.name) := by
        intro name inside
        rcases List.mem_append.mp inside with basic | new
        · obtain ⟨t, member, rfl⟩ := List.mem_map.mp (show name ∈ init.type_table_.map (·.name) from basic)
          exact List.mem_map_of_mem (grown.old t member)
        · obtain ⟨tf, defined, rfl⟩ := List.mem_map.mp new
          obtain ⟨info, member, same⟩ := known tf defined
          exact same ▸ List.mem_map_of_mem member
      have count := (nodup.subperm subset).length_le
      rw [List.length_append, List.length_map, List.length_map] at count
      have four : basicNames.length = 4 := rfl
      have limit : c.type_table_.length ≤ 214748364 + 1 := grown.numbered.length
      omega
  · rintro ⟨modest, few⟩
    have four : init.type_table_.length = 4 := rfl
    obtain ⟨c, compiled, -, numbered, sized⟩ := @compile_types_exact host basicSizes .init _ right_basic nodup
      Numbered.basic (by rw [four]; unfold capacity; omega) refers modest
    exact ⟨c, compiled, numbered.nodup, sized⟩

def structTypes : List Typedef :=
  let struct (name : Bytes) (fields : List (Bytes × Bytes)) : Typedef :=
    ⟨.init, .init, name, ⟨.init, .init, true, some ⟨.init, .init, fields⟩, []⟩⟩
  [struct (bytes "T") [(bytes "a", bytes "int"), (bytes "b", bytes "string")],
    struct (bytes "U") [(bytes "t", bytes "T"), (bytes "f", bytes "bool")]]

theorem sizes_right_structs :
    ∃ c, compile_types .plain (structTypes.map .Typedef) .init = some c ∧
      (c.type_table_.map (·.type_id)).Nodup ∧ Sized c basicSizes structTypes := by
  have nodup : (basicNames ++ structTypes.map (·.new_name_)).Nodup := by decide
  have refers : RefersAll basicNames structTypes := by
    refine ⟨⟨nofun, ?_⟩, ⟨nofun, ?_⟩, trivial⟩
    · decide
    · decide
  have modest : Modest basicSizes structTypes := ⟨by decide, nofun, by decide, nofun, trivial⟩
  have top : (structTypes.map Node.Typedef).flatMap Node.typedef = structTypes := rfl
  exact (sizes_right_iff top nodup refers).mpr ⟨modest, by decide⟩

def aliasType : Typedef := ⟨.init, .init, bytes "mint", ⟨.init, .init, false, none, bytes "int"⟩⟩

/-- The alias of `int` has no bytes. -/
theorem alias_without_size :
    (basicNames ++ [aliasType].map (·.new_name_)).Nodup ∧ RefersAll basicNames [aliasType] ∧
    aliasType.size basicSizes = 4 ∧
    ¬ ∃ c, compile_types .plain ([aliasType].map .Typedef) .init = some c ∧
      (c.type_table_.map (·.type_id)).Nodup ∧ Sized c basicSizes [aliasType] := by
  have known : bytes "int" ∈ basicNames := by decide
  refine ⟨by decide, ⟨known, trivial⟩, by decide, ?_⟩
  rintro ⟨c, compiled, -, ⟨small, -⟩, -⟩
  cases compiled
  obtain ⟨info, member, entry⟩ := small (by decide)
  have zero : ∀ info ∈ initBasicInfos ++ [⟨50, 0, bytes "mint", false, -1, []⟩],
      info.name = bytes "mint" → info.size = 0 := by decide
  have four : info.size = 4 := entry.size
  rw [zero info member entry.name] at four
  cases four

end Compiler

end Mygo
