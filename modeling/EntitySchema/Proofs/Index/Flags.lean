import EntitySchema.Index.Synthesis
import EntitySchema.Proofs.Members
import EntitySchema.Proofs.Run
import EntitySchema.Proofs.Value.Access

/-!
# Columns by flags

A true flag puts an index under the name of its field, a text flag adds the field to the index that it names. All these names
are names of one table of indexes. So the index that a field gets by a true flag can be there already, with the fields that
named it before, and it is put in their place.

* `Request`, `request?`: what the flag of a field asks for.
* `columnsOf`: the columns of an index, none if it is not there.
* `join`: what one field does to the columns of one index.
* `KeepsFlags`: indexes from which no field that asks for one is missing.
* `Outdone`: a field that shares an index under the name of a later field with an index of its own.

Results:
* `columnsOf_ofFields`: the columns of an index are gathered field by field, whatever the other indexes are.
* `gathered_sublist`: only fields that ask for an index become columns of it, in their order.
* `gathered_split`: after a field with an index of its own only that field and later ones are columns.
* `mem_gathered_iff`: a field is a column under its own name exactly if it asks for an index of its own.
* `keepsFlags_iff`: no field is missing exactly if none is outdone.
-/
namespace EntitySchema

namespace Members

variable {κ α : Type} [BEq κ] {m : Members κ α} {entry : κ × α}

/-- A key that no member has is not among the keys. -/
theorem count_keys_eq_zero [EquivBEq κ] {key : κ} (h : ∀ entry ∈ m, (key == entry.1) = false) : (keys m).count key = 0 := by
  refine List.countP_eq_zero.2 fun k hk => ?_
  obtain ⟨entry, hentry, rfl⟩ := List.mem_map.1 hk
  rw [BEq.comm, h entry hentry]
  exact Bool.false_ne_true

/-- Of distinct members every key is there once. -/
theorem count_keys [EquivBEq κ] (hd : Distinct m)
    (h : entry ∈ m) : (keys m).count entry.1 = 1 := by
  induction m with
  | nil => cases h
  | cons first rest ih =>
    obtain ⟨hne, hd⟩ := distinct_cons.1 hd
    show (first.1 :: keys rest).count entry.1 = 1
    rw [List.count_cons]
    rcases List.mem_cons.1 h with rfl | h
    · rw [count_keys_eq_zero hne]
      simp
    · rw [ih hd h, hne entry h]
      rfl

end Members

namespace Index

/-- What a field asks for: an index of its own, or a share in one that it names. -/
inductive Request where
  | own
  | shared (name : String)
deriving DecidableEq

/-- The name of the index that a field asks for. -/
def Request.name (field : Key) : Request → Key
  | own => field
  | shared name => .text name

/-- A field whose name is a text asks for an index whose name is a text. -/
theorem Request.exists_text (request : Request) (field : String) : ∃ name, request.name (.text field) = .text name := by
  cases request with
  | own => exact ⟨field, rfl⟩
  | shared name => exact ⟨name, rfl⟩

/-- The flag that decides for which index a field asks. -/
def flag (params : Members Key Value) : Value :=
  match fieldKind? params with
  | some kind => params.value kind.word
  | none => .null

/-- What a flag asks for. -/
def Request.ofFlag? : Value → Option Request
  | .bool true => some own
  | .str name => some (shared name)
  | _ => none

theorem Request.ofFlag?_eq_own {v : Value} : ofFlag? v = some own ↔ v = .bool true := by
  unfold ofFlag?
  split <;> simp_all

theorem Request.ofFlag?_eq_shared {v : Value} {name : String} : ofFlag? v = some (shared name) ↔ v = .str name := by
  unfold ofFlag?
  split <;> simp_all

/-- What a field asks for by its flag. A field that is marked asks for nothing. -/
def request? (params : Members Key Value) : Option Request :=
  if (params.value "notStorable").truthy then none else Request.ofFlag? (flag params)

section
variable {fields before after : Members Key Value} {field : Key × Value} {name : Key}

/-- Whether a field asks for the index of a name. -/
def asks (name : Key) (field : Key × Value) : Bool :=
  (request? field.2.members).any fun request => request.name field.1 == name

/-- The columns of an index; one that is not there has none. -/
def columnsOf (indexes : Members Key Derived) (name : Key) : List Key :=
  ((Members.get? indexes name).map Derived.columns).getD []

/-- Indexes that keep the flags of all fields: a field is once among the columns of the index that it asks for, and the columns
of an index are fields that ask for it, in their order. -/
structure KeepsFlags (fields : Members Key Value) (indexes : Members Key Derived) : Prop where
  once : ∀ field ∈ fields, ∀ request, request? field.2.members = some request →
    (columnsOf indexes (request.name field.1)).count field.1 = 1
  only : ∀ index ∈ indexes, index.2.columns.Sublist (Members.keys (fields.filter (asks index.1)))

/-- A field that shares an index under the name of another field, while that one asks for an index of its own. -/
def Outdone (earlier later : Key × Value) : Prop :=
  ∃ name, request? earlier.2.members = some (.shared name) ∧ later.1 = .text name ∧ request? later.2.members = some .own

/-- A unique field asks for an index of its own exactly if it is not marked and the flag that decides is the truth value itself;
for a long text that is the other flag. -/
def AsksForOwn (params : Members Key Value) : Prop :=
  (params.value "notStorable").truthy = false ∧
    params.value (if (params.value "dbType").isText "text" then "index" else "unique") = .bool true

theorem request?_eq_own_iff {params : Members Key Value} (hunique : (params.value "unique").truthy = true) :
    request? params = some .own ↔ AsksForOwn params := by
  unfold request? AsksForOwn
  cases (params.value "notStorable").truthy with
  | true => simp
  | false =>
    rw [if_neg Bool.false_ne_true, Request.ofFlag?_eq_own]
    unfold flag fieldKind?
    cases (params.value "dbType").isText "text" with
    | false => simp [hunique, IndexKind.word]
    | true =>
      cases hindex : (params.value "index").truthy with
      | true => simp [IndexKind.word]
      | false =>
        have hne : params.value "index" ≠ .bool true := fun htrue => by
          rw [htrue] at hindex
          cases hindex
        simp [hne]

/-- A field names an index by one of its two flags. -/
theorem value_of_request?_shared {params : Members Key Value} {name : String} (h : request? params = some (.shared name)) :
    params.value "unique" = .str name ∨ params.value "index" = .str name := by
  unfold request? at h
  split at h
  · cases h
  · have hflag := Request.ofFlag?_eq_shared.1 h
    unfold flag at hflag
    split at hflag
    · rename_i kind hkind
      unfold fieldKind? at hkind
      split at hkind
      · cases hkind; exact .inl hflag
      · split at hkind
        · cases hkind; exact .inr hflag
        · cases hkind
    · cases hflag

theorem asks_iff : asks name field = true ↔ ∃ request, request? field.2.members = some request ∧
    (request.name field.1 == name) = true := by
  rw [asks, Option.any_eq_true]

/-! ## One field -/

/-- What a field does to the columns of the index `name`. -/
def join (name : Key) (columns : List Key) (field : Key × Value) : List Key :=
  match request? field.2.members with
  | some .own => if field.1 == name then [field.1] else columns
  | some (.shared other) => if Key.text other == name then columns ++ [field.1] else columns
  | none => columns

/-- What the index becomes for which a field asks: over the field alone, or over it and the columns that are there. -/
def Request.index (indexes : Members Key Derived) (kind : IndexKind) (field : Key) : Request → Derived
  | own => ⟨kind, [field]⟩
  | shared name =>
    match Members.get? indexes name with
    | some d => { d with columns := d.columns ++ [field] }
    | none => ⟨kind, [field]⟩

/-- A column of that index is the field, or a column of an index that is there. -/
theorem Request.mem_index {indexes : Members Key Derived} {kind : IndexKind} {key column : Key} (request : Request)
    (h : column ∈ (request.index indexes kind key).columns) :
    column = key ∨ ∃ index ∈ indexes, column ∈ index.2.columns := by
  cases request with
  | own => exact .inl (List.mem_singleton.1 h)
  | shared name =>
    simp only [Request.index] at h
    split at h
    · rename_i d hget
      obtain ⟨k, -, hm⟩ := Members.exists_of_get? hget
      rcases List.mem_append.1 h with h | h
      · exact .inr ⟨_, hm, h⟩
      · exact .inl (List.mem_singleton.1 h)
    · exact .inl (List.mem_singleton.1 h)

/-- A field asks for nothing, or it puts the index for which it asks. -/
theorem addField_cases (field : Key) (params : Members Key Value) :
    request? params = none ∧ (∀ indexes, addField indexes field params = indexes) ∨
      ∃ request kind, request? params = some request ∧ (params.value "notStorable").truthy = false ∧
        fieldKind? params = some kind ∧
        ∀ indexes, addField indexes field params = indexes.set (request.name field) (request.index indexes kind field) := by
  unfold addField request? flag Request.ofFlag?
  cases hmark : (params.value "notStorable").truthy with
  | true => exact .inl ⟨rfl, fun _ => rfl⟩
  | false =>
    cases hkind : fieldKind? params with
    | none => exact .inl ⟨rfl, fun _ => rfl⟩
    | some kind =>
      simp only [Bool.false_eq_true, if_false]
      cases hflag : params.value kind.word with
      | bool b =>
        cases b with
        | true => exact .inr ⟨.own, kind, rfl, trivial, rfl, fun _ => rfl⟩
        | false => exact .inl ⟨rfl, fun _ => rfl⟩
      | str name =>
        refine .inr ⟨.shared name, kind, rfl, trivial, rfl, fun indexes => ?_⟩
        simp only [Request.name, Request.index]
        cases Members.get? indexes (.text name) <;> rfl
      | _ => exact .inl ⟨rfl, fun _ => rfl⟩

theorem columnsOf_set (indexes : Members Key Derived) (key : Key) (d : Derived) :
    columnsOf (Members.set indexes key d) name = if key == name then d.columns else columnsOf indexes name := by
  unfold columnsOf
  rw [Members.get?_set]
  split <;> rfl

/-- What adding a field does to one index does not depend on the other ones. -/
theorem columnsOf_addField (indexes : Members Key Derived) (field : Key × Value) :
    columnsOf (addField indexes field.1 field.2.members) name = join name (columnsOf indexes name) field := by
  rcases addField_cases field.1 field.2.members with ⟨hnone, hsame⟩ | ⟨request, kind, hrequest, -, -, hset⟩
  · rw [hsame, join, hnone]
  · rw [hset, join, hrequest, columnsOf_set]
    cases request with
    | own => rfl
    | shared other =>
      simp only [Request.name, Request.index]
      -- the index that the flag names is the one that was found
      refine ite_congr rfl (fun hname => ?_) fun _ => rfl
      rw [columnsOf, ← Members.get?_congr hname]
      cases Members.get? indexes (.text other) <;> rfl

theorem join_sublist (columns : List Key) (field : Key × Value) :
    (join name columns field).Sublist (columns ++ Members.keys ([field].filter (asks name))) := by
  have hsingle : asks name field = true → Members.keys ([field].filter (asks name)) = [field.1] := by
    intro hasks
    simp [hasks, Members.keys]
  unfold join
  split
  · rename_i hrequest
    split
    · rename_i hname
      rw [hsingle (asks_iff.2 ⟨_, hrequest, hname⟩)]
      exact List.sublist_append_right _ _
    · exact List.sublist_append_left _ _
  · rename_i other hrequest
    split
    · rename_i hname
      rw [hsingle (asks_iff.2 ⟨_, hrequest, hname⟩)]
    · exact List.sublist_append_left _ _
  · exact List.sublist_append_left _ _

/-- A field that does not ask for the index as its own joins the columns exactly if it asks for it. -/
theorem join_of_not_own (columns : List Key) (h : ¬(request? field.2.members = some .own ∧ (field.1 == name) = true)) :
    join name columns field = columns ++ Members.keys ([field].filter (asks name)) := by
  unfold join asks
  split
  · rename_i hrequest
    have hne : (field.1 == name) = false := by simpa [hrequest] using h
    simp [hrequest, Request.name, hne, Members.keys]
  · rename_i other hrequest
    cases hname : Key.text other == name <;> simp [hrequest, Request.name, hname, Members.keys]
  · rename_i hrequest
    simp [hrequest, Members.keys]

theorem join_own (columns : List Key) (h : request? field.2.members = some .own) (hname : (field.1 == name) = true) :
    join name columns field = [field.1] := by
  simp [join, h, hname]

/-! ## All fields -/

/-- The columns of an index, gathered from all fields. -/
def gathered (name : Key) (columns : List Key) (fields : Members Key Value) : List Key :=
  fields.foldl (join name) columns

/-- The columns of an index are gathered field by field, whatever the other indexes are. -/
theorem columnsOf_foldl_addField (indexes : Members Key Derived) (fields : Members Key Value) :
    columnsOf (fields.foldl (fun acc field => addField acc field.1 field.2.members) indexes) name =
      gathered name (columnsOf indexes name) fields := by
  unfold gathered
  induction fields generalizing indexes with
  | nil => rfl
  | cons field rest ih => rw [List.foldl_cons, List.foldl_cons, ih, columnsOf_addField]

/-- Fields that are all objects are added one after the other. -/
theorem ofFields_of_objects (h : ∀ field ∈ fields, ∃ params, field.2 = .object params) :
    ofFields fields = .ok (fields.foldl (fun acc field => addField acc field.1 field.2.members) []) := by
  refine foldlM_eq_foldl fun acc field hfield => ?_
  obtain ⟨params, hparams⟩ := h field hfield
  rw [hparams]
  rfl

/-- Only fields that are all objects give indexes. -/
theorem ofFields_eq_ok_iff {indexes : Members Key Derived} : ofFields fields = .ok indexes ↔
    (∀ field ∈ fields, ∃ params, field.2 = .object params) ∧
      indexes = fields.foldl (fun acc field => addField acc field.1 field.2.members) [] := by
  constructor
  · intro h
    have hobjects : ∀ field ∈ fields, ∃ params, field.2 = .object params := by
      intro field hfield
      obtain ⟨acc, next, hstep⟩ := exists_of_foldlM_eq_ok h field hfield
      obtain ⟨params, hparams, -⟩ := bind_eq_ok.1 hstep
      exact ⟨params, Value.openMembers_eq_ok.1 hparams⟩
    rw [ofFields_of_objects hobjects] at h
    exact ⟨hobjects, (Except.ok.inj h).symm⟩
  · rintro ⟨hobjects, rfl⟩
    exact ofFields_of_objects hobjects

theorem ofFields_eq_ok {indexes : Members Key Derived} (h : ofFields fields = .ok indexes) :
    indexes = fields.foldl (fun acc field => addField acc field.1 field.2.members) [] :=
  (ofFields_eq_ok_iff.1 h).2

/-- Each index has the columns that are gathered for it. -/
theorem columnsOf_ofFields {indexes : Members Key Derived} (h : ofFields fields = .ok indexes) (name : Key) :
    columnsOf indexes name = gathered name [] fields := by
  rw [ofFields_eq_ok h]
  exact columnsOf_foldl_addField [] fields

theorem distinct_addField {indexes : Members Key Derived} (hd : Members.Distinct indexes) (field : Key)
    (params : Members Key Value) : Members.Distinct (addField indexes field params) := by
  rcases addField_cases field params with ⟨-, hsame⟩ | ⟨request, kind, -, -, -, hset⟩
  · rwa [hsame]
  · rw [hset]
    exact Members.distinct_set _ _ hd

/-- No index is there twice. -/
theorem distinct_ofFields {indexes : Members Key Derived} (h : ofFields fields = .ok indexes) : Members.Distinct indexes := by
  rw [ofFields_eq_ok h]
  exact List.foldlRecOn (motive := Members.Distinct) fields _ Members.distinct_nil fun _ hacc field _ =>
    distinct_addField hacc field.1 field.2.members

theorem gathered_cons (columns : List Key) (field : Key × Value) (rest : Members Key Value) :
    gathered name columns (field :: rest) = gathered name (join name columns field) rest := rfl

theorem keys_filter_cons (field : Key × Value) (rest : Members Key Value) :
    Members.keys ((field :: rest).filter (asks name)) =
      Members.keys ([field].filter (asks name)) ++ Members.keys (rest.filter (asks name)) := by
  rw [← List.singleton_append, List.filter_append, Members.keys, List.map_append]
  rfl

/-- Only fields that ask for an index become columns of it, in their order. -/
theorem gathered_sublist (columns : List Key) (fields : Members Key Value) :
    (gathered name columns fields).Sublist (columns ++ Members.keys (fields.filter (asks name))) := by
  induction fields generalizing columns with
  | nil => exact List.sublist_append_left _ _
  | cons field rest ih =>
    rw [gathered_cons, keys_filter_cons, ← List.append_assoc]
    apply (ih (join name columns field)).trans
    exact (join_sublist columns field).append_right _

/-- If no field has the index as its own, all fields that ask for it become columns. -/
theorem gathered_of_not_own (columns : List Key)
    (h : ∀ field ∈ fields, ¬(request? field.2.members = some .own ∧ (field.1 == name) = true)) :
    gathered name columns fields = columns ++ Members.keys (fields.filter (asks name)) := by
  induction fields generalizing columns with
  | nil => exact (List.append_nil _).symm
  | cons field rest ih =>
    obtain ⟨hfield, hrest⟩ := List.forall_mem_cons.1 h
    rw [gathered_cons, keys_filter_cons, ← List.append_assoc, ih _ hrest, join_of_not_own columns hfield]

/-- After a field with an index of its own only that field and later ones are columns of the index. -/
theorem gathered_split (hd : Members.Distinct (before ++ field :: after)) (h : request? field.2.members = some .own)
    (hname : (field.1 == name) = true) :
    gathered name [] (before ++ field :: after) = field.1 :: Members.keys (after.filter (asks name)) := by
  have hlater : ∀ other ∈ after, ¬(request? other.2.members = some .own ∧ (other.1 == name) = true) := by
    intro other hother hown
    have hsame := BEq.trans hname (BEq.symm hown.2)
    rw [(Members.distinct_split hd).2 other hother] at hsame
    exact Bool.false_ne_true hsame
  unfold gathered
  rw [List.foldl_append]
  show gathered name _ (field :: after) = _
  rw [gathered_cons, join_own _ h hname, gathered_of_not_own _ hlater]
  rfl

/-- A field is a column of the index of its name exactly if it asks for that as its own, unless it names itself. -/
theorem mem_gathered_iff (hd : Members.Distinct fields) {field : String} {v : Value} (hfield : (Key.text field, v) ∈ fields)
    (hshared : request? v.members ≠ some (.shared field)) :
    .text field ∈ gathered (.text field) [] fields ↔ request? v.members = some .own := by
  constructor
  · intro hmem
    obtain ⟨other, hother, hname⟩ := List.mem_map.1 ((gathered_sublist [] fields).subset hmem)
    obtain ⟨hother, hasks⟩ := List.mem_filter.1 hother
    obtain rfl : other = (.text field, v) := Members.eq_of_mem_of_beq hd hother hfield (by rw [hname]; exact BEq.rfl)
    obtain ⟨request, hrequest, hsame⟩ := asks_iff.1 hasks
    cases request with
    | own => exact hrequest
    | shared name =>
      cases Key.text_beq.1 hsame
      exact absurd hrequest hshared
  · intro hown
    obtain ⟨before, after, rfl⟩ := List.append_of_mem hfield
    rw [gathered_split hd hown BEq.rfl]
    exact List.mem_cons_self

/-! ## Flags that are kept -/

/-- An earlier field that asks for the own index of a later one is outdone. -/
theorem outdone_of_asks {earlier later : Key × Value} (hne : (earlier.1 == later.1) = false)
    (hown : request? later.2.members = some .own) (hname : (later.1 == name) = true) (hasks : asks name earlier = true) :
    Outdone earlier later := by
  obtain ⟨request, hrequest, hsame⟩ := asks_iff.1 hasks
  have hboth : (request.name earlier.1 == later.1) = true := BEq.trans hsame (BEq.symm hname)
  cases request with
  | own =>
    rw [Request.name, hne] at hboth
    cases hboth
  | shared other => exact ⟨other, hrequest, Key.text_beq.1 hboth, hown⟩

/-- If no field is outdone, the columns of an index are all fields that ask for it. -/
theorem gathered_of_pairwise (hd : Members.Distinct fields)
    (h : fields.Pairwise fun earlier later => ¬Outdone earlier later) (name : Key) :
    gathered name [] fields = Members.keys (fields.filter (asks name)) := by
  by_cases hown : ∃ field ∈ fields, request? field.2.members = some .own ∧ (field.1 == name) = true
  · obtain ⟨field, hfield, hrequest, hname⟩ := hown
    obtain ⟨before, after, rfl⟩ := List.append_of_mem hfield
    have hbefore : before.filter (asks name) = [] := by
      refine List.filter_eq_nil_iff.2 fun earlier hearlier hasks => ?_
      have houtdone := outdone_of_asks ((Members.distinct_split hd).1 earlier hearlier) hrequest hname hasks
      exact (List.pairwise_append.1 h).2.2 earlier hearlier field List.mem_cons_self houtdone
    have hasks : asks name field = true := asks_iff.2 ⟨_, hrequest, hname⟩
    rw [gathered_split hd hrequest hname, List.filter_append, hbefore, List.nil_append, List.filter_cons_of_pos hasks]
    rfl
  · have hrest : gathered name [] fields = [] ++ Members.keys (fields.filter (asks name)) :=
      gathered_of_not_own [] fun field hfield hboth => hown ⟨field, hfield, hboth⟩
    rwa [List.nil_append] at hrest

/-- A field that comes before one with an index of its own is not a column of that index. -/
theorem count_gathered_eq_zero (hd : Members.Distinct (before ++ field :: after)) (h : request? field.2.members = some .own)
    {earlier : Key × Value} (hearlier : earlier ∈ before) :
    (gathered field.1 [] (before ++ field :: after)).count earlier.1 = 0 := by
  have hne := (Members.distinct_split hd).1 earlier hearlier
  have hafter : ∀ other ∈ after, (earlier.1 == other.1) = false := by
    obtain ⟨first, second, rfl⟩ := List.append_of_mem hearlier
    rw [List.append_assoc, List.cons_append] at hd
    exact fun other hother => (Members.distinct_split hd).2 other (by simp [hother])
  rw [gathered_split hd h BEq.rfl, List.count_cons, BEq.comm, hne,
    Members.count_keys_eq_zero fun other hother => hafter other (List.mem_of_mem_filter hother)]
  rfl

/-- The fields that ask for an index are never missing from its columns exactly if none of them is outdone. -/
theorem keepsFlags_iff (hd : Members.Distinct fields) (hobjects : ∀ field ∈ fields, ∃ params, field.2 = .object params) :
    ∃ indexes, ofFields fields = .ok indexes ∧
      (KeepsFlags fields indexes ↔ fields.Pairwise fun earlier later => ¬Outdone earlier later) := by
  obtain ⟨indexes, hindexes⟩ : ∃ indexes, ofFields fields = .ok indexes := ⟨_, ofFields_of_objects hobjects⟩
  have hcolumns := columnsOf_ofFields hindexes
  refine ⟨indexes, hindexes, fun hkeeps => ?_, fun hpairwise => ⟨?_, ?_⟩⟩
  · rw [List.pairwise_iff_forall_sublist]
    intro earlier later hboth houtdone
    obtain ⟨name, hshared, hname, hown⟩ := houtdone
    obtain ⟨first, second, rfl, hfirst, hsecond⟩ := List.cons_sublist_iff.1 hboth
    obtain ⟨before, after, rfl⟩ := List.append_of_mem (List.singleton_sublist.1 hsecond)
    rw [← List.append_assoc] at hd hkeeps hcolumns
    have hearlier : earlier ∈ first ++ before := List.mem_append_left _ hfirst
    have honce := hkeeps.once earlier (List.mem_append_left _ hearlier) _ hshared
    rw [Request.name, ← hname, hcolumns, count_gathered_eq_zero hd hown hearlier] at honce
    cases honce
  · intro field hfield request hrequest
    rw [hcolumns, gathered_of_pairwise hd hpairwise]
    refine Members.count_keys (Members.distinct_filter _ hd) (List.mem_filter.2 ⟨hfield, ?_⟩)
    exact asks_iff.2 ⟨request, hrequest, BEq.rfl⟩
  · intro index hindex
    have hthere : columnsOf indexes index.1 = index.2.columns := by
      rw [columnsOf, Members.get?_of_mem (distinct_ofFields hindexes) hindex]
      rfl
    rw [← hthere, hcolumns]
    exact gathered_sublist [] fields

end

/-- A parent of any kind, whose word shares the index of the parent, a code, and a long text that cannot be unique. -/
def sharedFlags : Members Key Value :=
  [("parentId", .object [("index", .str "parent")]), ("code", .object [("unique", .bool true), ("index", .str "parent")]),
    ("parentType", .object [("index", .str "parent")]),
    ("body", .object [("dbType", .str "text"), ("unique", .bool true), ("index", .str "parent")]),
    ("hidden", .object [("notStorable", .bool true), ("index", .bool true)])]

theorem keepsFlags_iff_sharedFlags : ∃ indexes, ofFields sharedFlags = .ok indexes ∧ KeepsFlags sharedFlags indexes ∧
    columnsOf indexes "parent" = ["parentId", "parentType", "body"] ∧ columnsOf indexes "code" = ["code"] := by
  have hobjects : ∀ field ∈ sharedFlags, ∃ params, field.2 = .object params := by
    simp [sharedFlags]
  have hd : Members.Distinct sharedFlags := by decide
  have hnone : sharedFlags.Pairwise fun earlier later => ¬Outdone earlier later := by
    have hown : ∀ field ∈ sharedFlags, request? field.2.members = some .own → field.1 = "code" := by decide
    have hshared : ∀ field ∈ sharedFlags, request? field.2.members ≠ some (.shared "code") := by decide
    refine List.pairwise_iff_forall_sublist.2 fun hboth houtdone => ?_
    obtain ⟨name, hname, hlater, hrequest⟩ := houtdone
    rw [hown _ (hboth.subset (by simp)) hrequest] at hlater
    cases hlater
    exact hshared _ (hboth.subset (by simp)) hname
  obtain ⟨indexes, hindexes, hiff⟩ := keepsFlags_iff hd hobjects
  have hcolumns : gives (ofFields sharedFlags) (fun indexes =>
      decide (columnsOf indexes "parent" = ["parentId", "parentType", "body"] ∧ columnsOf indexes "code" = ["code"])) = true := by
    decide
  obtain ⟨found, hfound, htest⟩ := gives_iff.1 hcolumns
  rw [hindexes] at hfound
  cases hfound
  exact ⟨indexes, hindexes, hiff.2 hnone, of_decide_eq_true htest⟩

/-- A field that shares the index `b`, before the field `b` that has an index of its own. -/
def takenName : Members Key Value :=
  [("a", .object [("index", .str "b")]), ("b", .object [("index", .bool true)])]

/-- A flag is lost if a later field puts an index of its own in place of the one that the flag names. -/
theorem exists_lost_flag : ∃ indexes, ofFields takenName = .ok indexes ∧ columnsOf indexes "b" = ["b"] ∧
    ¬KeepsFlags takenName indexes := by
  refine ⟨_, rfl, rfl, fun hkeeps => ?_⟩
  have honce := hkeeps.once _ List.mem_cons_self (.shared "b") rfl
  exact absurd honce (by decide)

end Index

end EntitySchema
