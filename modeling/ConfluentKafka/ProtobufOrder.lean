import ConfluentKafka.ProtobufResult

/-!
# The order of the entries of a result

The message that is built from a map has one outcome for all orders of its entries, and of the entries of the
maps in it that are bound for messages: two entries that would write to one place are refused, and all others
may be swapped.
-/

namespace ConfluentKafka

namespace ProtobufResult

open FailingFold

open Proto (ScalarType)

variable {ι μ σ : Type} (R : Reflection ι μ σ) (descs : ι → DescMessage ι)

/-! ## Loops -/

theorem fillFrom_eq (d : ι) (s : Filling μ) (entries : List (Value μ × Value μ)) :
    fillFrom R descs d s entries = entries.foldlM (fun s entry => fillEntry R descs d s entry.1 entry.2) s := by
  induction entries generalizing s with
  | nil => rw [fillFrom.eq_def, List.foldlM_nil]; rfl
  | cons entry entries ih =>
    rw [fillFrom.eq_def, List.foldlM_cons]
    exact congrArg _ (funext ih)

theorem addItems_eq (out : μ) (field : DescField ι) (elem : ElemKind ι) (items : List (Value μ)) :
    addItems R descs out field elem items = items.foldlM
      (fun out item => addItem R descs out field elem item) out := by
  induction items generalizing out with
  | nil => rw [addItems.eq_def, List.foldlM_nil]; rfl
  | cons item items ih =>
    rw [addItems.eq_def, List.foldlM_cons]
    exact congrArg _ (funext ih)

theorem setEntries_eq (out : μ) (field : DescField ι) (mapKey : ScalarType) (elem : ElemKind ι)
    (entries : List (Value μ × Value μ)) : setEntries R descs out field mapKey elem entries =
      entries.foldlM (fun out entry => setEntry R descs out field mapKey elem entry.1 entry.2) out := by
  induction entries generalizing out with
  | nil => rw [setEntries.eq_def, List.foldlM_nil]; rfl
  | cons entry entries ih =>
    rw [setEntries.eq_def, List.foldlM_cons]
    exact congrArg _ (funext ih)

/-! ## Writes to one field -/

section

variable {R descs} {field : DescField ι}

/-- What does not depend on the message comes first. -/
theorem writes_bind {α : Type} {r : Except String α} {F : α → μ → Except String μ}
    (h : ∀ a, Writes R.slots field (F a)) : Writes R.slots field fun out => r >>= fun a => F a out := by
  cases r with
  | error e => exact .failed field e
  | ok a => exact h a

theorem writes_foldlM {α : Type} {step : μ → α → Except String μ} (h : ∀ a, Writes R.slots field (step · a))
    (as : List α) :
    Writes R.slots field fun out => as.foldlM step out := by
  induction as with
  | nil => exact .done
  | cons a as ih =>
    simp only [List.foldlM_cons]
    exact (h a).andThen ih

theorem addItem_writes (elem : ElemKind ι) (item : Value μ) :
    Writes R.slots field fun out => addItem R descs out field elem item := by
  simp only [addItem]
  split
  · exact .failed field _
  · exact writes_bind fun element => .modify _

theorem setEntry_writes (mapKey : ScalarType) (elem : ElemKind ι) (key value : Value μ) :
    Writes R.slots field fun out => setEntry R descs out field mapKey elem key value := by
  simp only [setEntry]
  split
  · exact .failed field _
  · exact writes_bind fun key => writes_bind fun element => .modify _

theorem setField_writes (value : Value μ) : Writes R.slots field fun out => setField R descs out field value := by
  simp only [setField]
  split
  · split
    · exact .failed field _
    · simp only [addItems_eq]
      exact writes_foldlM (fun item => addItem_writes _ item) _
  · split
    · exact .failed field _
    · simp only [setEntries_eq]
      exact writes_foldlM (fun entry : Value μ × Value μ => setEntry_writes _ _ entry.1 entry.2) _
  · exact writes_bind fun element => .modify _
  · exact writes_bind fun scalar => .modify _

end

/-! ## Bookkeeping -/

structure Filling.Free (s : Filling μ) (field : DescField ι) : Prop where
  setBy : s.setBy field.number = none
  oneofBy : ∀ o sibling, field.oneof = some o → s.oneofBy o = some sibling → sibling = field.name

def oneofsWith (field : DescField ι) (oneofBy : String → Option String) : String → Option String :=
  match field.oneof with
  | none => oneofBy
  | some o => Function.update oneofBy o (some field.name)

def Filling.take (s : Filling μ) (field : DescField ι) (name : String) (out : μ) : Filling μ where
  setBy := Function.update s.setBy field.number (some name)
  oneofBy := oneofsWith field s.oneofBy
  out := out

section

variable {s t : Filling μ} {f g : DescField ι} {name name' : String} {out out' : μ}

theorem Filling.setBy_take : (s.take f name out).setBy f.number = some name := Function.update_self _ _ _

theorem oneofsWith_self {oneofBy : String → Option String} {o : String} (h : f.oneof = some o) :
    oneofsWith f oneofBy o = some f.name := by
  simp [oneofsWith, h]

theorem oneofsWith_of_ne {oneofBy : String → Option String} {o : String} (h : f.oneof ≠ some o) :
    oneofsWith f oneofBy o = oneofBy o := by
  unfold oneofsWith
  cases hf : f.oneof with
  | none => rfl
  | some o' =>
    refine Function.update_of_ne ?_ _ _
    rintro rfl
    exact h hf

theorem oneofsWith_comm (h : f.Apart g) (oneofBy : String → Option String) :
    oneofsWith g (oneofsWith f oneofBy) = oneofsWith f (oneofsWith g oneofBy) := by
  unfold oneofsWith
  cases hf : f.oneof with
  | none => rfl
  | some o =>
    cases hg : g.oneof with
    | none => rfl
    | some o' =>
      have hne : o ≠ o' := by
        rintro rfl
        exact h.2 o hf hg
      exact Function.update_comm hne _ _ oneofBy

theorem Filling.free_take (h : f.Apart g) : (s.take f name out).Free g ↔ s.Free g := by
  have hset : (s.take f name out).setBy g.number = s.setBy g.number := Function.update_of_ne h.1.symm _ _
  have hone : ∀ o, g.oneof = some o → (s.take f name out).oneofBy o = s.oneofBy o :=
    fun o hg => oneofsWith_of_ne fun hf => h.2 o hf hg
  constructor
  · intro hfree
    refine ⟨hset ▸ hfree.setBy, fun o sibling hg hs => hfree.oneofBy o sibling hg ?_⟩
    rw [hone o hg]
    exact hs
  · intro hfree
    refine ⟨hset.trans hfree.setBy, fun o sibling hg hs => hfree.oneofBy o sibling hg ?_⟩
    rw [← hone o hg]
    exact hs

theorem Filling.take_take (h : f.Apart g) (out₁ out₂ out₃ : μ) :
    (s.take f name out₁).take g name' out₃ = (s.take g name' out₂).take f name out₃ := by
  have hset := Function.update_comm h.1 (some name) (some name') s.setBy
  unfold Filling.take
  rw [Filling.mk.injEq]
  exact ⟨hset, oneofsWith_comm h s.oneofBy, rfl⟩

theorem Filling.apart_of_free {desc : DescMessage ι} (hf : f ∈ desc.fields) (hg : g ∈ desc.fields)
    (h : (s.take f name out).Free g) : f.Apart g := by
  have hnumber : f.number ≠ g.number := by
    intro heq
    have hset := h.setBy
    rw [← heq, setBy_take] at hset
    cases hset
  refine ⟨hnumber, fun o hfo hgo => ?_⟩
  have hname : f.name = g.name := h.oneofBy o f.name hgo (oneofsWith_self hfo)
  exact hnumber (congrArg DescField.number (List.inj_on_of_nodup_map desc.names hf hg hname))

theorem claimOneof_eq (h : ∀ o sibling, f.oneof = some o → s.oneofBy o = some sibling → sibling = f.name) :
    claimOneof f s = .ok { s with oneofBy := oneofsWith f s.oneofBy } := by
  unfold claimOneof oneofsWith
  cases hf : f.oneof with
  | none => rfl
  | some o =>
    have hnone : ((s.oneofBy o).filter fun sibling => sibling ≠ f.name) = none := by
      rw [Option.filter_eq_none_iff]
      intro sibling hs
      simp [h o sibling hf hs]
    dsimp only
    rw [hnone]

theorem name_of_claimOneof (h : claimOneof f s = .ok t) (o sibling : String) (hf : f.oneof = some o)
    (hs : s.oneofBy o = some sibling) : sibling = f.name := by
  by_contra hne
  have hsome : ((s.oneofBy o).filter fun sibling => sibling ≠ f.name) = some sibling := by
    rw [Option.filter_eq_some_iff]
    exact ⟨hs, by simpa using hne⟩
  unfold claimOneof at h
  rw [hf] at h
  dsimp only at h
  rw [hsome] at h
  cases h

end

/-! ## Entries -/

section

variable {R descs} {d : ι} {s t : Filling μ} {key value : Value μ} {field : DescField ι}

theorem mem_of_findField {desc : DescMessage ι} {name : String} (h : findField desc name = some field) :
    field ∈ desc.fields := by
  unfold findField at h
  rcases (Option.orElse_eq_some _ _ _).1 h with h | ⟨_, h⟩
  · exact List.mem_of_find?_eq_some h
  · exact List.mem_of_find?_eq_some h

theorem fillEntry_of_undeclared (hf : findField (descs d) (stringOf R key) = none) :
    fillEntry R descs d s key value = .ok s := by
  rw [fillEntry.eq_def, hf]

/-- What an entry does that declares a field and does not clear it. -/
theorem fillEntry_eq_ok (hf : findField (descs d) (stringOf R key) = some field) (hv : value.isNull = false) :
    fillEntry R descs d s key value = .ok t ↔ s.Free field ∧
      ∃ out, setField R descs s.out field value = .ok out ∧ t = s.take field (stringOf R key) out := by
  rw [fillEntry.eq_def, hf]
  dsimp only
  constructor
  · intro h
    cases hset : s.setBy field.number with
    | some alreadySet =>
      rw [hset] at h
      cases h
    | none =>
      rw [hset, hv] at h
      obtain ⟨s', hclaim, h⟩ := bind_ok_iff.1 h
      obtain ⟨out, hout, h⟩ := bind_ok_iff.1 h
      have hone := name_of_claimOneof hclaim
      rw [claimOneof_eq hone] at hclaim
      cases hclaim
      exact ⟨⟨hset, hone⟩, out, hout, (Except.ok.inj h).symm⟩
  · rintro ⟨hfree, out, hout, rfl⟩
    rw [hfree.setBy, hv]
    refine bind_ok_iff.2 ⟨_, claimOneof_eq hfree.oneofBy, bind_ok_iff.2 ⟨out, hout, rfl⟩⟩

/-- Where both entries of a pair are taken, their fields are apart. -/
theorem fillEntry_swaps {key' value' : Value μ} (hv : value.isNull = false) (hv' : value'.isNull = false) :
    Swaps (fillEntry R descs d · key value) (fillEntry R descs d · key' value') := by
  intro s t h
  obtain ⟨s₁, h₁, h₂⟩ := bind_ok_iff.1 h
  rw [bind_ok_iff]
  dsimp only at h₁ h₂ ⊢
  cases hf : findField (descs d) (stringOf R key) with
  | none =>
    rw [fillEntry_of_undeclared hf] at h₁
    cases h₁
    exact ⟨t, h₂, fillEntry_of_undeclared hf⟩
  | some f =>
    cases hg : findField (descs d) (stringOf R key') with
    | none =>
      rw [fillEntry_of_undeclared hg] at h₂
      cases h₂
      exact ⟨s, fillEntry_of_undeclared hg, h₁⟩
    | some g =>
      obtain ⟨hfree, out₁, hout₁, rfl⟩ := (fillEntry_eq_ok hf hv).1 h₁
      obtain ⟨hfree', out₂, hout₂, rfl⟩ := (fillEntry_eq_ok hg hv').1 h₂
      have hapart := Filling.apart_of_free (mem_of_findField hf) (mem_of_findField hg) hfree'
      have hswap := (setField_writes value).swaps hapart hapart.symm (setField_writes value') s.out out₂
        (bind_ok_iff.2 ⟨out₁, hout₁, hout₂⟩)
      obtain ⟨out, hout, hout'⟩ := bind_ok_iff.1 hswap
      refine ⟨s.take g (stringOf R key') out, ?_, ?_⟩
      · exact (fillEntry_eq_ok hg hv').2 ⟨(Filling.free_take hapart).1 hfree', out, hout, rfl⟩
      · exact (fillEntry_eq_ok hf hv).2 ⟨(Filling.free_take hapart.symm).2 hfree, out₂, hout',
          Filling.take_take hapart _ _ _⟩

theorem fill_perm {entries entries' : List (Value μ × Value μ)} (h : entries.Perm entries')
    (hn : ∀ entry ∈ entries, entry.2.isNull = false) (out : μ) :
    SameOutcome (fill R descs d out entries) (fill R descs d out entries') := by
  rw [fill.eq_def, fill.eq_def, fillFrom_eq, fillFrom_eq]
  exact (foldlM_perm h (fun e he e' he' => fillEntry_swaps (hn e he) (hn e' he')) _).map _

end

/-! ## Rearranged values -/

inductive Bound (ι : Type) where
  | message (d : ι)
  | field (f : DescField ι)

/-- The entries of the maps that are bound for messages are in another order. -/
inductive Rearranged : Bound ι → Value μ → Value μ → Prop where
  | refl (b : Bound ι) (v : Value μ) : Rearranged b v v
  | trans {b : Bound ι} {u v w : Value μ} (h : Rearranged b u v) (h' : Rearranged b v w) : Rearranged b u w
  | entries {d : ι} {entries entries' : List (Value μ × Value μ)} (h : entries.Perm entries') :
      Rearranged (.message d) (.map entries) (.map entries')
  | entry {d : ι} {f : DescField ι} {key v v' : Value μ} (hf : findField (descs d) (stringOf R key) = some f)
      (h : Rearranged (.field f) v v') (pre post : List (Value μ × Value μ)) :
      Rearranged (.message d) (.map (pre ++ (key, v) :: post)) (.map (pre ++ (key, v') :: post))
  | single {d : ι} {f : DescField ι} {v v' : Value μ} (hf : f.kind = .single (.message d))
      (h : Rearranged (.message d) v v') : Rearranged (.field f) v v'
  | element {d : ι} {f : DescField ι} {v v' : Value μ} (hf : f.kind = .list (.message d))
      (h : Rearranged (.message d) v v') (pre post : List (Value μ)) :
      Rearranged (.field f) (.list (pre ++ v :: post)) (.list (pre ++ v' :: post))
  | value {d : ι} {f : DescField ι} {mapKey : ScalarType} {key v v' : Value μ}
    (hf : f.kind = .map mapKey (.message d))
      (h : Rearranged (.message d) v v') (pre post : List (Value μ × Value μ)) :
      Rearranged (.field f) (.map (pre ++ (key, v) :: post)) (.map (pre ++ (key, v') :: post))

def NullFree : Value μ → Prop
  | .list items => ∀ item ∈ items, NullFree item
  | .map entries => ∀ entry ∈ entries, entry.2.isNull = false ∧ NullFree entry.2
  | _ => True
termination_by value => sizeOf value
decreasing_by
  · rename_i h
    have := List.sizeOf_lt_of_mem h
    simp only [Value.list.sizeOf_spec]
    omega
  · rename_i h
    have := List.sizeOf_lt_of_mem h
    cases entry
    simp only [Value.map.sizeOf_spec, Prod.mk.sizeOf_spec] at *
    omega

section

variable {R descs} {b : Bound ι} {v v' : Value μ}

theorem nullFree_map {entries : List (Value μ × Value μ)} :
    NullFree (.map entries) ↔ ∀ entry ∈ entries, entry.2.isNull = false ∧ NullFree entry.2 := by
  rw [NullFree]

theorem nullFree_list {items : List (Value μ)} : NullFree (.list items) ↔ ∀ item ∈ items, NullFree item := by
  rw [NullFree]

theorem Rearranged.isNull (h : Rearranged R descs b v v') : v.isNull = v'.isNull := by
  induction h with
  | refl b v => rfl
  | trans _ _ ih ih' => exact ih.trans ih'
  | entries _ => rfl
  | entry _ _ _ _ _ => rfl
  | single _ _ ih => exact ih
  | element _ _ _ _ _ => rfl
  | value _ _ _ _ _ => rfl

theorem Rearranged.nullFree (h : Rearranged R descs b v v') (hv : NullFree v) : NullFree v' := by
  induction h with
  | refl b v => exact hv
  | trans _ _ ih ih' => exact ih' (ih hv)
  | entries h =>
    rw [nullFree_map] at hv ⊢
    exact fun entry he => hv entry (h.mem_iff.2 he)
  | single _ _ ih => exact ih hv
  | element _ _ pre post ih =>
    rw [nullFree_list, List.forall_mem_append, List.forall_mem_cons] at hv ⊢
    exact ⟨hv.1, ih hv.2.1, hv.2.2⟩
  | entry _ h pre post ih | value _ h pre post ih =>
    rw [nullFree_map, List.forall_mem_append, List.forall_mem_cons] at hv ⊢
    exact ⟨hv.1, ⟨h.isNull.symm.trans hv.2.1.1, ih hv.2.1.2⟩, hv.2.2⟩

end

/-! ## Outcomes -/

section

variable {R descs} {d : ι} {field : DescField ι} {out : μ}

theorem asMessageValue_map (entries : List (Value μ × Value μ)) :
    asMessageValue R descs d (.map entries) = (fill R descs d (R.reflect d) entries).map .reflect := by
  rw [asMessageValue.eq_def]
  rfl

theorem setField_message (hf : field.kind = .single (.message d)) (value : Value μ) :
    setField R descs out field value = asMessageValue R descs d value >>= R.set out field := by
  rw [setField.eq_def, hf]

theorem setField_list {elem : ElemKind ι} (hf : field.kind = .list elem) (items : List (Value μ)) :
    setField R descs out field (.list items) = items.foldlM
      (fun out item => addItem R descs out field elem item) out := by
  rw [setField.eq_def, hf, ← addItems_eq]
  rfl

theorem setField_map {mapKey : ScalarType} {elem : ElemKind ι} (hf : field.kind = .map mapKey elem)
    (entries : List (Value μ × Value μ)) : setField R descs out field (.map entries) =
      entries.foldlM (fun out entry => setEntry R descs out field mapKey elem entry.1 entry.2) out := by
  rw [setField.eq_def, hf, ← setEntries_eq]
  rfl

section

variable {v v' : Value μ}

theorem addItem_congr (hnull : v.isNull = v'.isNull) (h : SameOutcome (asMessageValue R descs d v)
    (asMessageValue R descs d v')) :
    SameOutcome (addItem R descs out field (.message d) v) (addItem R descs out field (.message d) v') := by
  rw [addItem, addItem, hnull, elementValue, elementValue]
  split
  · exact .failure _ _
  · exact h.bind fun element => .refl _

theorem setEntry_congr {mapKey : ScalarType} (key : Value μ) (hnull : v.isNull = v'.isNull)
    (h : SameOutcome (asMessageValue R descs d v) (asMessageValue R descs d v')) :
    SameOutcome (setEntry R descs out field mapKey (.message d) key v)
      (setEntry R descs out field mapKey (.message d) key v') := by
  rw [setEntry, setEntry, hnull, elementValue, elementValue]
  split
  · exact .failure _ _
  · exact (SameOutcome.refl _).bind fun key => h.bind fun element => .refl _

theorem fillEntry_congr {s : Filling μ} {key : Value μ} (hf : findField (descs d) (stringOf R key) = some field)
    (hv : v.isNull = false) (hv' : v'.isNull = false)
    (h : ∀ out, SameOutcome (setField R descs out field v) (setField R descs out field v')) :
    SameOutcome (fillEntry R descs d s key v) (fillEntry R descs d s key v') := by
  rw [sameOutcome_iff]
  intro t
  rw [fillEntry_eq_ok hf hv, fillEntry_eq_ok hf hv']
  exact and_congr_right fun _ => exists_congr fun out => and_congr_left fun _ => sameOutcome_iff.1 (h s.out) out

end

variable (R descs)

def SameBound : Bound ι → Value μ → Value μ → Prop
  | .message d, v, v' => SameOutcome (asMessageValue R descs d v) (asMessageValue R descs d v')
  | .field f, v, v' => ∀ out, SameOutcome (setField R descs out f v) (setField R descs out f v')

variable {R descs} {b : Bound ι} {u v w : Value μ}

theorem SameBound.refl : SameBound R descs b v v := by
  cases b with
  | message d => exact SameOutcome.refl _
  | field f => exact fun _ => .refl _

theorem SameBound.trans (h : SameBound R descs b u v) (h' : SameBound R descs b v w) : SameBound R descs b u w := by
  cases b with
  | message d => exact SameOutcome.trans h h'
  | field f => exact fun out => (h out).trans (h' out)

theorem Rearranged.sameBound (h : Rearranged R descs b v w) (hv : NullFree v) : SameBound R descs b v w := by
  induction h with
  | refl b v => exact .refl
  | trans h _ ih ih' => exact (ih hv).trans (ih' (h.nullFree hv))
  | entries h =>
    rw [nullFree_map] at hv
    dsimp only [SameBound]
    rw [asMessageValue_map, asMessageValue_map]
    exact (fill_perm h (fun entry he => (hv entry he).1) _).map _
  | entry hf h pre post ih =>
    rw [nullFree_map, List.forall_mem_append, List.forall_mem_cons] at hv
    have hnull := hv.2.1.1
    dsimp only [SameBound]
    rw [asMessageValue_map, asMessageValue_map, fill.eq_def, fill.eq_def, fillFrom_eq, fillFrom_eq]
    refine ((foldlM_congr_at ?_ pre post _).map _).map _
    exact fun s => fillEntry_congr hf hnull (h.isNull.symm.trans hnull) (ih hv.2.1.2)
  | single hf _ ih =>
    intro out
    rw [setField_message hf, setField_message hf]
    exact SameOutcome.bind (ih hv) fun element => .refl _
  | element hf h pre post ih =>
    rw [nullFree_list, List.forall_mem_append, List.forall_mem_cons] at hv
    intro out
    rw [setField_list hf, setField_list hf]
    exact foldlM_congr_at (fun out => addItem_congr h.isNull (ih hv.2.1)) pre post out
  | value hf h pre post ih =>
    rw [nullFree_map, List.forall_mem_append, List.forall_mem_cons] at hv
    intro out
    rw [setField_map hf, setField_map hf]
    refine foldlM_congr_at ?_ pre post out
    exact fun out => setEntry_congr _ h.isNull (ih hv.2.1.2)

def withoutWrapper : Value μ → Value μ
  | .reflect m => .message m
  | value => value

theorem convertProtobufResult_eq (v : Value μ) (d : ι) :
    convertProtobufResult R descs v d = (asMessageValue R descs d v).map withoutWrapper := by
  cases v with
  | map entries =>
    rw [asMessageValue_map]
    show (fill R descs d (R.reflect d) entries).map Value.message = _
    cases fill R descs d (R.reflect d) entries with
    | error e => rfl
    | ok m => rfl
  | _ =>
    rw [asMessageValue.eq_def]
    rfl

/-- The order of the entries of a result has no influence on the message that is built from it. -/
theorem convertProtobufResult_rearranged (R : Reflection ι μ σ) (descs : ι → DescMessage ι) (d : ι) {v w : Value μ}
    (h : Rearranged R descs (.message d) v w) (hv : NullFree v) :
    SameOutcome (convertProtobufResult R descs v d) (convertProtobufResult R descs w d) := by
  rw [convertProtobufResult_eq, convertProtobufResult_eq]
  exact SameOutcome.map (h.sameBound hv) _

end

/-! ## A sample -/

namespace Sample

inductive Slot (μ : Type) where
  | unset
  | single (value : Value μ)
  | list (items : List (Value μ))
  | map (entries : List (Value μ × Value μ))

inductive Schema where
  | order
  | line
  deriving DecidableEq

/-- The fields by their numbers, and the members that are set by their oneofs. -/
inductive Message where
  | mk (schema : Schema) (fields : Nat → Slot Message) (oneofs : String → Option (Nat × Slot Message))

def Message.schema : Message → Schema
  | .mk schema _ _ => schema

def get : Message → DescField Schema → Slot Message
  | .mk _ fields oneofs, f =>
    match f.oneof with
    | none => fields f.number
    | some o => ((oneofs o).filter fun member => member.1 = f.number).elim .unset Prod.snd

def put : Message → DescField Schema → Slot Message → Message
  | .mk schema fields oneofs, f, s =>
    match f.oneof with
    | none => .mk schema (Function.update fields f.number s) oneofs
    | some o => .mk schema fields (Function.update oneofs o (some (f.number, s)))

def clear : Message → DescField Schema → Message
  | .mk schema fields oneofs, f =>
    match f.oneof with
    | none => .mk schema (Function.update fields f.number .unset) oneofs
    | some o => .mk schema fields (Function.update oneofs o ((oneofs o).filter fun member => member.1 ≠ f.number))

theorem get_put {f g : DescField Schema} (h : f.Apart g) (m : Message) (s : Slot Message) :
    get (put m f s) g = get m g := by
  cases m with
  | mk schema fields oneofs =>
    cases hf : f.oneof with
    | none =>
      cases hg : g.oneof with
      | none => simp [get, put, hf, hg, Function.update_of_ne h.1.symm]
      | some o => simp [get, put, hf, hg]
    | some o =>
      cases hg : g.oneof with
      | none => simp [get, put, hf, hg]
      | some o' =>
        have hne : o' ≠ o := by
          rintro rfl
          exact h.2 _ hf hg
        simp [get, put, hf, hg, Function.update_of_ne hne]

theorem put_comm {f g : DescField Schema} (h : f.Apart g) (m : Message) (s t : Slot Message) :
    put (put m f s) g t = put (put m g t) f s := by
  cases m with
  | mk schema fields oneofs =>
    cases hf : f.oneof with
    | none =>
      cases hg : g.oneof with
      | none => simp [put, hf, hg, Function.update_comm h.1]
      | some o => simp [put, hf, hg]
    | some o =>
      cases hg : g.oneof with
      | none => simp [put, hf, hg]
      | some o' =>
        have hne : o ≠ o' := by
          rintro rfl
          exact h.2 _ hf hg
        simp [put, hf, hg, Function.update_comm hne]

def accepts : ElemKind Schema → Value Message → Bool
  | .scalar .string, .string _ => true
  | .scalar .int32, .number x => x.integer?.isSome
  | .message d, .reflect m => m.schema = d
  | _, _ => false

def reflection : Reflection Schema Message (Slot Message) where
  slots := { get, put, get_put, put_comm }
  reflect d := .mk d (fun _ => .unset) fun _ => none
  clear := clear
  checkField f value :=
    match f.kind with
    | .single elem => if accepts elem value then .ok (.single value) else .error s!"cannot use field {f.name}"
    | _ => .error s!"cannot use field {f.name}"
  checkItem f item s :=
    match f.kind, s with
    | .list elem, .list items =>
      if accepts elem item then .ok (.list (items ++ [item])) else .error s!"cannot use field {f.name}"
    | .list elem, .unset => if accepts elem item then .ok (.list [item]) else .error s!"cannot use field {f.name}"
    | _, _ => .error s!"cannot use field {f.name}"
  checkEntry f _ _ _ := .error s!"cannot use field {f.name}"
  typeName m :=
    match m.schema with
    | .order => "test.Order"
    | .line => "test.Line"
  text _ := "[object Object]"

def single (name jsonName : String) (number : Nat) (elem : ElemKind Schema) (oneof : Option String) :
    DescField Schema :=
  ⟨name, jsonName, number, .single elem, oneof, false⟩

def totalAmount : DescField Schema := single "total_amount" "totalAmount" 1 (.scalar .string) none

def lines : DescField Schema := ⟨"lines", "lines", 4, .list (.message .line), none, false⟩

def schemas : Schema → DescMessage Schema
  | .order =>
    { fields := [totalAmount, single "a" "a" 2 (.scalar .string) (some "choice"), single "b" "b" 3 (.scalar .int32)
      (some "choice"), lines]
      names := by decide }
  | .line => ⟨[single "x" "x" 1 (.scalar .int32) none, single "y" "y" 2 (.scalar .int32) none], by decide⟩

def entry (name : String) (value : Value Message) : Value Message × Value Message := (.string name, value)

def lineOf (entries : List (Value Message × Value Message)) : Value Message × Value Message :=
  entry "lines" (.list [.map entries])

/-- The entries of the result and of a line in it, then two members of a oneof, and a field by both of its names. -/
theorem convertProtobufResult_rearranged_order :
    SameOutcome
        (convertProtobufResult reflection schemas
          (.map [entry "totalAmount" (.string "8.88"), lineOf [entry "x" (.bigint 1), entry "y" (.bigint 2)]])
            .order)
        (convertProtobufResult reflection schemas
          (.map [lineOf [entry "y" (.bigint 2), entry "x" (.bigint 1)], entry "totalAmount" (.string "8.88")])
            .order) ∧
      SameOutcome
        (convertProtobufResult reflection schemas (.map [entry "a" (.string "1"), entry "b" (.bigint 2)]) .order)
        (convertProtobufResult reflection schemas (.map [entry "b" (.bigint 2), entry "a" (.string "1")]) .order) ∧
      SameOutcome
        (convertProtobufResult reflection schemas
          (.map [entry "total_amount" (.string "1"), entry "totalAmount" (.string "2")]) .order)
        (convertProtobufResult reflection schemas
          (.map [entry "totalAmount" (.string "2"), entry "total_amount" (.string "1")]) .order) := by
  refine ⟨?_, ?_, ?_⟩
  · refine convertProtobufResult_rearranged reflection schemas .order ?_ ?_
    · refine .trans (.entries (.swap _ _ []))
        (.entry (f := lines) (by rfl) (.element rfl (.entries (.swap _ _ [])) [] []) [] _)
    · simp [nullFree_map, nullFree_list, NullFree, entry, lineOf, Value.isNull]
  · refine convertProtobufResult_rearranged reflection schemas .order (.entries (.swap _ _ [])) ?_
    simp [nullFree_map, NullFree, entry, Value.isNull]
  · refine convertProtobufResult_rearranged reflection schemas .order (.entries (.swap _ _ [])) ?_
    simp [nullFree_map, NullFree, entry, Value.isNull]

end Sample

end ProtobufResult

end ConfluentKafka
