import ConfluentKafka.Binary64
import ConfluentKafka.CelEncode
import ConfluentKafka.Utf16
import Mathlib.Data.List.Perm.Subperm

/-!
# Equality in rules

`==` and `in` of `decimal-funcs.ts`: the equality of the expression language with decimals compared as
numbers, at any depth of lists and maps. Two objects may be one; the functions then do not look into
them.
-/

namespace ConfluentKafka

namespace Cel

/-! ## Values -/

inductive MapKey where
  | bool (b : Bool)
  | int (i : Int)
  | uint (n : Nat)
  | string (s : JsString)
  deriving DecidableEq

def MapKey.canonical : MapKey → MapKey
  | .uint n => .int n
  | k => k

inductive CelValue where
  | null
  | bool (b : Bool)
  | int (i : Int)
  | uint (n : Nat)
  | double (d : Double)
  | string (s : JsString)
  | bytes (bs : Bytes)
  | type (kind name : String)
  | decimal (p : DecimalMessage)
  | list (elements : List CelValue)
  | map (entries : List (MapKey × CelValue))

/-- `typeof` number or bigint, once an unsigned integer is taken out of its wrapper. -/
def CelValue.number? : CelValue → Option Double
  | .int i => some (.finite i)
  | .uint n => some (.finite n)
  | .double d => some d
  | _ => none

def get (entries : List (MapKey × CelValue)) (k : MapKey) : Option CelValue :=
  (entries.find? fun e => e.1.canonical = k.canonical).map Prod.snd

/-- Which objects are one, at each place of the two values that are compared. -/
structure Identity where
  same : List Nat → CelValue → CelValue → Bool
  alike : ∀ path v w, same path v w = true → v = w

def Identity.part (i : Identity) (k : Nat) : Identity :=
  ⟨fun path => i.same (k :: path), fun path => i.alike (k :: path)⟩

/-! ## Equality -/

/-- `===`: values that are no objects are compared, and objects are one or not. -/
def identical (i : Identity) : CelValue → CelValue → Bool
  | .null, .null => true
  | .bool a, .bool b => a = b
  | .int a, .int b => a = b
  | .double a, .double b => a = b ∧ a ≠ .nan
  | .string a, .string b => a = b
  | .double _, _ => false
  | l, r => i.same [] l r

def looseEquals (a b : Double) : Bool := a = b ∧ a ≠ .nan

mutual

def celEqualsWithDecimal (i : Identity) (lhs rhs : CelValue) : Bool :=
  match lhs, rhs with
  | .decimal p, .decimal q => (fromProtoDecimal p.toProtoDecimal).value = (fromProtoDecimal q.toProtoDecimal).value
  | lhs, rhs => celEquals i lhs rhs
termination_by (sizeOf lhs, 1)

def celEquals (i : Identity) (lhs rhs : CelValue) : Bool :=
  if identical i lhs rhs then true
  else
    match lhs.number?, rhs.number? with
    | some a, some b => looseEquals a b
    | _, _ =>
      match lhs, rhs with
      | .bytes a, .bytes b => a = b
      | .list es, .list fs => es.length = fs.length && equalsCelList i es fs
      | .map es, .map fs => es.length = fs.length && equalsCelMap i es fs
      | .type kind name, .type kind' name' => kind = kind' ∧ name = name'
      -- never two decimals, which `celEqualsWithDecimal` has compared
      | .decimal p, .decimal q => p = q
      | _, _ => false
termination_by (sizeOf lhs, 0)

def equalsCelList (i : Identity) (lhs rhs : List CelValue) : Bool :=
  match lhs, rhs with
  | e :: es, f :: fs => celEqualsWithDecimal (i.part 0) e f && equalsCelList (i.part 1) es fs
  | _, _ => true
termination_by (sizeOf lhs, 0)

def equalsCelMap (i : Identity) (lhs rhs : List (MapKey × CelValue)) : Bool :=
  match lhs with
  | [] => true
  | (k, v) :: es =>
    match get rhs k with
    | none => false
    | some rv => celEqualsWithDecimal (i.part 0) v rv && equalsCelMap (i.part 1) es rhs
termination_by (sizeOf lhs, 0)

end

def celIn (i : Identity) (value : CelValue) : List CelValue → Bool
  | [] => false
  | v :: list => celEqualsWithDecimal (i.part 0) v value || celIn (i.part 1) value list

/-! ## When two values agree -/

/-- No part is NaN, and the keys of a map are told apart by its lookup. -/
inductive CelValue.Valid : CelValue → Prop where
  | null : Valid .null
  | bool (b : Bool) : Valid (.bool b)
  | int (i : Int) : Valid (.int i)
  | uint (n : Nat) : Valid (.uint n)
  | double {d : Double} (h : d ≠ .nan) : Valid (.double d)
  | string (s : JsString) : Valid (.string s)
  | bytes (bs : Bytes) : Valid (.bytes bs)
  | type (kind name : String) : Valid (.type kind name)
  | decimal (p : DecimalMessage) : Valid (.decimal p)
  | list {es : List CelValue} (h : ∀ e ∈ es, Valid e) : Valid (.list es)
  | map {es : List (MapKey × CelValue)} (keys : (es.map fun e => e.1.canonical).Nodup) (h : ∀ e ∈ es, Valid e.2) :
    Valid (.map es)

/-- Values that the expression language holds equal: numbers by their value, whatever their type, and
containers by what they contain. -/
inductive Agrees : CelValue → CelValue → Prop where
  | null : Agrees .null .null
  | bool (b : Bool) : Agrees (.bool b) (.bool b)
  | string (s : JsString) : Agrees (.string s) (.string s)
  | bytes (bs : Bytes) : Agrees (.bytes bs) (.bytes bs)
  | type (kind name : String) : Agrees (.type kind name) (.type kind name)
  | number {l r : CelValue} {d : Double} (h : d ≠ .nan) (hl : l.number? = some d)
    (hr : r.number? = some d) : Agrees l r
  | decimal {p q : DecimalMessage} (h : p.number = q.number) : Agrees (.decimal p) (.decimal q)
  | list {es fs : List CelValue} (length : es.length = fs.length)
    (h : ∀ (k : Nat) (e f : CelValue), es[k]? = some e → fs[k]? = some f → Agrees e f) : Agrees
    (.list es) (.list fs)
  | map {es fs : List (MapKey × CelValue)} (length : es.length = fs.length)
    (found : ∀ e ∈ es, (get fs e.1).isSome = true) (h : ∀ e ∈ es, ∀ v, get fs e.1 = some v → Agrees e.2 v) :
    Agrees (.map es) (.map fs)

theorem get_congr (es : List (MapKey × CelValue)) {k k' : MapKey} (h : k.canonical = k'.canonical) :
    get es k = get es k' := by
  simp [get, h]

theorem mem_of_get {es : List (MapKey × CelValue)} {k : MapKey} {v : CelValue} (h : get es k = some v) :
    ∃ e ∈ es, e.2 = v ∧ e.1.canonical = k.canonical := by
  obtain ⟨e, he, rfl⟩ := Option.map_eq_some_iff.mp h
  exact ⟨e, List.mem_of_find?_eq_some he, rfl, by simpa using List.find?_some he⟩

theorem eq_of_canonical {es : List (MapKey × CelValue)} (keys : (es.map fun e => e.1.canonical).Nodup)
    {e f : MapKey × CelValue} (he : e ∈ es) (hf : f ∈ es) (h : e.1.canonical = f.1.canonical) : e = f :=
  List.inj_on_of_nodup_map keys he hf h

theorem get_of_mem {es : List (MapKey × CelValue)} (keys : (es.map fun e => e.1.canonical).Nodup)
    {e : MapKey × CelValue}
    (he : e ∈ es) {k : MapKey} (hk : e.1.canonical = k.canonical) : get es k = some e.2 := by
  cases hg : get es k with
  | none =>
    simp only [get, Option.map_eq_none_iff, List.find?_eq_none, decide_eq_true_eq] at hg
    exact absurd hk (hg e he)
  | some v =>
    obtain ⟨f, hf, rfl, hfk⟩ := mem_of_get hg
    rw [eq_of_canonical keys he hf (hk.trans hfk.symm)]

theorem Agrees.refl {v : CelValue} (h : v.Valid) : Agrees v v := by
  induction h with
  | null => exact .null
  | bool b => exact .bool b
  | int i => exact .number (d := .finite i) (by simp) rfl rfl
  | uint n => exact .number (d := .finite n) (by simp) rfl rfl
  | double h => exact .number h rfl rfl
  | string s => exact .string s
  | bytes bs => exact .bytes bs
  | type kind name => exact .type kind name
  | decimal p => exact .decimal rfl
  | list h ih =>
    refine .list rfl fun k e f he hf => ?_
    rw [he] at hf
    obtain rfl := Option.some.inj hf
    exact ih e (List.mem_of_getElem? he)
  | @map es keys h ih =>
    have hfound : ∀ e ∈ es, get es e.1 = some e.2 := fun e he => get_of_mem keys he rfl
    refine .map rfl (fun e he => by rw [hfound e he]; rfl) fun e he v hv => ?_
    rw [hfound e he] at hv
    obtain rfl := Option.some.inj hv
    exact ih e he

/-- Every key of the right map is one of the left map, if the maps have as many. -/
theorem keys_subset {es fs : List (MapKey × CelValue)} (hes : (es.map fun e => e.1.canonical).Nodup)
    (length : es.length = fs.length) (found : ∀ e ∈ es, (get fs e.1).isSome = true) :
    ∀ f ∈ fs, ∃ e ∈ es, e.1.canonical = f.1.canonical := by
  have hsub : (es.map fun e => e.1.canonical) ⊆ fs.map fun e => e.1.canonical := by
    intro k hk
    obtain ⟨e, he, rfl⟩ := List.mem_map.mp hk
    obtain ⟨v, hv⟩ := Option.isSome_iff_exists.mp (found e he)
    obtain ⟨f, hf, -, hkey⟩ := mem_of_get hv
    exact List.mem_map.mpr ⟨f, hf, hkey⟩
  have hperm := (List.subperm_of_subset hes hsub).perm_of_length_le (by simp [length])
  intro f hf
  obtain ⟨e, he, hkey⟩ := List.mem_map.mp (hperm.mem_iff.mpr (List.mem_map.mpr ⟨f, hf, rfl⟩))
  exact ⟨e, he, hkey⟩

theorem Agrees.symm {v w : CelValue} (h : Agrees v w) (hv : v.Valid) (hw : w.Valid) : Agrees w v := by
  induction h with
  | null => exact .null
  | bool b => exact .bool b
  | string s => exact .string s
  | bytes bs => exact .bytes bs
  | type kind name => exact .type kind name
  | number h hl hr => exact .number h hr hl
  | decimal h => exact .decimal h.symm
  | list length h ih =>
    cases hv with
    | list hv =>
      cases hw with
      | list hw =>
        exact .list length.symm fun k e f he hf =>
          ih k f e hf he (hv f (List.mem_of_getElem? hf)) (hw e (List.mem_of_getElem? he))
  | @map es fs length found h ih =>
    cases hv with
    | map hes hv =>
      cases hw with
      | map hfs hw =>
        have hback := keys_subset hes length found
        refine .map length.symm (fun f hf => ?_) fun f hf v hv' => ?_
        · obtain ⟨e, he, hkey⟩ := hback f hf
          rw [get_of_mem hes he hkey]
          rfl
        · obtain ⟨e, he, hkey⟩ := hback f hf
          rw [get_of_mem hes he hkey] at hv'
          obtain rfl := Option.some.inj hv'
          exact ih e he f.2 (get_of_mem hfs hf hkey.symm) (hv e he) (hw f hf)

theorem number?_of_agrees {v w : CelValue} (h : Agrees v w) : v.number? = w.number? := by
  cases h with
  | number h hl hr => rw [hl, hr]
  | _ => rfl

theorem Agrees.trans {u v w : CelValue} (h : Agrees u v) (h' : Agrees v w) : Agrees u w := by
  induction h generalizing w with
  | null => exact h'
  | bool b => exact h'
  | string s => exact h'
  | bytes bs => exact h'
  | type kind name => exact h'
  | number h hl hr =>
    have hw := number?_of_agrees h'
    exact .number h hl (hw.symm.trans hr)
  | decimal h =>
    cases h' with
    | number _ hl _ => cases hl
    | decimal h' => exact .decimal (h.trans h')
  | @list es fs length h ih =>
    cases h' with
    | number _ hl _ => cases hl
    | @list _ gs length' h' =>
      refine .list (length.trans length') fun k e g he hg => ?_
      obtain ⟨f, hf⟩ : ∃ f, fs[k]? = some f := by
        obtain ⟨hlt, -⟩ := List.getElem?_eq_some_iff.mp hg
        exact ⟨_, List.getElem?_eq_getElem (length' ▸ hlt)⟩
      exact ih k e f he hf (h' k f g hf hg)
  | @map es fs length found h ih =>
    cases h' with
    | number _ hl _ => cases hl
    | @map _ gs length' found' h' =>
      have hthrough : ∀ e ∈ es, ∃ f ∈ fs, get fs e.1 = some f.2 ∧ get gs e.1 = get gs f.1 := by
        intro e he
        obtain ⟨v, hv⟩ := Option.isSome_iff_exists.mp (found e he)
        obtain ⟨f, hf, rfl, hkey⟩ := mem_of_get hv
        exact ⟨f, hf, hv, get_congr gs hkey.symm⟩
      refine .map (length.trans length') (fun e he => ?_) fun e he w hw => ?_
      · obtain ⟨f, hf, -, hget⟩ := hthrough e he
        rw [hget]
        exact found' f hf
      · obtain ⟨f, hf, hv, hget⟩ := hthrough e he
        exact ih e he f.2 hv (h' f hf w (hget ▸ hw))

/-! ## The code decides agreement -/

theorem equalsCelList_iff {es fs : List CelValue} (length : es.length = fs.length)
    (hpairs : ∀ (k : Nat) (e f : CelValue), es[k]? = some e → fs[k]? = some f →
      ∀ i, celEqualsWithDecimal i e f = true ↔ Agrees e f) (i : Identity) :
    equalsCelList i es fs = true ↔
      ∀ (k : Nat) (e f : CelValue), es[k]? = some e → fs[k]? = some f → Agrees e f := by
  induction es generalizing fs i with
  | nil =>
    rw [equalsCelList]
    · simp
    · simp
  | cons e es ih =>
    cases fs with
    | nil => simp at length
    | cons f fs =>
      have htail := ih (show es.length = fs.length by simpa using length)
        (fun k e' f' he hf => hpairs (k + 1) e' f' (by simpa using he) (by simpa using hf)) (i.part 1)
      rw [equalsCelList, Bool.and_eq_true, htail, hpairs 0 e f rfl rfl]
      constructor
      · intro ⟨hhead, hrest⟩ k e' f' he hf
        cases k with
        | zero =>
          obtain rfl : e = e' := by simpa using he
          obtain rfl : f = f' := by simpa using hf
          exact hhead
        | succ k => exact hrest k e' f' (by simpa using he) (by simpa using hf)
      · intro h
        exact ⟨h 0 e f rfl rfl, fun k e' f' he hf => h (k + 1) e' f' (by simpa using he) (by simpa using hf)⟩

theorem equalsCelMap_iff {es fs : List (MapKey × CelValue)}
    (hpairs : ∀ e ∈ es, ∀ v, get fs e.1 = some v → ∀ i, celEqualsWithDecimal i e.2 v = true ↔ Agrees e.2 v)
    (i : Identity) : equalsCelMap i es fs = true ↔
      ∀ e ∈ es, (get fs e.1).isSome = true ∧ ∀ v, get fs e.1 = some v → Agrees e.2 v := by
  induction es generalizing i with
  | nil => simp [equalsCelMap]
  | cons e es ih =>
    obtain ⟨k, v⟩ := e
    have htail := ih (fun e he => hpairs e (List.mem_cons_of_mem _ he)) (i.part 1)
    rw [equalsCelMap]
    cases hg : get fs k with
    | none => simp [hg]
    | some rv =>
      have hhead := hpairs (k, v) List.mem_cons_self rv hg (i.part 0)
      simp [hg, hhead, htail]

theorem agrees_of_identical {i : Identity} {v w : CelValue} (h : identical i v w = true) (hv : v.Valid) :
    Agrees v w := by
  unfold identical at h
  split at h
  · exact .null
  · obtain rfl := of_decide_eq_true h
    exact .bool _
  · obtain rfl := of_decide_eq_true h
    exact Agrees.refl hv
  · obtain ⟨rfl, -⟩ := of_decide_eq_true h
    exact Agrees.refl hv
  · obtain rfl := of_decide_eq_true h
    exact .string _
  · cases h
  · obtain rfl := i.alike _ _ _ h
    exact Agrees.refl hv

/-- What the code holds equal agrees, if it compares containers rightly. -/
theorem agrees_of_celEquals {i : Identity} {v w : CelValue} (h : celEqualsWithDecimal i v w = true) (hv : v.Valid)
    (hlist : ∀ es fs, v = .list es → w = .list fs → es.length = fs.length → equalsCelList i es fs =
      true → Agrees v w)
    (hmap : ∀ es fs, v = .map es → w = .map fs → es.length = fs.length → equalsCelMap i es fs = true → Agrees v w) :
    Agrees v w := by
  rw [celEqualsWithDecimal.eq_def] at h
  split at h
  · next p q =>
    have hvalue := of_decide_eq_true h
    rw [value_fromProtoDecimal, value_fromProtoDecimal] at hvalue
    exact .decimal hvalue
  rw [celEquals.eq_def] at h
  split at h
  · next hid => exact agrees_of_identical hid hv
  split at h
  · next a b ha hb =>
    obtain ⟨rfl, hd⟩ := of_decide_eq_true h
    exact .number hd ha hb
  split at h
  · obtain rfl := of_decide_eq_true h
    exact .bytes _
  · rw [Bool.and_eq_true, decide_eq_true_eq] at h
    exact hlist _ _ rfl rfl h.1 h.2
  · rw [Bool.and_eq_true, decide_eq_true_eq] at h
    exact hmap _ _ rfl rfl h.1 h.2
  · obtain ⟨rfl, rfl⟩ := of_decide_eq_true h
    exact .type _ _
  · obtain rfl := of_decide_eq_true h
    exact .decimal rfl
  · cases h

theorem celEqualsWithDecimal_of_number {i : Identity} {v w : CelValue} {d : Double} (hd : d ≠ .nan)
    (hv : v.number? = some d)
    (hw : w.number? = some d) : celEqualsWithDecimal i v w = true := by
  rw [celEqualsWithDecimal.eq_def]
  split
  · cases hv
  rw [celEquals.eq_def]
  split
  · rfl
  simp only [hv, hw]
  exact decide_eq_true ⟨rfl, hd⟩

/-- What agrees is held equal, if containers are compared rightly. -/
theorem celEquals_of_agrees {i : Identity} {v w : CelValue} (h : Agrees v w)
    (hlist : ∀ es fs, v = .list es → w = .list fs → equalsCelList i es fs = true)
    (hmap : ∀ es fs, v = .map es → w = .map fs → equalsCelMap i es fs = true) :
      celEqualsWithDecimal i v w = true := by
  cases h with
  | number hd hl hr => exact celEqualsWithDecimal_of_number hd hl hr
  | decimal h =>
    rw [celEqualsWithDecimal, value_fromProtoDecimal, value_fromProtoDecimal]
    exact decide_eq_true h
  | list length _ => simp [celEqualsWithDecimal, celEquals, CelValue.number?, length, hlist]
  | map length _ _ => simp [celEqualsWithDecimal, celEquals, CelValue.number?, length, hmap]
  | _ => simp [celEqualsWithDecimal, celEquals, CelValue.number?, identical]

theorem celEqualsWithDecimal_iff (i : Identity) {v w : CelValue} (hv : v.Valid) (hw : w.Valid) :
    celEqualsWithDecimal i v w = true ↔ Agrees v w := by
  induction hv generalizing w i with
  | @list es h ih =>
    have hpairs : ∀ fs, w = .list fs → ∀ (k : Nat) (e f : CelValue), es[k]? = some e → fs[k]? = some f →
        ∀ i, celEqualsWithDecimal i e f = true ↔ Agrees e f := by
      intro fs hwf k e f he hf i
      rw [hwf] at hw
      cases hw with
      | list hfs => exact ih e (List.mem_of_getElem? he) i (hfs f (List.mem_of_getElem? hf))
    constructor
    · intro heq
      refine agrees_of_celEquals heq (.list h) (fun es' fs hv hwf hlen hall => ?_) (fun _ _ hv => by cases hv)
      cases hv
      rw [hwf]
      exact .list hlen ((equalsCelList_iff hlen (hpairs fs hwf) i).mp hall)
    · intro hag
      refine celEquals_of_agrees hag (fun es' fs hv hwf => ?_) (fun _ _ hv => by cases hv)
      cases hv
      rw [hwf] at hag
      cases hag with
      | number _ hl _ => cases hl
      | list hlen hall => exact (equalsCelList_iff hlen (hpairs fs hwf) i).mpr hall
  | @map es keys h ih =>
    have hpairs : ∀ fs, w = .map fs → ∀ e ∈ es, ∀ v, get fs e.1 = some v →
        ∀ i, celEqualsWithDecimal i e.2 v = true ↔ Agrees e.2 v := by
      intro fs hwf e he v hg i
      rw [hwf] at hw
      cases hw with
      | map _ hfs =>
        obtain ⟨f, hf, rfl, -⟩ := mem_of_get hg
        exact ih e he i (hfs f hf)
    constructor
    · intro heq
      refine agrees_of_celEquals heq (.map keys h) (fun _ _ hv => by cases hv) (fun es' fs hv hwf hlen hall => ?_)
      cases hv
      rw [hwf]
      rw [equalsCelMap_iff (hpairs fs hwf)] at hall
      exact .map hlen (fun e he => (hall e he).1) fun e he => (hall e he).2
    · intro hag
      refine celEquals_of_agrees hag (fun _ _ hv => by cases hv) (fun es' fs hv hwf => ?_)
      cases hv
      rw [hwf] at hag
      cases hag with
      | number _ hl _ => cases hl
      | map _ found hall =>
        rw [equalsCelMap_iff (hpairs fs hwf)]
        exact fun e he => ⟨found e he, hall e he⟩
  | _ =>
    constructor
    · intro heq
      refine agrees_of_celEquals heq (by constructor <;> assumption) (fun _ _ hv => by cases hv)
        (fun _ _ hv => by cases hv)
    · intro hag
      exact celEquals_of_agrees hag (fun _ _ hv => by cases hv) (fun _ _ hv => by cases hv)

/-! ## Decimals of another scale -/

/-- Decimals anywhere in the value are replaced by decimals that are the same numbers. -/
inductive Rescaled : CelValue → CelValue → Prop where
  | same (v : CelValue) : Rescaled v v
  | decimal {p q : DecimalMessage} (h : p.number = q.number) : Rescaled (.decimal p) (.decimal q)
  | list {es fs : List CelValue} (length : es.length = fs.length)
    (h : ∀ (k : Nat) (e f : CelValue), es[k]? = some e → fs[k]? = some f → Rescaled e f) : Rescaled
    (.list es) (.list fs)
  | map {es fs : List (MapKey × CelValue)} (keys : es.map Prod.fst = fs.map Prod.fst)
    (h : ∀ (k : Nat) (e f : MapKey × CelValue), es[k]? = some e → fs[k]? = some f → Rescaled e.2 f.2) :
    Rescaled (.map es) (.map fs)

theorem exists_counterpart {es fs : List (MapKey × CelValue)} (keys : es.map Prod.fst = fs.map Prod.fst)
    {e : MapKey × CelValue} (he : e ∈ es) : ∃ (k : Nat) (f : MapKey × CelValue), es[k]? = some e ∧ fs[k]? = some f ∧
      f.1 = e.1 := by
  obtain ⟨k, hk⟩ := List.mem_iff_getElem?.mp he
  have hkey := congrArg (·[k]?) keys
  simp only [List.getElem?_map, hk, Option.map_some] at hkey
  obtain ⟨f, hf, hfe⟩ := Option.map_eq_some_iff.mp hkey.symm
  exact ⟨k, f, hk, hf, hfe⟩

theorem Rescaled.agrees {v w : CelValue} (h : Rescaled v w) (hv : v.Valid) (hw : w.Valid) : Agrees v w := by
  induction h with
  | same v => exact Agrees.refl hv
  | decimal h => exact .decimal h
  | list length h ih =>
    cases hv with
    | list hv =>
      cases hw with
      | list hw =>
        exact .list length fun k e f he hf =>
          ih k e f he hf (hv e (List.mem_of_getElem? he)) (hw f (List.mem_of_getElem? hf))
  | @map es fs keys h ih =>
    cases hv with
    | map hes hv =>
      cases hw with
      | map hfs hw =>
        have hget : ∀ e ∈ es, ∃ (k : Nat) (f : MapKey × CelValue), es[k]? = some e ∧ fs[k]? = some f ∧
          get fs e.1 = some f.2 := by
          intro e he
          obtain ⟨k, f, hek, hfk, hkey⟩ := exists_counterpart keys he
          exact ⟨k, f, hek, hfk, get_of_mem hfs (List.mem_of_getElem? hfk) (by rw [hkey])⟩
        refine .map (by simpa using congrArg List.length keys) (fun e he => ?_) fun e he v hg => ?_
        · obtain ⟨_, f, -, -, hf⟩ := hget e he
          rw [hf]
          rfl
        · obtain ⟨k, f, hek, hfk, hf⟩ := hget e he
          rw [hf] at hg
          obtain rfl := Option.some.inj hg
          exact ih k e f hek hfk (hv e he) (hw f (List.mem_of_getElem? hfk))

/-! ## The laws -/

structure CelInput where
  value : CelValue
  valid : value.Valid

variable (i j k : Identity)

theorem celEqualsWithDecimal_comm (a b : CelInput) :
    celEqualsWithDecimal i a.value b.value = celEqualsWithDecimal j b.value a.value := by
  rw [Bool.eq_iff_iff, celEqualsWithDecimal_iff i a.valid b.valid, celEqualsWithDecimal_iff j b.valid a.valid]
  exact ⟨fun h => h.symm a.valid b.valid, fun h => h.symm b.valid a.valid⟩

theorem celEqualsWithDecimal_rescaled {a b a' b' : CelInput} (ha : Rescaled a.value a'.value)
    (hb : Rescaled b.value b'.value) :
    celEqualsWithDecimal j a'.value b'.value = celEqualsWithDecimal i a.value b.value := by
  have ha := ha.agrees a.valid a'.valid
  have hb := hb.agrees b.valid b'.valid
  rw [Bool.eq_iff_iff, celEqualsWithDecimal_iff j a'.valid b'.valid, celEqualsWithDecimal_iff i a.valid b.valid]
  constructor
  · intro h
    exact ha.trans (h.trans (hb.symm b.valid b'.valid))
  · intro h
    exact (ha.symm a.valid a'.valid).trans (h.trans hb)

theorem celIn_iff (a : CelInput) (list : List CelInput) : celIn i a.value (list.map CelInput.value) = true ↔
    ∃ e ∈ list, celEqualsWithDecimal j a.value e.value = true := by
  induction list generalizing i with
  | nil => simp [celIn]
  | cons e list ih =>
    rw [List.map_cons, celIn, Bool.or_eq_true, ih, celEqualsWithDecimal_comm (i.part 0) j e a]
    simp only [List.mem_cons, exists_eq_or_imp]

/-- `==` is symmetric and transitive and blind to the scales of decimals, and `in` is membership under `==`,
whichever objects are one in the single comparisons. -/
theorem celEqualsWithDecimal_laws (a b c : CelInput) :
    celEqualsWithDecimal i a.value b.value = celEqualsWithDecimal j b.value a.value ∧
      (celEqualsWithDecimal i a.value b.value = true → celEqualsWithDecimal j b.value c.value = true →
        celEqualsWithDecimal k a.value c.value = true) ∧
      (∀ a' b' : CelInput, Rescaled a.value a'.value → Rescaled b.value b'.value →
        celEqualsWithDecimal j a'.value b'.value = celEqualsWithDecimal i a.value b.value) ∧
      ∀ list : List CelInput, celIn i a.value (list.map CelInput.value) = true ↔
        ∃ e ∈ list, celEqualsWithDecimal j a.value e.value = true := by
  refine ⟨celEqualsWithDecimal_comm i j a b, ?_, fun a' b' ha hb => celEqualsWithDecimal_rescaled i j ha hb,
    celIn_iff i j a⟩
  rw [celEqualsWithDecimal_iff i a.valid b.valid, celEqualsWithDecimal_iff j b.valid c.valid,
    celEqualsWithDecimal_iff k a.valid c.valid]
  exact Agrees.trans

def distinct : Identity := ⟨fun _ _ _ => false, fun _ _ _ h => absurd h Bool.false_ne_true⟩

def prices (price tax : DecimalMessage) : CelInput where
  value := .map [(.string (Utf16.ofChars ['p']), .list [.decimal price, .int 3]),
    (.uint 1, .map [(.bool true, .decimal tax)])]
  valid := by
    refine .map (show [MapKey.string (Utf16.ofChars ['p']), .int 1].Nodup by decide) ?_
    simp only [List.forall_mem_cons]
    refine ⟨.list ?_, .map (show [MapKey.bool true].Nodup by decide) ?_, List.forall_mem_nil _⟩
    · simp only [List.forall_mem_cons]
      exact ⟨.decimal price, .int 3, List.forall_mem_nil _⟩
    · simp only [List.forall_mem_cons]
      exact ⟨.decimal tax, List.forall_mem_nil _⟩

theorem celEqualsWithDecimal_prices :
    celEqualsWithDecimal distinct (prices (createDecimal 150 2) (createDecimal 5 1)).value
      (prices (createDecimal 15 1) (createDecimal 50 2)).value = true := by
  have hrescaled : Rescaled (prices (createDecimal 150 2) (createDecimal 5 1)).value
      (prices (createDecimal 15 1) (createDecimal 50 2)).value := by
    refine .map rfl fun k e f he hf => ?_
    match k, he, hf with
    | 0, rfl, rfl =>
      refine .list rfl fun k e f he hf => ?_
      match k, he, hf with
      | 0, rfl, rfl => exact .decimal (by decide +kernel)
      | 1, rfl, rfl => exact .same _
    | 1, rfl, rfl =>
      refine .map rfl fun k e f he hf => ?_
      match k, he, hf with
      | 0, rfl, rfl => exact .decimal (by decide +kernel)
  have hlaws := celEqualsWithDecimal_laws distinct distinct distinct
    (prices (createDecimal 150 2) (createDecimal 5 1))
    (prices (createDecimal 150 2) (createDecimal 5 1)) (prices (createDecimal 15 1) (createDecimal 50 2))
  rw [hlaws.2.2.1 _ _ (.same _) hrescaled, celEqualsWithDecimal_iff distinct (prices _ _).valid (prices _ _).valid]
  exact Agrees.refl (prices _ _).valid

end Cel

end ConfluentKafka
