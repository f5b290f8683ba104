import ConfluentKafka.NonFinite
import Mathlib.Data.Bool.AllAny
import Mathlib.Data.List.TakeWhile

/-!
# Number literals

The texts that are made of a sign, digits, a point with digits and an exponent, each of them optional.
Such a text is taken apart from the left, and put together again it is read as the parts it was made of.
-/

namespace ConfluentKafka

open Json

structure NumberLiteral where
  negative : Bool
  int : JsString
  fraction : Option JsString
  exponent : Option (Bool × JsString)
  deriving DecidableEq

namespace NumberLiteral

/-! ## Reading -/

def takeSign : JsString → Bool × JsString
  | [] => (false, [])
  | c :: s => if c = unit '-' then (true, s) else if c = unit '+' then (false, s) else (false, c :: s)

def takeFraction : JsString → Option JsString × JsString
  | [] => (none, [])
  | c :: s => if c = unit '.' then (some (s.takeWhile isDigit), s.dropWhile isDigit) else (none, c :: s)

def takeExponent : JsString → Option (Option (Bool × JsString))
  | [] => some none
  | c :: s =>
    let ds := (takeSign s).2
    if (c = unit 'e' ∨ c = unit 'E') ∧ ds ≠ [] ∧ ds.all isDigit then some (some ((takeSign s).1, ds)) else none

def scan (s : JsString) : Option NumberLiteral :=
  let unsigned := (takeSign s).2
  let behind := takeFraction (unsigned.dropWhile isDigit)
  (takeExponent behind.2).map fun exponent => ⟨(takeSign s).1, unsigned.takeWhile isDigit, behind.1, exponent⟩

variable (l : NumberLiteral)

def fractionDigits : JsString := l.fraction.getD []

def hasDigits : Bool := l.int ≠ [] ∨ l.fractionDigits ≠ []

def exponentValue : Int :=
  match l.exponent with
  | none => 0
  | some (negative, ds) => if negative then -(digitsValue ds : Int) else digitsValue ds

def unscaled : Int :=
  if l.negative then -(digitsValue (l.int ++ l.fractionDigits) : Int) else digitsValue (l.int ++ l.fractionDigits)

/-! ## Writing -/

def exponentText : JsString :=
  match l.exponent with
  | none => []
  | some (negative, ds) => unit 'e' :: (if negative then unit '-' else unit '+') :: ds

def fractionText : JsString :=
  match l.fraction with
  | none => []
  | some ds => unit '.' :: ds

def text : JsString := (if l.negative then [unit '-'] else []) ++ (l.int ++ (l.fractionText ++ l.exponentText))

structure WellFormed : Prop where
  int : l.int.all isDigit = true
  fraction : l.fractionDigits.all isDigit = true
  exponent : ∀ e, l.exponent = some e → e.2 ≠ [] ∧ e.2.all isDigit = true

variable {l}

def EndsDigits (s : JsString) : Prop := ∀ c, s.head? = some c → isDigit c = false

theorem takeWhile_append {ds s : JsString} (hds : ds.all isDigit = true) (hs : EndsDigits s) :
    (ds ++ s).takeWhile isDigit = ds := by
  induction ds with
  | nil =>
    cases s with
    | nil => rfl
    | cons c s => simp [hs c rfl]
  | cons d ds ih =>
    simp only [List.all_cons, Bool.and_eq_true] at hds
    simp [hds.1, ih hds.2]

theorem dropWhile_append {ds s : JsString} (hds : ds.all isDigit = true) (hs : EndsDigits s) :
    (ds ++ s).dropWhile isDigit = s := by
  induction ds with
  | nil =>
    cases s with
    | nil => rfl
    | cons c s => simp [hs c rfl]
  | cons d ds ih =>
    simp only [List.all_cons, Bool.and_eq_true] at hds
    simp [hds.1, ih hds.2]

theorem endsDigits_exponentText : EndsDigits l.exponentText := by
  intro c hc
  unfold exponentText at hc
  split at hc
  · simp at hc
  · simp only [List.head?_cons, Option.some.injEq] at hc
    subst hc
    decide

theorem endsDigits_fractionText : EndsDigits (l.fractionText ++ l.exponentText) := by
  intro c hc
  unfold fractionText at hc
  split at hc
  · exact endsDigits_exponentText c hc
  · simp only [List.cons_append, List.head?_cons, Option.some.injEq] at hc
    subst hc
    decide

theorem takeSign_of_head {s : JsString} (h : ∀ c, s.head? = some c → c ≠ unit '-' ∧ c ≠ unit '+') :
    takeSign s = (false, s) := by
  cases s with
  | nil => rfl
  | cons c s =>
    obtain ⟨hminus, hplus⟩ := h c rfl
    simp [takeSign, hminus, hplus]

theorem not_sign_of_isDigit {c : UInt16} (h : isDigit c = true) : c ≠ unit '-' ∧ c ≠ unit '+' := by
  constructor
  · rintro rfl
    exact absurd h (by decide)
  · rintro rfl
    exact absurd h (by decide)

theorem takeExponent_exponentText (h : l.WellFormed) : takeExponent l.exponentText = some l.exponent := by
  unfold exponentText
  cases he : l.exponent with
  | none => rfl
  | some e =>
    obtain ⟨negative, ds⟩ := e
    obtain ⟨hne, hall⟩ := h.exponent _ he
    have hdigits : ∀ c ∈ ds, isDigit c = true := List.all_eq_true.mp hall
    cases negative
    · have hsign : takeSign (unit '+' :: ds) = (false, ds) := rfl
      simpa [takeExponent, hsign, hne] using hdigits
    · have hsign : takeSign (unit '-' :: ds) = (true, ds) := rfl
      simpa [takeExponent, hsign, hne] using hdigits

theorem takeFraction_fractionText (h : l.WellFormed) :
    takeFraction (l.fractionText ++ l.exponentText) = (l.fraction, l.exponentText) := by
  unfold fractionText
  cases hf : l.fraction with
  | none =>
    unfold exponentText
    cases l.exponent with
    | none => rfl
    | some e => rfl
  | some ds =>
    have hall : ds.all isDigit = true := by
      have hfraction := h.fraction
      rwa [fractionDigits, hf] at hfraction
    simp only [List.cons_append, takeFraction, if_true]
    rw [takeWhile_append hall endsDigits_exponentText, dropWhile_append hall endsDigits_exponentText]

theorem takeSign_text (h : l.WellFormed) :
    takeSign l.text = (l.negative, l.int ++ (l.fractionText ++ l.exponentText)) := by
  unfold text
  cases l.negative with
  | true => rfl
  | false =>
    apply takeSign_of_head
    intro c hc
    cases hint : l.int with
    | nil =>
      rw [hint] at hc
      simp only [Bool.false_eq_true, if_false, List.nil_append] at hc
      unfold fractionText exponentText at hc
      split at hc
      · split at hc
        · simp at hc
        · simp only [List.nil_append, List.head?_cons, Option.some.injEq] at hc
          subst hc
          decide
      · simp only [List.cons_append, List.head?_cons, Option.some.injEq] at hc
        subst hc
        decide
    | cons d ds =>
      have hall := h.int
      rw [hint] at hc hall
      simp only [Bool.false_eq_true, if_false, List.nil_append, List.cons_append, List.head?_cons,
        Option.some.injEq] at hc
      subst hc
      simp only [List.all_cons, Bool.and_eq_true] at hall
      exact not_sign_of_isDigit hall.1

theorem scan_text (h : l.WellFormed) : scan l.text = some l := by
  simp only [scan, takeSign_text h]
  rw [takeWhile_append h.int endsDigits_fractionText, dropWhile_append h.int endsDigits_fractionText,
    takeFraction_fractionText h, takeExponent_exponentText h, Option.map_some]

/-! ## White space -/

def isLiteralUnit (c : UInt16) : Bool := isDigit c || c ∈ units "+-.eE"

theorem mem_takeSign {s : JsString} {c : UInt16} (h : c ∈ s) : c ∈ units "+-" ∨ c ∈ (takeSign s).2 := by
  cases s with
  | nil => simp at h
  | cons d s =>
    simp only [takeSign]
    rcases List.mem_cons.mp h with rfl | hc
    · split_ifs with hminus hplus
      · exact .inl (hminus ▸ by decide)
      · exact .inl (hplus ▸ by decide)
      · exact .inr List.mem_cons_self
    · split_ifs
      · exact .inr hc
      · exact .inr hc
      · exact .inr h

theorem mem_takeFraction {s : JsString} {c : UInt16} (h : c ∈ s) :
    c = unit '.' ∨ isDigit c = true ∨ c ∈ (takeFraction s).2 := by
  cases s with
  | nil => simp at h
  | cons d s =>
    simp only [takeFraction]
    rcases List.mem_cons.mp h with rfl | hc
    · split_ifs with hpoint
      · exact .inl hpoint
      · exact .inr (.inr List.mem_cons_self)
    · split_ifs
      · rw [← List.takeWhile_append_dropWhile (p := isDigit) (l := s), List.mem_append] at hc
        rcases hc with hc | hc
        · exact .inr (.inl (List.mem_takeWhile_imp hc))
        · exact .inr (.inr hc)
      · exact .inr (.inr h)

theorem mem_takeExponent {s : JsString} {e : Option (Bool × JsString)} {c : UInt16} (he : takeExponent s = some e)
    (h : c ∈ s) : isLiteralUnit c = true := by
  cases s with
  | nil => simp at h
  | cons d s =>
    simp only [takeExponent, Option.ite_none_right_eq_some] at he
    obtain ⟨⟨hd, -, hall⟩, -⟩ := he
    rcases List.mem_cons.mp h with rfl | hc
    · rcases hd with rfl | rfl
      · decide
      · decide
    · rcases mem_takeSign hc with hc | hc
      · have hsign : ∀ u ∈ units "+-", isLiteralUnit u = true := List.all_iff_forall_prop.mp (by decide)
        exact hsign c hc
      · have hdigit := List.all_eq_true.mp hall c hc
        simp [isLiteralUnit, hdigit]

theorem mem_scan {s : JsString} (hs : scan s = some l) {c : UInt16} (h : c ∈ s) : isLiteralUnit c = true := by
  simp only [scan, Option.map_eq_some_iff] at hs
  obtain ⟨e, he, -⟩ := hs
  rcases mem_takeSign h with hc | hc
  · have hsign : ∀ u ∈ units "+-", isLiteralUnit u = true := List.all_iff_forall_prop.mp (by decide)
    exact hsign c hc
  rw [← List.takeWhile_append_dropWhile (p := isDigit) (l := (takeSign s).2), List.mem_append] at hc
  rcases hc with hc | hc
  · simp [isLiteralUnit, List.mem_takeWhile_imp hc]
  rcases mem_takeFraction hc with rfl | hc | hc
  · decide
  · simp [isLiteralUnit, hc]
  · exact mem_takeExponent he hc

theorem not_isWhiteSpace {c : UInt16} (h : isLiteralUnit c = true) : Utf16.isWhiteSpace c.toNat = false := by
  have hcode : 43 ≤ c.toNat ∧ c.toNat ≤ 101 := by
    simp only [isLiteralUnit, Bool.or_eq_true, decide_eq_true_eq] at h
    rcases h with h | h
    · simp only [isDigit, decide_eq_true_eq] at h
      omega
    · have hall : ∀ u ∈ units "+-.eE", 43 ≤ u.toNat ∧ u.toNat ≤ 101 := List.all_iff_forall_prop.mp (by decide)
      exact hall c h
  simp only [Utf16.isWhiteSpace, decide_eq_false_iff_not]
  simp
  omega

theorem trim_of_scan {s : JsString} (hs : scan s = some l) : Utf16.trim s = s := by
  have hdrop : ∀ r : JsString, (∀ c ∈ r, isLiteralUnit c = true) →
    r.dropWhile (fun u => Utf16.isWhiteSpace u.toNat) = r := by
    intro r hr
    cases r with
    | nil => rfl
    | cons c r => simp [not_isWhiteSpace (hr c List.mem_cons_self)]
  have hall : ∀ c ∈ s, isLiteralUnit c = true := fun c hc => mem_scan hs hc
  rw [Utf16.trim, hdrop s hall, hdrop s.reverse (by simpa using hall), List.reverse_reverse]

/-! ## Digits of characters -/

theorem toNat_unit_of_isDigit {c : Char} (h : c.isDigit = true) : (unit c).toNat = c.toNat ∧ 48 ≤ c.toNat ∧
    c.toNat ≤ 57 := by
  have hrange : 48 ≤ c.toNat ∧ c.toNat ≤ 57 := by simpa [Char.isDigit, UInt32.le_iff_toNat_le] using h
  refine ⟨?_, hrange⟩
  rw [unit, UInt16.toNat_ofNat']
  omega

theorem isDigit_unit {c : Char} (h : c.isDigit = true) : isDigit (unit c) = true := by
  obtain ⟨hunit, hrange⟩ := toNat_unit_of_isDigit h
  simpa [isDigit, hunit] using hrange

theorem all_isDigit_map_unit {cs : List Char} (h : ∀ c ∈ cs, c.isDigit = true) :
    (cs.map unit).all isDigit = true := by
  simp only [List.all_map, List.all_eq_true, Function.comp_apply]
  exact fun c hc => isDigit_unit (h c hc)

theorem foldl_digits {cs : List Char} (h : ∀ c ∈ cs, c.isDigit = true) (n : Nat) :
    (cs.map unit).foldl (fun n c => n * 10 + (c.toNat - 48)) n = Nat.ofDigitChars 10 cs n := by
  induction cs generalizing n with
  | nil => rfl
  | cons c cs ih =>
    have hc := (toNat_unit_of_isDigit (h c List.mem_cons_self)).1
    simp only [List.map_cons, List.foldl_cons, Nat.ofDigitChars_cons, hc]
    rw [ih fun d hd => h d (List.mem_cons_of_mem c hd), Nat.mul_comm]
    rfl

theorem digitsValue_map_unit {cs : List Char} (h : ∀ c ∈ cs, c.isDigit = true) :
    digitsValue (cs.map unit) = Nat.ofDigitChars 10 cs 0 := foldl_digits h 0

theorem isDigit_of_mem_toDigits {n : Nat} {c : Char} (h : c ∈ Nat.toDigits 10 n) : c.isDigit = true :=
  Nat.isDigit_of_mem_toDigits (by decide) (by decide) h

end NumberLiteral

end ConfluentKafka
