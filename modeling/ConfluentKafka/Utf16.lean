import Mathlib.Data.List.Basic

/-!
# UTF-16

Strings of code units, in which surrogates may stand alone. `ofChars` are the units of a text, and
`scalars` is the text that a string is taken for: a surrogate that stands alone is read as the
replacement character.
-/

namespace ConfluentKafka

abbrev JsString := List UInt16

instance : LawfulBEq JsString := inferInstance

namespace Utf16

def isWhiteSpace (code : Nat) : Bool :=
  (9 ≤ code ∧ code ≤ 13) ∨ code ∈ [32, 160, 5760, 8232, 8233, 8239, 8287, 12288, 65279] ∨
  (8192 ≤ code ∧ code ≤ 8202)

def trim (s : JsString) : JsString :=
  ((s.dropWhile fun u => isWhiteSpace u.toNat).reverse.dropWhile fun u => isWhiteSpace u.toNat).reverse

def isHigh (u : UInt16) : Bool := 0xD800 ≤ u.toNat ∧ u.toNat < 0xDC00

def isLow (u : UInt16) : Bool := 0xDC00 ≤ u.toNat ∧ u.toNat < 0xE000

def ofChar (c : Char) : JsString :=
  if c.toNat < 0x10000 then [UInt16.ofNat c.toNat]
  else [UInt16.ofNat (0xD800 + (c.toNat - 0x10000) / 0x400), UInt16.ofNat (0xDC00 + (c.toNat - 0x10000) % 0x400)]

def ofChars (cs : List Char) : JsString := cs.flatMap ofChar

def replacementChar : Char := Char.ofNat 0xFFFD

def pair (h l : UInt16) : Char := Char.ofNat (0x10000 + (h.toNat - 0xD800) * 0x400 + (l.toNat - 0xDC00))

def scalars : JsString → List Char
  | [] => []
  | [u] => [if isHigh u || isLow u then replacementChar else Char.ofNat u.toNat]
  | h :: l :: rest =>
    if isHigh h && isLow l then pair h l :: scalars rest
    else (if isHigh h || isLow h then replacementChar else Char.ofNat h.toNat) :: scalars (l :: rest)

def WellFormed (s : JsString) : Prop := ofChars (scalars s) = s

instance (s : JsString) : Decidable (WellFormed s) := inferInstanceAs (Decidable (_ = _))

/-! ## The units of a text -/

theorem char_range (c : Char) : c.toNat < 0xD800 ∨ 0xDFFF < c.toNat ∧ c.toNat < 0x110000 := by
  have := c.valid
  simpa [UInt32.isValidChar, Nat.isValidChar] using this

theorem toNat_ofNat {n : Nat} (h : n < 0x10000) : (UInt16.ofNat n).toNat = n := by
  rw [UInt16.toNat_ofNat']
  exact Nat.mod_eq_of_lt h

theorem toNat_char {n : Nat} (h : n.isValidChar) : (Char.ofNat n).toNat = n := by
  rw [Char.ofNat, dif_pos h]
  rfl

theorem ofChars_append (cs ds : List Char) : ofChars (cs ++ ds) = ofChars cs ++ ofChars ds := List.flatMap_append

theorem ofChars_cons (c : Char) (cs : List Char) : ofChars (c :: cs) = ofChar c ++ ofChars cs := List.flatMap_cons

/-- What follows a unit that is no surrogate does not change how it is read. -/
theorem scalars_cons {u : UInt16} (hh : isHigh u = false) (hl : isLow u = false) (s : JsString) :
    scalars (u :: s) = Char.ofNat u.toNat :: scalars s := by
  cases s with
  | nil => simp [scalars, hh, hl]
  | cons v s => simp [scalars, hh, hl]

theorem scalars_pair {h l : UInt16} (hh : isHigh h = true) (hl : isLow l = true) (s : JsString) :
    scalars (h :: l :: s) = pair h l :: scalars s := by
  simp [scalars, hh, hl]

theorem scalars_ofChar_append (c : Char) (s : JsString) : scalars (ofChar c ++ s) = c :: scalars s := by
  have hrange := char_range c
  have hc : Char.ofNat c.toNat = c := Char.ofNat_toNat c
  unfold ofChar
  by_cases hsmall : c.toNat < 0x10000
  · have hu := toNat_ofNat hsmall
    rw [if_pos hsmall, List.singleton_append, scalars_cons, hu, hc]
    · simp only [isHigh, hu, decide_eq_false_iff_not]
      omega
    · simp only [isLow, hu, decide_eq_false_iff_not]
      omega
  · have hh := toNat_ofNat (show 0xD800 + (c.toNat - 0x10000) / 0x400 < 0x10000 by omega)
    have hl := toNat_ofNat (show 0xDC00 + (c.toNat - 0x10000) % 0x400 < 0x10000 by omega)
    have hvalue : 0x10000 + (0xD800 + (c.toNat - 0x10000) / 0x400 - 0xD800) * 0x400 +
        (0xDC00 + (c.toNat - 0x10000) % 0x400 - 0xDC00) = c.toNat := by omega
    rw [if_neg hsmall, List.cons_append, List.singleton_append, scalars_pair, pair, hh, hl, hvalue, hc]
    · simp only [isHigh, hh, decide_eq_true_eq]
      omega
    · simp only [isLow, hl, decide_eq_true_eq]
      omega

theorem scalars_ofChars_append (cs : List Char) (s : JsString) : scalars (ofChars cs ++ s) = cs ++ scalars s := by
  induction cs with
  | nil => rfl
  | cons c cs ih => rw [ofChars_cons, List.append_assoc, scalars_ofChar_append, ih, List.cons_append]

@[simp] theorem scalars_ofChars (cs : List Char) : scalars (ofChars cs) = cs := by
  have h := scalars_ofChars_append cs []
  simpa [scalars] using h

theorem ofChars_injective {cs ds : List Char} (h : ofChars cs = ofChars ds) : cs = ds := by
  rw [← scalars_ofChars cs, h, scalars_ofChars]

theorem wellFormed_ofChars (cs : List Char) : WellFormed (ofChars cs) := by
  rw [WellFormed, scalars_ofChars]

theorem ofChar_of_unit {u : UInt16} (hh : isHigh u = false) (hl : isLow u = false) :
    ofChar (Char.ofNat u.toNat) = [u] := by
  have hlt := u.toNat_lt
  simp only [isHigh, decide_eq_false_iff_not] at hh
  simp only [isLow, decide_eq_false_iff_not] at hl
  have hvalid : u.toNat.isValidChar := by
    rw [Nat.isValidChar]
    omega
  have hc : (Char.ofNat u.toNat).toNat = u.toNat := toNat_char hvalid
  rw [ofChar, hc, if_pos (by omega), UInt16.ofNat_toNat]

theorem ofChar_of_pair {h l : UInt16} (hh : isHigh h = true) (hl : isLow l = true) :
    ofChar (pair h l) = [h, l] := by
  simp only [isHigh, decide_eq_true_eq] at hh
  simp only [isLow, decide_eq_true_eq] at hl
  have hvalid : (0x10000 + (h.toNat - 0xD800) * 0x400 + (l.toNat - 0xDC00)).isValidChar := by
    rw [Nat.isValidChar]
    omega
  have hc : (pair h l).toNat = 0x10000 + (h.toNat - 0xD800) * 0x400 + (l.toNat - 0xDC00) := toNat_char hvalid
  have hhigh : 0xD800 + ((pair h l).toNat - 0x10000) / 0x400 = h.toNat := by omega
  have hlow : 0xDC00 + ((pair h l).toNat - 0x10000) % 0x400 = l.toNat := by omega
  rw [ofChar, if_neg (by omega), hhigh, hlow, UInt16.ofNat_toNat, UInt16.ofNat_toNat]

/-- A string that is taken for a text without the replacement character is that text. -/
theorem wellFormed_of_not_mem {s : JsString} (hs : replacementChar ∉ scalars s) : WellFormed s := by
  rw [WellFormed]
  induction s using scalars.induct with
  | case1 => rfl
  | case2 u =>
    rw [scalars] at hs ⊢
    by_cases hu : (isHigh u || isLow u) = true
    · simp [hu] at hs
    · rw [if_neg hu]
      simp only [Bool.or_eq_true, not_or, Bool.not_eq_true] at hu
      rw [ofChars_cons, ofChar_of_unit hu.1 hu.2]
      rfl
  | case3 h l rest hpair ih =>
    rw [scalars, if_pos hpair] at hs ⊢
    rw [List.mem_cons, not_or] at hs
    rw [Bool.and_eq_true] at hpair
    rw [ofChars_cons, ofChar_of_pair hpair.1 hpair.2, ih hs.2]
    rfl
  | case4 h l rest hpair ih =>
    rw [scalars, if_neg hpair] at hs ⊢
    rw [List.mem_cons, not_or] at hs
    by_cases hu : (isHigh h || isLow h) = true
    · simp [hu] at hs
    · rw [if_neg hu]
      simp only [Bool.or_eq_true, not_or, Bool.not_eq_true] at hu
      rw [ofChars_cons, ofChar_of_unit hu.1 hu.2, ih hs.2]
      rfl

/-- Units below the surrogates are the characters with their numbers. -/
theorem scalars_of_small {s : JsString} (h : ∀ c ∈ s, c.toNat < 0xD800) : scalars s = s.map fun c =>
    Char.ofNat c.toNat := by
  induction s with
  | nil => rfl
  | cons c s ih =>
    obtain ⟨hc, hs⟩ := List.forall_mem_cons.mp h
    have hhigh : isHigh c = false := by
      simp only [isHigh, decide_eq_false_iff_not]
      omega
    have hlow : isLow c = false := by
      simp only [isLow, decide_eq_false_iff_not]
      omega
    rw [scalars_cons hhigh hlow, ih hs, List.map_cons]

/-- A string of such units is the only one that is taken for its text. -/
theorem eq_of_scalars_of_small {s s' : JsString} (h : ∀ c ∈ s, c.toNat < 0xD800) (heq : scalars s' = scalars s) :
    s' = s := by
  have htext := scalars_of_small h
  have hmem : replacementChar ∉ scalars s := by
    rw [htext]
    intro hmem
    obtain ⟨c, hc, hchar⟩ := List.mem_map.mp hmem
    have hlt := h c hc
    have hvalid : c.toNat.isValidChar := .inl hlt
    have hnum := toNat_char hvalid
    rw [hchar] at hnum
    have hrepl : replacementChar.toNat = 0xFFFD := by decide
    omega
  have hwf : WellFormed s := wellFormed_of_not_mem hmem
  have hwf' : WellFormed s' := wellFormed_of_not_mem (heq ▸ hmem)
  rw [WellFormed] at hwf hwf'
  rw [← hwf', heq, hwf]

/-! ## Surrogates that stand alone -/

def lone : UInt16 := 0xD800

/-- The units of a character do not begin with a low surrogate. -/
theorem isLow_of_ofChar {c : Char} {u : UInt16} {s : JsString} (h : ofChar c = u :: s) : isLow u = false := by
  have hrange := char_range c
  unfold ofChar at h
  by_cases hsmall : c.toNat < 0x10000
  · have hu := toNat_ofNat hsmall
    rw [if_pos hsmall] at h
    cases h
    simp only [isLow, hu, decide_eq_false_iff_not]
    omega
  · have hh := toNat_ofNat (show 0xD800 + (c.toNat - 0x10000) / 0x400 < 0x10000 by omega)
    rw [if_neg hsmall] at h
    cases h
    simp only [isLow, hh, decide_eq_false_iff_not]
    omega

theorem ofChar_ne_nil (c : Char) : ofChar c ≠ [] := by
  unfold ofChar
  split_ifs
  · exact List.cons_ne_nil _ _
  · exact List.cons_ne_nil _ _

theorem isLow_of_ofChars {cs : List Char} {u : UInt16} {s : JsString} (h : ofChars cs = u :: s) :
    isLow u = false := by
  cases cs with
  | nil => cases h
  | cons c cs =>
    obtain ⟨v, rest, hv⟩ := List.exists_cons_of_ne_nil (ofChar_ne_nil c)
    rw [ofChars_cons, hv, List.cons_append, List.cons.injEq] at h
    rw [← h.1]
    exact isLow_of_ofChar hv

theorem scalars_lone_cons (cs : List Char) : scalars (lone :: ofChars cs) = replacementChar :: cs := by
  have hhigh : isHigh lone = true := by decide
  cases hs : ofChars cs with
  | nil =>
    have hnil : cs = [] := ofChars_injective (hs.trans rfl)
    simp [scalars, hhigh, hnil]
  | cons u s =>
    have hlow := isLow_of_ofChars hs
    have hrest : scalars (u :: s) = cs := by rw [← hs, scalars_ofChars]
    simp [scalars, hhigh, hlow, hrest]

/-- A text with the replacement character is what another string is taken for, which is no text itself. -/
theorem exists_lone {cs : List Char} (h : replacementChar ∈ cs) : ∃ s, scalars s = cs ∧ ∀ ds, ofChars ds ≠ s := by
  obtain ⟨front, back, rfl⟩ := List.append_of_mem h
  refine ⟨ofChars front ++ lone :: ofChars back, ?_, fun ds hds => ?_⟩
  · rw [scalars_ofChars_append, scalars_lone_cons]
  · have htext : ds = front ++ replacementChar :: back := by
      rw [← scalars_ofChars ds, hds, scalars_ofChars_append, scalars_lone_cons]
    rw [htext, ofChars_append, ofChars_cons] at hds
    have hunits := List.append_cancel_left hds
    have hfirst := congrArg List.head? hunits
    simp [ofChar, replacementChar, lone] at hfirst

end Utf16

end ConfluentKafka
