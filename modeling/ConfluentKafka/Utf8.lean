import ConfluentKafka.Bytes

/-!
# UTF-8

Encoding is by character, with the library's `String.utf8EncodeChar`. Decoding runs a machine
over the bytes that writes the replacement character for what it cannot read and goes on with
the byte that did not fit. Decoding what was encoded gives the text back.
-/

namespace ConfluentKafka

namespace Utf8

def encode (cs : List Char) : Bytes := cs.flatMap String.utf8EncodeChar

def replacement : Char := Char.ofNat 0xFFFD

/-- Between two bytes: the bits read of a character, the bytes it still needs and the bounds of
the next one. -/
structure State where
  codePoint : Nat := 0
  needed : Nat := 0
  lower : Nat := 0x80
  upper : Nat := 0xBF

def first (b : Nat) : List Char × State :=
  if b ≤ 0x7F then ([Char.ofNat b], {})
  else if 0xC2 ≤ b ∧ b ≤ 0xDF then ([], { codePoint := b % 0x20, needed := 1 })
  else if 0xE0 ≤ b ∧ b ≤ 0xEF then
    ([], { codePoint := b % 0x10, needed := 2, lower := if b = 0xE0 then 0xA0 else 0x80,
           upper := if b = 0xED then 0x9F else 0xBF })
  else if 0xF0 ≤ b ∧ b ≤ 0xF4 then
    ([], { codePoint := b % 0x08, needed := 3, lower := if b = 0xF0 then 0x90 else 0x80,
           upper := if b = 0xF4 then 0x8F else 0xBF })
  else ([replacement], {})

def next (s : State) (b : Nat) : List Char × State :=
  if s.needed = 0 then first b
  else if s.lower ≤ b ∧ b ≤ s.upper then
    if s.needed = 1 then ([Char.ofNat (s.codePoint * 64 + b % 64)], {})
    else ([], { codePoint := s.codePoint * 64 + b % 64, needed := s.needed - 1 })
  else (replacement :: (first b).1, (first b).2)

def run : State → Bytes → List Char
  | s, [] => if s.needed = 0 then [] else [replacement]
  | s, b :: bs => (next s b.toNat).1 ++ run (next s b.toNat).2 bs

def decode (bs : Bytes) : List Char := run {} bs

/-! ## Decoding after encoding -/

theorem run_cons {n : Nat} (h : n < 256) (s : State) (bs : Bytes) :
    run s (UInt8.ofNat n :: bs) = (next s n).1 ++ run (next s n).2 bs := by
  rw [run, UInt8.toNat_ofNat', Nat.mod_eq_of_lt h]

theorem next_start (b : Nat) : next {} b = first b := by
  simp [next]

theorem next_more {s : State} {b : Nat} (hn : 2 ≤ s.needed) (hl : s.lower ≤ b) (hu : b ≤ s.upper) :
    next s b = ([], { codePoint := s.codePoint * 64 + b % 64, needed := s.needed - 1 }) := by
  rw [next, if_neg (by omega), if_pos ⟨hl, hu⟩, if_neg (by omega)]

theorem next_last {s : State} {b : Nat} (hn : s.needed = 1) (hl : s.lower ≤ b) (hu : b ≤ s.upper) :
    next s b = ([Char.ofNat (s.codePoint * 64 + b % 64)], {}) := by
  rw [next, if_neg (by omega), if_pos ⟨hl, hu⟩, if_pos hn]

theorem first_two {b : Nat} (h₁ : 0xC2 ≤ b) (h₂ : b ≤ 0xDF) :
    first b = ([], { codePoint := b % 0x20, needed := 1 }) := by
  rw [first, if_neg (by omega), if_pos ⟨h₁, h₂⟩]

theorem first_three {b : Nat} (h₁ : 0xE0 ≤ b) (h₂ : b ≤ 0xEF) :
    first b = ([], { codePoint := b % 0x10, needed := 2, lower := if b = 0xE0 then 0xA0 else 0x80,
                     upper := if b = 0xED then 0x9F else 0xBF }) := by
  rw [first, if_neg (by omega), if_neg (by omega), if_pos ⟨h₁, h₂⟩]

theorem first_four {b : Nat} (h₁ : 0xF0 ≤ b) (h₂ : b ≤ 0xF4) :
    first b = ([], { codePoint := b % 0x08, needed := 3, lower := if b = 0xF0 then 0x90 else 0x80,
                     upper := if b = 0xF4 then 0x8F else 0xBF }) := by
  rw [first, if_neg (by omega), if_neg (by omega), if_neg (by omega), if_pos ⟨h₁, h₂⟩]

theorem run_encodeChar (c : Char) (bs : Bytes) : run {} (String.utf8EncodeChar c ++ bs) = c :: run {} bs := by
  have hv : c.toNat < 0xD800 ∨ 0xDFFF < c.toNat ∧ c.toNat < 0x110000 := by
    have := c.valid
    simpa [UInt32.isValidChar, Nat.isValidChar] using this
  have hc : Char.ofNat c.toNat = c := Char.ofNat_toNat c
  obtain ⟨v, hvc⟩ : ∃ v, c.toNat = v := ⟨_, rfl⟩
  rw [hvc] at hv hc
  have hcv : c.val.toNat = v := hvc
  unfold String.utf8EncodeChar
  rw [hcv]
  by_cases h1 : v ≤ 0x7f
  · have hb : v % 256 = v := by omega
    simp [h1, run, next_start, first, hb, hc]
  by_cases h2 : v ≤ 0x7ff
  · simp only [h1, h2, if_true, if_false, List.cons_append, List.nil_append]
    rw [run_cons (by omega), next_start, first_two (by omega) (by omega)]
    rw [run_cons (by omega), next_last rfl (by dsimp only; omega) (by dsimp only; omega)]
    have he : (v / 64 % 0x20 + 0xc0) % 0x20 * 64 + (v % 0x40 + 0x80) % 64 = v := by omega
    simp only [he, hc, List.nil_append, List.cons_append]
  by_cases h3 : v ≤ 0xffff
  · simp only [h1, h2, h3, if_true, if_false, List.cons_append, List.nil_append]
    rw [run_cons (by omega), next_start, first_three (by omega) (by omega)]
    rw [run_cons (by omega), next_more (Nat.le_refl 2) (by dsimp only; split <;> omega)
      (by dsimp only; split <;> omega)]
    rw [run_cons (by omega), next_last rfl (by dsimp only; omega) (by dsimp only; omega)]
    have he : ((v / 4096 % 0x10 + 0xe0) % 0x10 * 64 + (v / 64 % 0x40 + 0x80) % 64) * 64 +
      (v % 0x40 + 0x80) % 64 = v := by
      omega
    simp only [he, hc, List.nil_append, List.cons_append]
  · simp only [h1, h2, h3, if_false, List.cons_append, List.nil_append]
    rw [run_cons (by omega), next_start, first_four (by omega) (by omega)]
    rw [run_cons (by omega), next_more (by dsimp only; omega) (by dsimp only; split <;> omega)
      (by dsimp only; split <;> omega)]
    rw [run_cons (by omega), next_more (Nat.le_refl 2) (by dsimp only; omega) (by dsimp only; omega)]
    rw [run_cons (by omega), next_last rfl (by dsimp only; omega) (by dsimp only; omega)]
    have he : (((v / 262144 % 0x08 + 0xf0) % 0x08 * 64 + (v / 4096 % 0x40 + 0x80) % 64) * 64 +
        (v / 64 % 0x40 + 0x80) % 64) * 64 + (v % 0x40 + 0x80) % 64 = v := by
      omega
    simp only [he, hc, List.nil_append, List.cons_append]

theorem decode_encode (cs : List Char) : decode (encode cs) = cs := by
  rw [decode]
  induction cs with
  | nil => rfl
  | cons c cs ih =>
    rw [encode, List.flatMap_cons, run_encodeChar]
    exact congrArg (c :: ·) ih

end Utf8

end ConfluentKafka
