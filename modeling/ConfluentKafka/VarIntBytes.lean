import ConfluentKafka.DoubleOps
import ConfluentKafka.SchemaId

/-!
# Varints in any bytes

`readVarInt` on bytes that nobody wrote, with its numbers as doubles. How many bytes it goes over, and
what it makes of them, is told by the bytes up to the first without the high bit; where there is none
the reading ends one byte behind the end.
-/

namespace ConfluentKafka

namespace BufferWrapper

/-! ## The reader -/

/-- The second loop of `readVarInt`. -/
def readDouble (bw : BufferWrapper) (f fk : Double) : Double × BufferWrapper :=
  let b := bw.get
  let f := f.add ((Double.ofNat (b &&& 0x7f).toNat).mul fk)
  if b &&& 0x80 ≠ 0 then readDouble bw.skip f (fk.mul (.finite 128)) else (f, bw.skip)
termination_by bw.buf.length - bw.pos
decreasing_by
  rename_i h
  have hlt : bw.pos < bw.buf.length := by
    by_contra hge
    have h₀ : bw.get = 0 := List.getD_eq_default _ _ (by omega)
    exact h (by simp [b, h₀])
  simp only [skip]
  omega

/-- `readVarInt`, with the number that it returns. -/
def readNumber (bw : BufferWrapper) : Double × BufferWrapper :=
  let (n, h, bw) := bw.readInt 0 0
  if h ≠ 0 then
    let (f, bw) := bw.readDouble (Double.ofNat n) (.finite 268435456)
    ((if f.hasOdd then (f.add (.finite 1)).neg else f).half, bw)
  else (.finite (if n &&& 1 ≠ 0 then -((n >>> 1 : Nat) : Int) - 1 else ((n >>> 1 : Nat) : Int)), bw)

end BufferWrapper

/-! ## The bytes that are read -/

def codeLength : Bytes → Nat
  | [] => 1
  | b :: bs => if b &&& 0x80 ≠ 0 then codeLength bs + 1 else 1

def IsVarint (code : Bytes) : Prop := codeLength code = code.length

instance (code : Bytes) : Decidable (IsVarint code) := inferInstanceAs (Decidable (_ = _))

def intLoop (n k : Nat) : Bytes → Nat × UInt8 × Nat
  | [] => (n, 0, 1)
  | b :: bs =>
    let n := n ||| ((b &&& 0x7f).toNat <<< k)
    if b &&& 0x80 ≠ 0 ∧ k + 7 < 28 then
      let r := intLoop n (k + 7) bs
      (r.1, r.2.1, r.2.2 + 1)
    else (n, b &&& 0x80, 1)

def doubleLoop (f fk : Double) : Bytes → Double
  | [] => f.add ((Double.ofNat 0).mul fk)
  | b :: bs =>
    let f := f.add ((Double.ofNat (b &&& 0x7f).toNat).mul fk)
    if b &&& 0x80 ≠ 0 then doubleLoop f (fk.mul (.finite 128)) bs else f

def number (bs : Bytes) : Double :=
  let (n, h, c) := intLoop 0 0 bs
  if h ≠ 0 then
    let f := doubleLoop (Double.ofNat n) (.finite 268435456) (bs.drop c)
    (if f.hasOdd then (f.add (.finite 1)).neg else f).half
  else .finite (if n &&& 1 ≠ 0 then -((n >>> 1 : Nat) : Int) - 1 else ((n >>> 1 : Nat) : Int))

theorem codeLength_pos (bs : Bytes) : 0 < codeLength bs := by
  cases bs with
  | nil => exact Nat.one_pos
  | cons b bs =>
    rw [codeLength]
    split_ifs
    · exact Nat.succ_pos _
    · exact Nat.one_pos

theorem codeLength_append {code : Bytes} (h : IsVarint code) (tail : Bytes) :
    codeLength (code ++ tail) = code.length := by
  induction code with
  | nil => cases h
  | cons b code ih =>
    rw [IsVarint, codeLength, List.length_cons] at h
    rw [List.cons_append, codeLength, List.length_cons]
    split_ifs at h ⊢ with hmore
    · have hcode : IsVarint code := Nat.add_right_cancel h
      rw [ih hcode]
    · exact h

theorem isVarint_take {bs : Bytes} (h : codeLength bs ≤ bs.length) : IsVarint (bs.take (codeLength bs)) := by
  induction bs with
  | nil => cases h
  | cons b bs ih =>
    rw [codeLength, List.length_cons] at h
    rw [IsVarint, codeLength]
    split_ifs at h ⊢ with hmore
    · have hrest := ih (Nat.le_of_succ_le_succ h)
      rw [List.take_succ_cons, codeLength, if_pos hmore, List.length_cons, hrest]
    · rw [List.take_succ_cons, List.take_zero, codeLength, if_neg hmore]
      rfl

/-! ## The two loops -/

theorem drop_eq_cons {bs : Bytes} {pos : Nat} (h : pos < bs.length) : bs.drop pos = bs.getD pos 0 :: bs.drop
    (pos + 1) := by
  rw [List.getD_eq_getElem bs 0 h, List.drop_eq_getElem_cons h]

theorem get_of_le {buf : Bytes} {pos : Nat} (h : buf.length ≤ pos) : (⟨buf, pos⟩ : BufferWrapper).get = 0 :=
  List.getD_eq_default _ _ h

theorem intLoop_more {b : UInt8} {k : Nat} (h : b &&& 0x80 ≠ 0 ∧ k + 7 < 28) (n : Nat) (bs : Bytes) :
    intLoop n k (b :: bs) = ((intLoop (n ||| ((b &&& 0x7f).toNat <<< k)) (k + 7) bs).1,
      (intLoop (n ||| ((b &&& 0x7f).toNat <<< k)) (k + 7) bs).2.1,
      (intLoop (n ||| ((b &&& 0x7f).toNat <<< k)) (k + 7) bs).2.2 + 1) := by
  rw [intLoop]
  exact if_pos h

theorem intLoop_last {b : UInt8} {k : Nat} (h : ¬(b &&& 0x80 ≠ 0 ∧ k + 7 < 28)) (n : Nat) (bs : Bytes) :
    intLoop n k (b :: bs) = (n ||| ((b &&& 0x7f).toNat <<< k), b &&& 0x80, 1) := by
  rw [intLoop]
  exact if_neg h

/-- What the first loop goes over: up to the end of the code, or four bytes of it. -/
theorem intLoop_codeLength (bs : Bytes) : ∀ n k, if (intLoop n k bs).2.1 = 0 then codeLength bs =
    (intLoop n k bs).2.2
    else (intLoop n k bs).2.2 ≤ bs.length ∧ codeLength bs = (intLoop n k bs).2.2 + codeLength
      (bs.drop (intLoop n k bs).2.2) := by
  induction bs with
  | nil =>
    intro n k
    rw [intLoop, if_pos rfl]
    rfl
  | cons b bs ih =>
    intro n k
    rw [codeLength]
    by_cases hloop : b &&& 0x80 ≠ 0 ∧ k + 7 < 28
    · have hrest := ih (n ||| ((b &&& 0x7f).toNat <<< k)) (k + 7)
      rw [intLoop_more hloop, if_pos hloop.1]
      dsimp only
      split_ifs at hrest ⊢ with hzero
      · rw [hrest]
      · refine ⟨Nat.succ_le_succ hrest.1, ?_⟩
        rw [List.drop_succ_cons]
        omega
    · rw [intLoop_last hloop]
      dsimp only
      by_cases hmore : b &&& 0x80 = 0
      · rw [if_pos hmore, if_neg (not_not.mpr hmore)]
      · rw [if_neg hmore, if_pos hmore]
        exact ⟨Nat.succ_le_succ (Nat.zero_le _), by rw [List.drop_succ_cons, List.drop_zero, Nat.add_comm]⟩

namespace BufferWrapper

theorem readInt_eq (buf : Bytes) : ∀ (bs : Bytes) (pos n k : Nat), buf.drop pos = bs → k < 28 →
    (⟨buf, pos⟩ : BufferWrapper).readInt n k =
      ((intLoop n k bs).1, (intLoop n k bs).2.1, ⟨buf, pos + (intLoop n k bs).2.2⟩) := by
  intro bs
  induction bs with
  | nil =>
    intro pos n k hdrop hk
    have hget := get_of_le (List.drop_eq_nil_iff.mp hdrop)
    rw [readInt, hget]
    simp [intLoop, skip]
  | cons b bs ih =>
    intro pos n k hdrop hk
    have hlt : pos < buf.length := by
      by_contra hge
      rw [List.drop_eq_nil_of_le (Nat.le_of_not_lt hge)] at hdrop
      cases hdrop
    rw [drop_eq_cons hlt] at hdrop
    obtain ⟨hb, hrest⟩ := List.cons.inj hdrop
    have hget : (⟨buf, pos⟩ : BufferWrapper).get = b := hb
    rw [readInt, hget]
    by_cases hloop : b &&& 0x80 ≠ 0 ∧ k + 7 < 28
    · have hnext := ih (pos + 1) (n ||| ((b &&& 0x7f).toNat <<< k)) (k + 7) hrest hloop.2
      rw [intLoop_more hloop, if_pos hloop, skip, hnext, Nat.add_assoc, Nat.add_comm 1]
    · rw [intLoop_last hloop, if_neg hloop, skip]

theorem readDouble_eq (buf : Bytes) : ∀ (bs : Bytes) (pos : Nat) (f fk : Double), buf.drop pos = bs →
    (⟨buf, pos⟩ : BufferWrapper).readDouble f fk = (doubleLoop f fk bs, ⟨buf, pos + codeLength bs⟩) := by
  intro bs
  induction bs with
  | nil =>
    intro pos f fk hdrop
    have hget := get_of_le (List.drop_eq_nil_iff.mp hdrop)
    rw [readDouble, hget]
    simp [doubleLoop, skip, codeLength]
  | cons b bs ih =>
    intro pos f fk hdrop
    have hlt : pos < buf.length := by
      by_contra hge
      rw [List.drop_eq_nil_of_le (Nat.le_of_not_lt hge)] at hdrop
      cases hdrop
    rw [drop_eq_cons hlt] at hdrop
    obtain ⟨hb, hrest⟩ := List.cons.inj hdrop
    have hget : (⟨buf, pos⟩ : BufferWrapper).get = b := hb
    rw [readDouble, hget, doubleLoop, codeLength]
    by_cases hmore : b &&& 0x80 ≠ 0
    · rw [if_pos hmore, if_pos hmore, if_pos hmore, skip, ih (pos + 1) _ _ hrest, Nat.add_assoc, Nat.add_comm 1]
    · rw [if_neg hmore, if_neg hmore, if_neg hmore, skip]

theorem readNumber_eq (buf : Bytes) (pos : Nat) : (⟨buf, pos⟩ : BufferWrapper).readNumber =
    (number (buf.drop pos), ⟨buf, pos + codeLength (buf.drop pos)⟩) := by
  have hlength := intLoop_codeLength (buf.drop pos) 0 0
  rw [readNumber, readInt_eq buf (buf.drop pos) pos 0 0 rfl (by decide), number]
  dsimp only
  by_cases hzero : (intLoop 0 0 (buf.drop pos)).2.1 = 0
  · rw [if_pos hzero] at hlength
    rw [if_neg (not_not.mpr hzero), if_neg (not_not.mpr hzero), hlength]
  · rw [if_neg hzero] at hlength
    rw [if_pos hzero, if_pos hzero, readDouble_eq buf _ _ _ _ (List.drop_drop).symm, hlength.2, Nat.add_assoc]

end BufferWrapper

/-! ## The front of the bytes -/

theorem intLoop_append {code : Bytes} (h : IsVarint code) (tail : Bytes) : ∀ n k, intLoop n k (code ++ tail) =
    intLoop n k code := by
  induction code with
  | nil => cases h
  | cons b code ih =>
    intro n k
    rw [IsVarint, codeLength, List.length_cons] at h
    rw [List.cons_append]
    by_cases hloop : b &&& 0x80 ≠ 0 ∧ k + 7 < 28
    · rw [if_pos hloop.1] at h
      rw [intLoop_more hloop, intLoop_more hloop, ih (Nat.add_right_cancel h)]
    · rw [intLoop_last hloop, intLoop_last hloop]

theorem doubleLoop_append {code : Bytes} (h : IsVarint code) (tail : Bytes) :
    ∀ f fk, doubleLoop f fk (code ++ tail) = doubleLoop f fk code := by
  induction code with
  | nil => cases h
  | cons b code ih =>
    intro f fk
    rw [IsVarint, codeLength, List.length_cons] at h
    rw [List.cons_append, doubleLoop, doubleLoop]
    by_cases hmore : b &&& 0x80 ≠ 0
    · rw [if_pos hmore] at h
      rw [if_pos hmore, if_pos hmore, ih (Nat.add_right_cancel h)]
    · rw [if_neg hmore, if_neg hmore]

theorem number_append {code : Bytes} (h : IsVarint code) (tail : Bytes) : number (code ++ tail) = number code := by
  have hlength := intLoop_codeLength code 0 0
  rw [number, number, intLoop_append h]
  dsimp only
  by_cases hzero : (intLoop 0 0 code).2.1 = 0
  · rw [if_neg (not_not.mpr hzero), if_neg (not_not.mpr hzero)]
  · rw [if_neg hzero] at hlength
    have hrest : IsVarint (code.drop (intLoop 0 0 code).2.2) := by
      rw [IsVarint] at h ⊢
      rw [List.length_drop]
      omega
    rw [if_pos hzero, if_pos hzero, List.drop_append_of_le_length hlength.1, doubleLoop_append hrest]

end ConfluentKafka
