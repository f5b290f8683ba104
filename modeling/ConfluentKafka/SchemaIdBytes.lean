import ConfluentKafka.VarIntBytes

/-!
# Schema ids in any bytes

`fromBytes` of `serde.ts` on bytes that nobody framed. A read past the end is no error: the bytes that
are missing count as zeros, or show as text in a guid. Where that happens the number of bytes read is
more than there are, or no id was decoded from them.
-/

namespace ConfluentKafka

structure DecodedId where
  id : Option Int := none
  guid : Option String := none
  messageIndexes : Option (List Double) := none

namespace DecodedId

theorem pos_lt_readNumber (bw : BufferWrapper) : bw.pos < bw.readNumber.2.pos := by
  obtain ⟨buf, pos⟩ := bw
  rw [BufferWrapper.readNumber_eq]
  exact Nat.lt_add_of_pos_right (codeLength_pos _)

def readIndexes (payload : Bytes) (count : Double) (i : Nat) (bw : BufferWrapper) :
    Except Thrown (List Double × BufferWrapper) :=
  if (Double.ofNat i).lt count then
    if payload.length ≤ bw.pos then .error SchemaId.malformedIndexes
    else if bw.readNumber.1.lt (.finite 0) then .error SchemaId.malformedIndexes
    else do
      let (msgIndexes, bw') ← readIndexes payload count (i + 1) bw.readNumber.2
      return (bw.readNumber.1 :: msgIndexes, bw')
  else .ok ([], bw)
termination_by payload.length - bw.pos
decreasing_by
  have := pos_lt_readNumber bw
  omega

def readMessageIndexes (payload : Bytes) : Except Thrown (Nat × List Double) :=
  let (count, bw) := (⟨payload, 0⟩ : BufferWrapper).readNumber
  if count = .finite 0 then .ok (1, [.finite 0])
  else if count.lt (.finite 0) then .error SchemaId.malformedIndexes
  else do
    let (msgIndexes, bw) ← readIndexes payload count 0 bw
    return (bw.pos, msgIndexes)

/-- The second half of `fromBytes`: the message indexes after the id. -/
def fromIndexBytes (schemaType : String) (decoded : DecodedId) (payload : Bytes) (totalBytesRead : Nat) :
    Except Thrown (DecodedId × Nat) :=
  if schemaType = "PROTOBUF" then do
    let (bytesRead, msgIndexes) ← readMessageIndexes (payload.drop totalBytesRead)
    return ({ decoded with messageIndexes := some msgIndexes }, totalBytesRead + bytesRead)
  else .ok (decoded, totalBytesRead)

def fromBytes (schemaType : String) (payload : Bytes) : Except Thrown (DecodedId × Nat) :=
  let magicByte := payload.take 1
  if magicByte = MAGIC_BYTE_V0 then do
    let id ← readInt32BE ((payload.take 5).drop 1)
    fromIndexBytes schemaType { id := some id } payload 5
  else if magicByte = MAGIC_BYTE_V1 then
    fromIndexBytes schemaType { guid := some (stringifyUuid ((payload.take 17).drop 1)) } payload 17
  else .error (.serialization "Unknown magic byte")

/-! ## What is decoded -/

def Rounds (count : Double) (i m : Nat) : Prop := (∀ j < m, (Double.ofNat (i + j)).lt count = true) ∧
    (Double.ofNat (i + m)).lt count = false

/-- The indexes are decoded from whole codes, as many as the first one says, which are the first `n` bytes. -/
def IndexesIn (bs : Bytes) (n : Nat) (indexes : List Double) : Prop :=
  ∃ (count : Bytes) (codes : List Bytes) (tail : Bytes), bs = count ++ (codes.flatten ++ tail) ∧ n = count.length +
    codes.flatten.length ∧ IsVarint count ∧
    (∀ code ∈ codes, IsVarint code) ∧ Rounds (number count) 0 codes.length ∧
    indexes = (if number count = .finite 0 then [.finite 0] else codes.map number) ∧ indexes ≠ [] ∧
    ∀ idx ∈ indexes, ∃ k : Nat, idx = .finite k

def HeaderIn (header : Bytes) (decoded : DecodedId) : Prop :=
  (∃ bytes : Bytes, bytes.length = 4 ∧ header = 0 :: bytes ∧ decoded.id = some (signed 4 (natBE bytes))) ∨
    ∃ bytes : Bytes, bytes.length = 16 ∧ header = 1 :: bytes ∧ decoded.guid = some (stringifyUuid bytes)

/-- The id or the guid is decoded from a whole header, and for Protobuf the indexes from what follows it. -/
def IdIn (schemaType : String) (payload : Bytes) (decoded : DecodedId) (n : Nat) : Prop :=
  ∃ (header rest : Bytes), payload = header ++ rest ∧ HeaderIn header decoded ∧
    if schemaType = "PROTOBUF" then
      ∃ (m : Nat) (indexes : List Double), n = header.length + m ∧ decoded.messageIndexes = some indexes ∧
        IndexesIn rest m indexes
    else n = header.length

/-- Bytes whose indexes are read without an error: a zero count that is not one zero byte, a count that is not
a number, a last index that is cut off by the end, or an index that is no integer. -/
inductive FlawedIndexes (bs : Bytes) : Prop
  | zero (hzero : number bs = .finite 0) (hhead : bs.head? ≠ some 0)
  | nan (hnan : number bs = .nan)
  | cut {count last : Bytes} {codes : List Bytes} (hbs : bs = count ++ (codes.flatten ++ last))
    (hcount : IsVarint count)
      (hcodes : ∀ code ∈ codes, IsVarint code) (hrounds : Rounds (number count) 0 (codes.length + 1))
      (hsign : ∀ code ∈ codes ++ [last], (number code).lt (.finite 0) = false) (hne : last ≠ [])
      (hcut : last.length < codeLength last)
  | notInteger {count tail : Bytes} {codes : List Bytes} (hbs : bs = count ++ (codes.flatten ++ tail))
    (hcount : IsVarint count)
      (hcodes : ∀ code ∈ codes, IsVarint code) (hrounds : Rounds (number count) 0 codes.length)
      (hsign : ∀ code ∈ codes, (number code).lt (.finite 0) = false) {code : Bytes} (hmem : code ∈ codes)
      (hnot : ∀ k : Nat, number code ≠ .finite k)

/-- A guid of fewer than 16 bytes, or such indexes of a Protobuf schema behind a whole header. -/
def Flawed (schemaType : String) (payload : Bytes) : Prop :=
  (payload.head? = some 1 ∧ payload.length < 17) ∨
    schemaType = "PROTOBUF" ∧
      (payload.head? = some 0 ∧ 5 ≤ payload.length ∧ FlawedIndexes (payload.drop 5) ∨
        payload.head? = some 1 ∧ FlawedIndexes (payload.drop 17))

/-! ## The loop over the indexes -/

section

variable {payload : Bytes} {count : Double}

theorem readIndexes_eq (i : Nat) (bw : BufferWrapper) : readIndexes payload count i bw =
    if (Double.ofNat i).lt count then
      if payload.length ≤ bw.pos then .error SchemaId.malformedIndexes
      else if bw.readNumber.1.lt (.finite 0) then .error SchemaId.malformedIndexes
      else do
        let (msgIndexes, bw') ← readIndexes payload count (i + 1) bw.readNumber.2
        return (bw.readNumber.1 :: msgIndexes, bw')
    else .ok ([], bw) := by
  conv_lhs => unfold readIndexes

theorem readIndexes_done {i : Nat} (h : (Double.ofNat i).lt count = false) (bw : BufferWrapper) :
    readIndexes payload count i bw = .ok ([], bw) := by
  rw [readIndexes_eq, h]
  exact if_neg Bool.false_ne_true

theorem readIndexes_empty {i pos : Nat} (h : (Double.ofNat i).lt count = true) (hbs : payload.drop pos = []) :
    readIndexes payload count i ⟨payload, pos⟩ = .error SchemaId.malformedIndexes := by
  rw [readIndexes_eq, if_pos h]
  exact if_pos (List.drop_eq_nil_iff.mp hbs)

theorem readIndexes_negative {i pos : Nat} (h : (Double.ofNat i).lt count = true) (hbs : payload.drop pos ≠ [])
    (hsign : (number (payload.drop pos)).lt (.finite 0) = true) :
    readIndexes payload count i ⟨payload, pos⟩ = .error SchemaId.malformedIndexes := by
  have hpos : ¬payload.length ≤ pos := fun hle => hbs (List.drop_eq_nil_of_le hle)
  rw [readIndexes_eq, if_pos h, if_neg hpos, BufferWrapper.readNumber_eq]
  exact if_pos hsign

theorem readIndexes_next {i pos : Nat} (h : (Double.ofNat i).lt count = true) (hbs : payload.drop pos ≠ [])
    (hsign : (number (payload.drop pos)).lt (.finite 0) = false) :
    readIndexes payload count i ⟨payload, pos⟩ = (do
      let (msgIndexes, bw') ← readIndexes payload count (i + 1) ⟨payload, pos + codeLength (payload.drop pos)⟩
      return (number (payload.drop pos) :: msgIndexes, bw')) := by
  have hpos : ¬payload.length ≤ pos := fun hle => hbs (List.drop_eq_nil_of_le hle)
  have hsign' : ¬(number (payload.drop pos)).lt (.finite 0) = true := by
    rw [hsign]
    exact Bool.false_ne_true
  rw [readIndexes_eq, if_pos h, if_neg hpos, BufferWrapper.readNumber_eq]
  exact if_neg hsign'

theorem Rounds.head {i m : Nat} (h : Rounds count i (m + 1)) : (Double.ofNat i).lt count = true :=
  h.1 0 (Nat.succ_pos m)

theorem Rounds.tail {i m : Nat} (h : Rounds count i (m + 1)) : Rounds count (i + 1) m := by
  refine ⟨fun j hj => ?_, ?_⟩
  · rw [Nat.add_right_comm, Nat.add_assoc]
    exact h.1 (j + 1) (Nat.succ_lt_succ hj)
  · rw [Nat.add_right_comm, Nat.add_assoc]
    exact h.2

theorem Rounds.cons {i m : Nat} (h : (Double.ofNat i).lt count = true) (hm : Rounds count (i + 1) m) :
    Rounds count i (m + 1) := by
  refine ⟨fun j hj => ?_, ?_⟩
  · cases j with
    | zero => exact h
    | succ j =>
      have := hm.1 j (Nat.lt_of_succ_lt_succ hj)
      rwa [Nat.add_right_comm, Nat.add_assoc] at this
  · have := hm.2
    rwa [Nat.add_right_comm, Nat.add_assoc] at this

theorem ne_nil_of_isVarint {code : Bytes} (h : IsVarint code) : code ≠ [] := by
  rintro rfl
  cases h

theorem readIndexes_code {i pos : Nat} {code rest : Bytes} (h : (Double.ofNat i).lt count = true)
    (hcode : IsVarint code)
    (hbs : payload.drop pos = code ++ rest) (hsign : (number code).lt (.finite 0) = false) :
    payload.drop (pos + code.length) = rest ∧ readIndexes payload count i ⟨payload, pos⟩ = (do
      let (msgIndexes, bw') ← readIndexes payload count (i + 1) ⟨payload, pos + code.length⟩
      return (number code :: msgIndexes, bw')) := by
  have hne : payload.drop pos ≠ [] := by
    rw [hbs]
    exact List.append_ne_nil_of_left_ne_nil (ne_nil_of_isVarint hcode) rest
  have hnumber : number (payload.drop pos) = number code := by rw [hbs, number_append hcode]
  have hlength : codeLength (payload.drop pos) = code.length := by rw [hbs, codeLength_append hcode]
  refine ⟨?_, ?_⟩
  · rw [← List.drop_drop, hbs, List.drop_left]
  · rw [readIndexes_next h hne (hnumber ▸ hsign), hnumber, hlength]

theorem readIndexes_whole {codes : List Bytes} : ∀ {i pos : Nat} {tail : Bytes}, payload.drop pos =
    codes.flatten ++ tail →
    (∀ code ∈ codes, IsVarint code) → Rounds count i codes.length →
    (∀ code ∈ codes, (number code).lt (.finite 0) = false) →
    readIndexes payload count i ⟨payload, pos⟩ = .ok (codes.map number, ⟨payload, pos + codes.flatten.length⟩) := by
  induction codes with
  | nil =>
    intro i pos tail _ _ hrounds _
    exact readIndexes_done hrounds.2 _
  | cons code codes ih =>
    intro i pos tail hbs hcodes hrounds hsign
    rw [List.flatten_cons, List.append_assoc] at hbs
    obtain ⟨hrest, hround⟩ := readIndexes_code hrounds.head (hcodes code List.mem_cons_self) hbs
      (hsign code List.mem_cons_self)
    have hnext := ih hrest (fun c hc => hcodes c (List.mem_cons_of_mem _ hc)) hrounds.tail fun c hc =>
      hsign c (List.mem_cons_of_mem _ hc)
    rw [hround, hnext, List.flatten_cons, List.length_append, List.map_cons, Nat.add_assoc]
    rfl

theorem readIndexes_cut {codes : List Bytes} : ∀ {i pos : Nat} {last : Bytes}, payload.drop pos =
    codes.flatten ++ last →
    (∀ code ∈ codes, IsVarint code) → Rounds count i (codes.length + 1) →
    (∀ code ∈ codes ++ [last], (number code).lt (.finite 0) = false) → last ≠ [] →
    readIndexes payload count i ⟨payload, pos⟩ =
      .ok ((codes ++ [last]).map number, ⟨payload, pos + (codes.flatten.length + codeLength last)⟩) := by
  induction codes with
  | nil =>
    intro i pos last hbs _ hrounds hsign hne
    rw [List.flatten_nil, List.nil_append] at hbs
    have hdone : (Double.ofNat (i + 1)).lt count = false := hrounds.tail.2
    have hround := readIndexes_next hrounds.head (hbs ▸ hne) (hbs ▸ hsign last List.mem_cons_self)
    rw [hround, hbs, readIndexes_done hdone, List.flatten_nil, List.length_nil, Nat.zero_add]
    rfl
  | cons code codes ih =>
    intro i pos last hbs hcodes hrounds hsign hne
    rw [List.flatten_cons, List.append_assoc] at hbs
    obtain ⟨hrest, hround⟩ := readIndexes_code hrounds.head (hcodes code List.mem_cons_self) hbs
      (hsign code List.mem_cons_self)
    have hnext := ih hrest (fun c hc => hcodes c (List.mem_cons_of_mem _ hc)) hrounds.tail
      (fun c hc => hsign c (List.mem_cons_of_mem _ hc)) hne
    rw [hround, hnext, List.flatten_cons, List.length_append, Nat.add_assoc, Nat.add_assoc]
    rfl

/-- The two ways that the loop ends: behind whole codes, or in the middle of the last one. -/
theorem readIndexes_ok {n : Nat} : ∀ {i pos : Nat} {r : List Double × BufferWrapper},
    (payload.drop pos).length ≤ n →
    readIndexes payload count i ⟨payload, pos⟩ = .ok r →
    (∃ (codes : List Bytes) (tail : Bytes), payload.drop pos = codes.flatten ++ tail ∧
      (∀ code ∈ codes, IsVarint code) ∧
      Rounds count i codes.length ∧ ∀ code ∈ codes, (number code).lt (.finite 0) = false) ∨
    ∃ (codes : List Bytes) (last : Bytes), payload.drop pos = codes.flatten ++ last ∧
      (∀ code ∈ codes, IsVarint code) ∧
      Rounds count i (codes.length + 1) ∧ (∀ code ∈ codes ++ [last], (number code).lt (.finite 0) = false) ∧
        last ≠ [] ∧
      last.length < codeLength last := by
  induction n with
  | zero =>
    intro i pos r hlen h
    have hbs : payload.drop pos = [] := List.eq_nil_of_length_eq_zero (Nat.le_zero.mp hlen)
    cases hlt : (Double.ofNat i).lt count with
    | true =>
      rw [readIndexes_empty hlt hbs] at h
      cases h
    | false =>
      exact .inl ⟨[], [], hbs, fun _ hc => absurd hc List.not_mem_nil,
        ⟨fun _ hj => absurd hj (Nat.not_lt_zero _), hlt⟩,
        fun _ hc => absurd hc List.not_mem_nil⟩
  | succ n ih =>
    intro i pos r hlen h
    cases hlt : (Double.ofNat i).lt count with
    | false =>
      exact .inl ⟨[], payload.drop pos, rfl, fun _ hc => absurd hc List.not_mem_nil,
        ⟨fun _ hj => absurd hj (Nat.not_lt_zero _), hlt⟩, fun _ hc => absurd hc List.not_mem_nil⟩
    | true =>
      by_cases hbs : payload.drop pos = []
      · rw [readIndexes_empty hlt hbs] at h
        cases h
      cases hsign : (number (payload.drop pos)).lt (.finite 0) with
      | true =>
        rw [readIndexes_negative hlt hbs hsign] at h
        cases h
      | false =>
        rw [readIndexes_next hlt hbs hsign] at h
        cases hrest : readIndexes payload count (i + 1) ⟨payload, pos + codeLength (payload.drop pos)⟩ with
        | error e =>
          rw [hrest] at h
          cases h
        | ok r' =>
          have hdrop : payload.drop (pos + codeLength (payload.drop pos)) = (payload.drop pos).drop
            (codeLength (payload.drop pos)) :=
            List.drop_drop.symm
          by_cases hwhole : codeLength (payload.drop pos) ≤ (payload.drop pos).length
          · -- a whole code in front of what the rest of the loop reads
            have hcode := isVarint_take hwhole
            have hsplit := List.take_append_drop (codeLength (payload.drop pos)) (payload.drop pos)
            have hnumber : number ((payload.drop pos).take (codeLength (payload.drop pos))) = number
              (payload.drop pos) := by
              rw [← number_append hcode, hsplit]
            have hshort : (payload.drop (pos + codeLength (payload.drop pos))).length ≤ n := by
              have := codeLength_pos (payload.drop pos)
              rw [hdrop, List.length_drop]
              omega
            rw [← hnumber] at hsign
            rcases ih hshort hrest with ⟨codes, tail, hbs', hcodes, hrounds, hsigns⟩ | ⟨codes, last, hbs', hcodes,
              hrounds, hsigns, hlast⟩
            · refine .inl ⟨_ :: codes, tail, ?_, List.forall_mem_cons.mpr ⟨hcode, hcodes⟩, hrounds.cons hlt,
                List.forall_mem_cons.mpr ⟨hsign, hsigns⟩⟩
              rw [List.flatten_cons, List.append_assoc, ← hbs', hdrop, hsplit]
            · refine .inr ⟨_ :: codes, last, ?_, List.forall_mem_cons.mpr ⟨hcode, hcodes⟩, hrounds.cons hlt,
                List.forall_mem_cons.mpr ⟨hsign, hsigns⟩, hlast⟩
              rw [List.flatten_cons, List.append_assoc, ← hbs', hdrop, hsplit]
          · -- the code is cut off, so that nothing is left to read
            have hcut := Nat.lt_of_not_le hwhole
            have hempty : payload.drop (pos + codeLength (payload.drop pos)) = [] := by
              rw [hdrop]
              exact List.drop_eq_nil_of_le (Nat.le_of_lt hcut)
            have hdone : (Double.ofNat (i + 1)).lt count = false := by
              by_contra hmore
              rw [readIndexes_empty (Bool.eq_true_of_not_eq_false hmore) hempty] at hrest
              cases hrest
            refine .inr ⟨[], payload.drop pos, rfl, fun _ hc => absurd hc List.not_mem_nil, ?_, fun code hc =>
              ?_, hbs, hcut⟩
            · exact Rounds.cons hlt ⟨fun _ hj => absurd hj (Nat.not_lt_zero _), hdone⟩
            · rw [List.mem_singleton.mp hc]
              exact hsign

end

/-! ## The count -/

theorem eq_zero_of_even_half (b : UInt8) : b &&& 0x80 = 0 →
    (if (b &&& 0x7f).toNat &&& 1 ≠ 0 then -(((b &&& 0x7f).toNat >>> 1 : Nat) :
      Int) - 1 else (((b &&& 0x7f).toNat >>> 1 : Nat) : Int)) = 0 →
    b = 0 := by
  revert b
  apply forall_byte
  decide +kernel

theorem eq_zero_of_number {b : UInt8} (h : IsVarint [b]) (hzero : number [b] = .finite 0) : b = 0 := by
  have hlast : b &&& 0x80 = 0 := by
    by_contra hmore
    rw [IsVarint, codeLength, if_pos hmore] at h
    cases h
  have hloop : ¬(b &&& 0x80 ≠ 0 ∧ 0 + 7 < 28) := fun hmore => hmore.1 hlast
  rw [number, intLoop_last hloop] at hzero
  dsimp only at hzero
  rw [if_neg (not_not.mpr hlast), Nat.zero_or, Nat.shiftLeft_zero] at hzero
  have hint := Double.finite.inj hzero
  exact eq_zero_of_even_half b hlast (by exact_mod_cast hint)

theorem count_of_lt {count : Double} (h : (Double.ofNat 0).lt count = true) : count ≠ .finite 0 ∧
    count.lt (.finite 0) = false := by
  rw [Double.ofNat_eq (by decide)] at h
  cases count with
  | finite x =>
    have hx : (0 : ℚ) < x := by simpa [Double.lt] using h
    refine ⟨fun he => hx.ne' (Double.finite.inj he), ?_⟩
    simp [Double.lt, hx.le]
  | infinite negative =>
    have hpos : negative = false := by simpa [Double.lt] using h
    exact ⟨fun he => (by cases he), hpos⟩
  | nan => cases h

theorem count_of_not_lt {count : Double} (h : (Double.ofNat 0).lt count = false) :
    count = .finite 0 ∨ count.lt (.finite 0) = true ∨ count = .nan := by
  rw [Double.ofNat_eq (by decide)] at h
  cases count with
  | finite x =>
    have hx : x ≤ 0 := by simpa [Double.lt] using h
    rcases hx.eq_or_lt with he | hlt
    · exact .inl (congrArg _ he)
    · exact .inr (.inl (by simpa [Double.lt] using hlt))
  | infinite negative =>
    have hneg : negative = true := by simpa [Double.lt] using h
    exact .inr (.inl hneg)
  | nan => exact .inr (.inr rfl)

section

variable {bs : Bytes}

theorem readMessageIndexes_zero (h : number bs = .finite 0) : readMessageIndexes bs = .ok (1, [.finite 0]) := by
  rw [readMessageIndexes, BufferWrapper.readNumber_eq, List.drop_zero]
  exact if_pos h

theorem readMessageIndexes_negative (h : (number bs).lt (.finite 0) = true) :
    readMessageIndexes bs = .error SchemaId.malformedIndexes := by
  have hne : number bs ≠ .finite 0 := by
    intro he
    rw [he] at h
    simp [Double.lt] at h
  rw [readMessageIndexes, BufferWrapper.readNumber_eq, List.drop_zero]
  dsimp only
  rw [if_neg hne, if_pos h]

theorem readMessageIndexes_loop (hne : number bs ≠ .finite 0) (hsign : (number bs).lt (.finite 0) = false) :
    readMessageIndexes bs = (do
      let (msgIndexes, bw) ← readIndexes bs (number bs) 0 ⟨bs, codeLength bs⟩
      return (bw.pos, msgIndexes)) := by
  rw [readMessageIndexes, BufferWrapper.readNumber_eq, List.drop_zero, Nat.zero_add]
  dsimp only
  rw [if_neg hne, hsign, if_neg Bool.false_ne_true]

theorem readMessageIndexes_of_readIndexes {count rest : Bytes} (hbs : bs = count ++ rest) (hcount : IsVarint count)
    (hlt : (Double.ofNat 0).lt (number count) = true) :
    bs.drop count.length = rest ∧ readMessageIndexes bs = (do
      let (msgIndexes, bw) ← readIndexes bs (number count) 0 ⟨bs, count.length⟩
      return (bw.pos, msgIndexes)) := by
  have hnumber : number bs = number count := by rw [hbs, number_append hcount]
  have hlength : codeLength bs = count.length := by rw [hbs, codeLength_append hcount]
  obtain ⟨hne, hsign⟩ := count_of_lt hlt
  refine ⟨by rw [hbs, List.drop_left], ?_⟩
  rw [readMessageIndexes_loop (hnumber ▸ hne) (hnumber ▸ hsign), hnumber, hlength]

theorem IndexesIn.le_length {n : Nat} {indexes : List Double} (h : IndexesIn bs n indexes) : n ≤ bs.length := by
  obtain ⟨count, codes, tail, hbs, hn, -⟩ := h
  rw [hbs, hn, List.length_append, List.length_append]
  omega

theorem FlawedIndexes.not_indexesIn (h : FlawedIndexes bs) :
    ∃ n indexes, readMessageIndexes bs = .ok (n, indexes) ∧ ¬IndexesIn bs n indexes := by
  cases h with
  | zero hzero hhead =>
    refine ⟨1, _, readMessageIndexes_zero hzero, ?_⟩
    rintro ⟨count, codes, tail, hbs, hn, hcount, -⟩
    have hpos := List.length_pos_iff.mpr (ne_nil_of_isVarint hcount)
    obtain ⟨b, rfl⟩ := List.length_eq_one_iff.mp (show count.length = 1 by omega)
    rw [hbs, number_append hcount] at hzero
    rw [hbs, eq_zero_of_number hcount hzero] at hhead
    exact hhead rfl
  | nan hnan =>
    have hdone : (Double.ofNat 0).lt (number bs) = false := by
      rw [hnan, Double.ofNat_eq (by decide)]
      rfl
    have hread : readMessageIndexes bs = .ok (codeLength bs, []) := by
      rw [readMessageIndexes_loop (by rw [hnan]; exact fun he => by cases he) (by rw [hnan]; rfl),
        readIndexes_done hdone]
      rfl
    refine ⟨_, _, hread, ?_⟩
    rintro ⟨count, codes, tail, -, -, -, -, -, -, hne, -⟩
    exact hne rfl
  | @cut count last codes hbs hcount hcodes hrounds hsign hne hcut =>
    obtain ⟨hdrop, hread⟩ := readMessageIndexes_of_readIndexes hbs hcount hrounds.head
    rw [readIndexes_cut hdrop hcodes hrounds hsign hne] at hread
    refine ⟨_, _, hread, fun hin => ?_⟩
    have hle := hin.le_length
    rw [hbs, List.length_append, List.length_append] at hle
    dsimp only at hle
    omega
  | @notInteger count tail codes hbs hcount hcodes hrounds hsign code hmem hnot =>
    have hlt : (Double.ofNat 0).lt (number count) = true := by
      cases codes with
      | nil => cases hmem
      | cons code codes => exact hrounds.head
    obtain ⟨hdrop, hread⟩ := readMessageIndexes_of_readIndexes hbs hcount hlt
    rw [readIndexes_whole hdrop hcodes hrounds hsign] at hread
    refine ⟨_, _, hread, ?_⟩
    rintro ⟨_, _, _, -, -, -, -, -, -, -, hnat⟩
    obtain ⟨k, hk⟩ := hnat _ (List.mem_map_of_mem hmem)
    exact hnot k hk

theorem indexesIn_of_not_flawed {n : Nat} {indexes : List Double} (hread : readMessageIndexes bs = .ok (n, indexes))
    (h : ¬FlawedIndexes bs) : IndexesIn bs n indexes := by
  cases hlt : (Double.ofNat 0).lt (number bs) with
  | false =>
    rcases count_of_not_lt hlt with hzero | hneg | hnan
    · rw [readMessageIndexes_zero hzero] at hread
      obtain ⟨rfl, rfl⟩ := Prod.mk.inj (Except.ok.inj hread)
      cases bs with
      | nil => exact absurd (.zero hzero (by decide)) h
      | cons b tail =>
        by_cases hb : b = 0
        · have hcount : IsVarint [0] := by decide
          rw [hb] at hzero ⊢
          have hnumber : number [0] = .finite 0 := by rw [← number_append hcount tail, List.singleton_append, hzero]
          rw [hb] at hlt
          refine ⟨[0], [], tail, rfl, rfl, hcount, fun _ hc => absurd hc List.not_mem_nil, ?_,
            (if_pos hnumber).symm,
            List.cons_ne_nil _ _, fun idx hidx => ⟨0, ?_⟩⟩
          · refine ⟨fun _ hj => absurd hj (Nat.not_lt_zero _), ?_⟩
            rw [hnumber, ← hzero]
            exact hlt
          · rw [List.mem_singleton.mp hidx, Nat.cast_zero]
        · exact absurd (.zero hzero fun hhead => hb (Option.some.inj hhead)) h
    · rw [readMessageIndexes_negative hneg] at hread
      cases hread
    · exact absurd (.nan hnan) h
  | true =>
    obtain ⟨hne, hsign⟩ := count_of_lt hlt
    have hloop := readMessageIndexes_loop hne hsign
    by_cases hwhole : codeLength bs ≤ bs.length
    · have hcount := isVarint_take hwhole
      have hsplit := List.take_append_drop (codeLength bs) bs
      have hnumber : number (bs.take (codeLength bs)) = number bs := by rw [← number_append hcount, hsplit]
      cases hrest : readIndexes bs (number bs) 0 ⟨bs, codeLength bs⟩ with
      | error e =>
        rw [hloop, hrest] at hread
        cases hread
      | ok r =>
        rcases readIndexes_ok (Nat.le_refl _) hrest with
          ⟨codes, tail, hbs, hcodes, hrounds, hsigns⟩ | ⟨codes, last, hbs, hcodes, hrounds, hsigns, hlast, hcut⟩
        · have hbs' : bs = bs.take (codeLength bs) ++ (codes.flatten ++ tail) := by rw [← hbs, hsplit]
          rw [hloop, readIndexes_whole hbs hcodes hrounds hsigns] at hread
          obtain ⟨rfl, rfl⟩ := Prod.mk.inj (Except.ok.inj hread)
          refine ⟨_, codes, tail, hbs', ?_, hcount, hcodes, hnumber ▸ hrounds, ?_, ?_, fun idx hidx => ?_⟩
          · rw [List.length_take, Nat.min_eq_left hwhole]
          · rw [hnumber, if_neg hne]
          · rintro hnil
            rw [List.map_eq_nil_iff.mp hnil] at hrounds
            have hdone : (Double.ofNat 0).lt (number bs) = false := hrounds.2
            rw [hdone] at hlt
            cases hlt
          · obtain ⟨code, hmem, rfl⟩ := List.mem_map.mp hidx
            by_contra hnot
            exact h (.notInteger hbs' hcount hcodes (hnumber ▸ hrounds) hsigns hmem fun k hk => hnot ⟨k, hk⟩)
        · have hbs' : bs = bs.take (codeLength bs) ++ (codes.flatten ++ last) := by rw [← hbs, hsplit]
          exact absurd (.cut hbs' hcount hcodes (hnumber ▸ hrounds) hsigns hlast hcut) h
    · have hempty : bs.drop (codeLength bs) = [] := List.drop_eq_nil_of_le (Nat.le_of_lt (Nat.lt_of_not_le hwhole))
      rw [hloop, readIndexes_empty hlt hempty] at hread
      cases hread

end

/-! ## The header -/

theorem HeaderIn.length_eq {header header' rest rest' : Bytes} {decoded decoded' : DecodedId}
    (h : HeaderIn header decoded)
    (h' : HeaderIn header' decoded') (heq : header ++ rest = header' ++ rest') : header.length =
      header'.length := by
  rcases h with ⟨bytes, hlen, rfl, -⟩ | ⟨bytes, hlen, rfl, -⟩ <;> rcases h' with ⟨bytes', hlen', rfl, -⟩ | ⟨bytes',
    hlen', rfl, -⟩
  · rw [List.length_cons, List.length_cons, hlen, hlen']
  · exact absurd (List.cons.inj heq).1 (by decide)
  · exact absurd (List.cons.inj heq).1 (by decide)
  · rw [List.length_cons, List.length_cons, hlen, hlen']

theorem fromIndexBytes_iff {schemaType : String} {header : Bytes} {decoded : DecodedId}
    (hheader : HeaderIn header decoded)
    (rest : Bytes) :
    ((∃ e, fromIndexBytes schemaType decoded (header ++ rest) header.length = .error e) ∨
      ∃ d n, fromIndexBytes schemaType decoded (header ++ rest) header.length = .ok (d, n) ∧
        n ≤ (header ++ rest).length ∧
        IdIn schemaType (header ++ rest) d n) ↔ ¬(schemaType = "PROTOBUF" ∧ FlawedIndexes rest) := by
  rw [fromIndexBytes, List.drop_left]
  by_cases hproto : schemaType = "PROTOBUF"
  · rw [if_pos hproto]
    refine ⟨?_, fun h => ?_⟩
    · rintro h ⟨-, hflawed⟩
      obtain ⟨n, indexes, hread, hnot⟩ := hflawed.not_indexesIn
      rw [hread] at h
      rcases h with ⟨e, he⟩ | ⟨d, n', hok, -, hin⟩
      · cases he
      · obtain ⟨rfl, rfl⟩ := Prod.mk.inj (Except.ok.inj hok)
        obtain ⟨header', rest', heq, hheader', hindexes⟩ := hin
        rw [if_pos hproto] at hindexes
        obtain ⟨m, indexes', hm, hindexes', hin⟩ := hindexes
        obtain ⟨rfl, rfl⟩ := List.append_inj heq (hheader.length_eq hheader' heq)
        obtain rfl : indexes = indexes' := Option.some.inj hindexes'
        obtain rfl : n = m := Nat.add_left_cancel hm
        exact hnot hin
    · cases hread : readMessageIndexes rest with
      | error e => exact .inl ⟨e, rfl⟩
      | ok r =>
        obtain ⟨n, indexes⟩ := r
        have hin := indexesIn_of_not_flawed hread fun hflawed => h ⟨hproto, hflawed⟩
        refine .inr ⟨_, _, rfl, ?_, header, rest, rfl, hheader, ?_⟩
        · rw [List.length_append]
          exact Nat.add_le_add_left hin.le_length _
        · rw [if_pos hproto]
          exact ⟨n, indexes, rfl, rfl, hin⟩
  · rw [if_neg hproto]
    refine ⟨fun _ h => hproto h.1, fun _ => .inr ⟨_, _, rfl, ?_, header, rest, rfl, hheader, ?_⟩⟩
    · rw [List.length_append]
      exact Nat.le_add_right _ _
    · rw [if_neg hproto]

section

variable {schemaType : String} {bs : Bytes}

theorem fromBytes_id (h : 4 ≤ bs.length) : fromBytes schemaType (0 :: bs) =
    fromIndexBytes schemaType { id := some (signed 4 (natBE (bs.take 4))) } (0 :: bs) 5 := by
  have hread : readInt32BE (bs.take 4) = .ok (signed 4 (natBE (bs.take 4))) := by
    rw [readInt32BE, List.length_take, Nat.min_eq_left h, if_pos (Nat.le_refl 4), List.take_take, Nat.min_self]
  rw [fromBytes, List.take_succ_cons, List.take_zero, MAGIC_BYTE_V0, if_pos rfl, List.take_succ_cons,
    List.drop_succ_cons, List.drop_zero, hread]
  rfl

theorem fromBytes_short (h : bs.length < 4) : ∃ e, fromBytes schemaType (0 :: bs) = .error e := by
  have hread : readInt32BE (bs.take 4) = .error (.error "Attempt to access memory outside buffer bounds") := by
    rw [readInt32BE, if_neg (by rw [List.length_take]; omega)]
  refine ⟨.error "Attempt to access memory outside buffer bounds", ?_⟩
  rw [fromBytes, List.take_succ_cons, List.take_zero, MAGIC_BYTE_V0, if_pos rfl, List.take_succ_cons,
    List.drop_succ_cons, List.drop_zero, hread]
  rfl

theorem fromBytes_guid : fromBytes schemaType (1 :: bs) =
    fromIndexBytes schemaType { guid := some (stringifyUuid (bs.take 16)) } (1 :: bs) 17 := by
  rw [fromBytes, List.take_succ_cons, List.take_zero, MAGIC_BYTE_V0, MAGIC_BYTE_V1, if_neg (by decide), if_pos rfl,
    List.take_succ_cons,
    List.drop_succ_cons, List.drop_zero]

theorem fromBytes_unknown {payload : Bytes} (h0 : payload.head? ≠ some 0) (h1 : payload.head? ≠ some 1) :
    fromBytes schemaType payload = .error (.serialization "Unknown magic byte") := by
  cases payload with
  | nil => rfl
  | cons b bs =>
    have hne0 : [b] ≠ MAGIC_BYTE_V0 := fun he => h0 (congrArg _ (List.cons.inj he).1)
    have hne1 : [b] ≠ MAGIC_BYTE_V1 := fun he => h1 (congrArg _ (List.cons.inj he).1)
    rw [fromBytes, List.take_succ_cons, List.take_zero, if_neg hne0, if_neg hne1]

/-- The bytes that are missing in a guid are counted as read. -/
theorem fromBytes_guid_short (h : bs.length < 16) : ∃ d n, fromBytes schemaType (1 :: bs) = .ok (d, n) ∧
    (1 :: bs).length < n := by
  rw [fromBytes_guid, fromIndexBytes]
  have hdrop : (1 :: bs).drop 17 = [] := List.drop_eq_nil_of_le (by rw [List.length_cons]; omega)
  have hzero : number [] = .finite 0 := by decide +kernel
  by_cases hproto : schemaType = "PROTOBUF"
  · rw [if_pos hproto, hdrop, readMessageIndexes_zero hzero]
    exact ⟨_, _, rfl, by rw [List.length_cons]; omega⟩
  · rw [if_neg hproto]
    exact ⟨_, _, rfl, by rw [List.length_cons]; omega⟩

end

/-- An error, or an id and indexes out of whole encodings: exactly where nothing is read past the end or
wrongly taken for an index. -/
theorem fromBytes_iff (schemaType : String) (payload : Bytes) :
    ((∃ e, fromBytes schemaType payload = .error e) ∨
      ∃ decoded n, fromBytes schemaType payload = .ok (decoded, n) ∧ n ≤ payload.length ∧
        IdIn schemaType payload decoded n) ↔
      ¬Flawed schemaType payload := by
  by_cases h0 : payload.head? = some 0
  · cases payload with
    | nil => cases h0
    | cons b bs =>
      obtain rfl : b = 0 := Option.some.inj h0
      have hflawed : Flawed schemaType (0 :: bs) ↔ schemaType = "PROTOBUF" ∧ 4 ≤ bs.length ∧ FlawedIndexes
        (bs.drop 4) := by
        simp [Flawed]
      rw [hflawed]
      by_cases hlen : 4 ≤ bs.length
      · have hheader : HeaderIn (0 :: bs.take 4) { id := some (signed 4 (natBE (bs.take 4))) } :=
          .inl ⟨bs.take 4, by rw [List.length_take, Nat.min_eq_left hlen], rfl, rfl⟩
        have hiff := @fromIndexBytes_iff schemaType _ _ hheader (bs.drop 4)
        rw [List.cons_append, List.take_append_drop, List.length_cons, List.length_take,
          Nat.min_eq_left hlen] at hiff
        rw [fromBytes_id hlen, hiff]
        simp only [hlen, true_and]
      · refine ⟨fun _ h => hlen h.2.1, fun _ => .inl (fromBytes_short (Nat.lt_of_not_le hlen))⟩
  · by_cases h1 : payload.head? = some 1
    · cases payload with
      | nil => cases h1
      | cons b bs =>
        obtain rfl : b = 1 := Option.some.inj h1
        have hflawed : Flawed schemaType (1 :: bs) ↔ bs.length < 16 ∨ schemaType = "PROTOBUF" ∧ FlawedIndexes
          (bs.drop 16) := by
          rw [Flawed, List.length_cons, Nat.succ_lt_succ_iff]
          simp
        rw [hflawed]
        by_cases hlen : bs.length < 16
        · obtain ⟨d, n, hok, hlt⟩ : ∃ d n, fromBytes schemaType (1 :: bs) = .ok (d, n) ∧ (1 :: bs).length < n :=
            fromBytes_guid_short hlen
          refine ⟨?_, fun h => absurd (.inl hlen) h⟩
          rintro (⟨e, he⟩ | ⟨d', n', hok', hle, -⟩)
          · rw [hok] at he
            cases he
          · rw [hok] at hok'
            obtain ⟨-, rfl⟩ := Prod.mk.inj (Except.ok.inj hok')
            exact absurd hle (Nat.not_le_of_lt hlt)
        · have hlen' := Nat.le_of_not_lt hlen
          have hheader : HeaderIn (1 :: bs.take 16) { guid := some (stringifyUuid (bs.take 16)) } :=
            .inr ⟨bs.take 16, by rw [List.length_take, Nat.min_eq_left hlen'], rfl, rfl⟩
          have hiff := @fromIndexBytes_iff schemaType _ _ hheader (bs.drop 16)
          rw [List.cons_append, List.take_append_drop, List.length_cons, List.length_take,
            Nat.min_eq_left hlen'] at hiff
          rw [fromBytes_guid, hiff]
          simp only [hlen, false_or]
    · refine ⟨fun _ h => ?_, fun _ => .inl ⟨_, fromBytes_unknown h0 h1⟩⟩
      rcases h with h | ⟨-, h | h⟩
      · exact h1 h.1
      · exact h0 h.1
      · exact h1 h.1

/-- No byte for the indexes behind the id, and still one is counted. -/
theorem fromBytes_past_the_end : ¬((∃ e, fromBytes "PROTOBUF" [0, 0, 0, 0, 1] = .error e) ∨
    ∃ decoded n, fromBytes "PROTOBUF" [0, 0, 0, 0, 1] = .ok (decoded, n) ∧ n ≤ [0, 0, 0, 0, (1 : UInt8)].length ∧
      IdIn "PROTOBUF" [0, 0, 0, 0, 1] decoded n) := by
  have hread : ∃ decoded, fromBytes "PROTOBUF" [0, 0, 0, 0, 1] = .ok (decoded, 6) := by
    have hzero : number [] = .finite 0 := by decide +kernel
    rw [fromBytes_id (by decide), fromIndexBytes, if_pos rfl]
    exact ⟨_, by rw [show [0, 0, 0, 0, (1 : UInt8)].drop 5 = [] from rfl, readMessageIndexes_zero hzero]; rfl⟩
  obtain ⟨decoded, hread⟩ := hread
  rintro (⟨e, he⟩ | ⟨decoded', n, hok, hle, -⟩)
  · rw [hread] at he
    cases he
  · rw [hread] at hok
    obtain ⟨-, rfl⟩ := Prod.mk.inj (Except.ok.inj hok)
    exact absurd hle (by decide)

end DecodedId

end ConfluentKafka
