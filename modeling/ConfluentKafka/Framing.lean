import ConfluentKafka.SchemaId
import Mathlib.Data.List.TakeWhile

/-!
# Frames are read back as they were written

The bytes of a schema id are read back to the same id, guid and message indexes, and the
number of bytes read is exactly the length of the frame, whatever payload follows.
-/

namespace ConfluentKafka

/-! ## Message indexes -/

def indexCode (xs : List Int) : Bytes := xs.flatMap fun x => varint (zigzag x)

theorem indexCode_cons (x : Int) (xs : List Int) : indexCode (x :: xs) = varint (zigzag x) ++ indexCode xs := rfl

theorem writeAll_cursor : ∀ (xs : List Int) (done gap rest : Bytes), gap.length = (indexCode xs).length →
    xs.foldl BufferWrapper.writeVarInt (.cursor done (gap ++ rest)) = .cursor (done ++ indexCode xs) rest
  | [], done, gap, rest, h => by
    obtain rfl : gap = [] := by simpa [indexCode] using h
    simp [indexCode]
  | x :: xs, done, gap, rest, h => by
    rw [indexCode_cons, List.length_append] at h
    have hsplit : gap = gap.take (varint (zigzag x)).length ++ gap.drop (varint (zigzag x)).length :=
      (List.take_append_drop _ _).symm
    rw [hsplit, List.append_assoc, List.foldl_cons, BufferWrapper.writeVarInt_eq,
      BufferWrapper.writeInt_cursor _ _ _ _ (by simp; omega), writeAll_cursor xs _ _ _ (by simp; omega),
        indexCode_cons,
      List.append_assoc]

/-- The code of every index fits the ten bytes that the buffer has for it. -/
theorem indexCode_length_le {xs : List Int} (h : ∀ x ∈ xs, 0 ≤ x ∧ x < 2 ^ 51) :
    (indexCode xs).length ≤ xs.length * 8 := by
  induction xs with
  | nil => simp [indexCode]
  | cons x xs ih =>
    have hx := h x List.mem_cons_self
    have hlen : (varint (zigzag x)).length ≤ 7 + 1 := by
      apply varint_length_le
      unfold zigzag
      rw [if_pos hx.1]
      omega
    have := ih fun y hy => h y (List.mem_cons_of_mem _ hy)
    rw [indexCode_cons, List.length_append, List.length_cons]
    omega

theorem lt_pow_self (n : Nat) : 2 * n < 128 ^ (n + 1) := by
  induction n with
  | zero => decide
  | succ n ih =>
    rw [Nat.pow_succ]
    omega

theorem writeMessageIndexes_eq {xs : List Int} (hx : ∀ x ∈ xs, 0 ≤ x ∧ x < 2 ^ 51) (h0 : xs ≠ [0]) :
    SchemaId.writeMessageIndexes xs = varint (zigzag xs.length) ++ indexCode xs := by
  have hcount : (varint (zigzag xs.length)).length ≤ xs.length + 1 := by
    apply varint_length_le
    have := lt_pow_self xs.length
    simpa [zigzag] using this
  have hcode := indexCode_length_le hx
  unfold SchemaId.writeMessageIndexes
  rw [if_neg h0]
  simp only
  obtain ⟨gap, rest, hgap, hrest⟩ : ∃ gap rest : Bytes,
      gap.length = (indexCode (↑xs.length :: xs)).length ∧
        List.replicate ((1 + xs.length) * MAX_VARINT_LEN_64) 0 = gap ++ rest := by
    refine ⟨_, _, ?_, (List.take_append_drop (indexCode (↑xs.length :: xs)).length _).symm⟩
    rw [List.length_take, List.length_replicate, indexCode_cons, List.length_append, MAX_VARINT_LEN_64]
    omega
  have hw := writeAll_cursor (↑xs.length :: xs) [] gap rest hgap
  rw [← hrest] at hw
  rw [show (⟨List.replicate ((1 + xs.length) * MAX_VARINT_LEN_64) 0, 0⟩ : BufferWrapper) =
    .cursor [] (List.replicate ((1 + xs.length) * MAX_VARINT_LEN_64) 0) from rfl, ← List.foldl_cons, hw]
  exact List.take_left

theorem readIndexes_cursor (payload : Bytes) : ∀ (xs : List Int) (done rest : Bytes), (∀ x ∈ xs, 0 ≤ x) →
    payload = done ++ (indexCode xs ++ rest) →
    SchemaId.readIndexes payload xs.length (.cursor done (indexCode xs ++ rest)) =
      .ok (xs, .cursor (done ++ indexCode xs) rest)
  | [], done, rest, _, _ => by simp [SchemaId.readIndexes, indexCode]
  | x :: xs, done, rest, hx, hp => by
    have hpos := varint_length_pos (zigzag x)
    rw [indexCode_cons, List.append_assoc] at hp ⊢
    have ih := readIndexes_cursor payload xs (done ++ varint (zigzag x)) rest
      (fun y hy => hx y (List.mem_cons_of_mem _ hy)) (by rw [hp, List.append_assoc])
    have hlt : ¬payload.length ≤ (BufferWrapper.cursor done (varint (zigzag x) ++ (indexCode xs ++ rest))).pos := by
      simp only [hp, BufferWrapper.cursor, List.length_append]
      omega
    have hx0 : ¬x < 0 := Int.not_lt.mpr (hx x List.mem_cons_self)
    rw [List.length_cons, SchemaId.readIndexes, if_neg hlt, BufferWrapper.readVarInt_cursor]
    simp only [hx0, if_false, ih]
    simp [bind, Except.bind, pure, Except.pure]

theorem readMessageIndexes_write {xs : List Int} (hne : xs ≠ []) (hx : ∀ x ∈ xs, 0 ≤ x ∧ x < 2 ^ 51)
    (rest : Bytes) :
    SchemaId.readMessageIndexes (SchemaId.writeMessageIndexes xs ++ rest) =
      .ok ((SchemaId.writeMessageIndexes xs).length, xs) := by
  by_cases h0 : xs = [0]
  · subst h0
    have hz : varint (zigzag 0) = [0] := by
      rw [varint_of_lt (by decide)]
      rfl
    have hread := BufferWrapper.readVarInt_cursor 0 [] rest
    rw [hz] at hread
    unfold SchemaId.readMessageIndexes SchemaId.writeMessageIndexes
    rw [if_pos rfl, show (⟨[0] ++ rest, 0⟩ : BufferWrapper) = .cursor [] ([0] ++ rest) from rfl, hread]
    rfl
  · have hlen : 0 < xs.length := List.length_pos_iff.mpr hne
    rw [writeMessageIndexes_eq hx h0, List.append_assoc]
    unfold SchemaId.readMessageIndexes
    rw [show (⟨varint (zigzag xs.length) ++ (indexCode xs ++ rest), 0⟩ : BufferWrapper) =
      .cursor [] (varint (zigzag xs.length) ++ (indexCode xs ++ rest)) from rfl, BufferWrapper.readVarInt_cursor]
    have hread := readIndexes_cursor (varint (zigzag xs.length) ++ (indexCode xs ++ rest)) xs
      ([] ++ varint (zigzag xs.length)) rest (fun x h => (hx x h).1) rfl
    simp only [Int.toNat_natCast, hread]
    rw [if_neg (by omega), if_neg (by omega)]
    simp [bind, Except.bind, pure, Except.pure, BufferWrapper.cursor]

/-! ## UUIDs -/

def IsHex (s : List Char) : Prop := ∀ c ∈ s, c ∈ "0123456789abcdef".toList

/-- A UUID in its canonical form: 8, 4, 4, 4 and 12 lower-case digits. -/
def Canonical (guid : String) : Prop :=
  ∃ a b c d e : List Char, (IsHex a ∧ a.length = 8) ∧ (IsHex b ∧ b.length = 4) ∧ (IsHex c ∧ c.length = 4) ∧
    (IsHex d ∧ d.length = 4) ∧ (IsHex e ∧ e.length = 12) ∧
    guid.toList = a ++ '-' :: (b ++ '-' :: (c ++ '-' :: (d ++ '-' :: e)))

def digitsValue (ds : List Nat) : Nat := ds.foldl (fun v d => v * 16 + d) 0

theorem IsHex.digits {s : List Char} (h : IsHex s) :
    ∃ ds : List Nat, (∀ d ∈ ds, d < 16) ∧ s = ds.map Nat.digitChar := by
  induction s with
  | nil => exact ⟨[], by simp, rfl⟩
  | cons c s ih =>
    obtain ⟨ds, hds, rfl⟩ := ih fun x hx => h x (List.mem_cons_of_mem _ hx)
    have hc : ∃ d < 16, c = Nat.digitChar d := by
      have hmem := h c List.mem_cons_self
      rw [show "0123456789abcdef".toList = (List.range 16).map Nat.digitChar from rfl] at hmem
      obtain ⟨d, hd, rfl⟩ := List.mem_map.mp hmem
      exact ⟨d, List.mem_range.mp hd, rfl⟩
    obtain ⟨d, hd, rfl⟩ := hc
    refine ⟨d :: ds, ?_, rfl⟩
    simpa using ⟨hd, hds⟩

theorem hexValue_digitChar {d : Nat} (h : d < 16) : hexValue (Nat.digitChar d) = some d := by
  have := (by decide +kernel : ∀ i : Fin 16, hexValue (Nat.digitChar i) = some i.val)
  exact this ⟨d, h⟩

theorem parseHex_digits {ds : List Nat} (h : ∀ d ∈ ds, d < 16) : parseHex (ds.map Nat.digitChar) =
    digitsValue ds := by
  have hmap : (ds.map Nat.digitChar).map hexValue = ds.map some := by
    rw [List.map_map]
    apply List.map_congr_left
    intro d hd
    exact hexValue_digitChar (h d hd)
  have hall : (ds.map some).takeWhile Option.isSome = ds.map some :=
    List.takeWhile_eq_self_iff.mpr (by simp)
  unfold parseHex digitsValue
  rw [hmap, hall, List.foldl_map]
  rfl

theorem bytesBE_succ (w n : Nat) : bytesBE (w + 1) n = bytesBE w (n / 256) ++ [UInt8.ofNat n] := by
  simp [bytesBE, bytesLE]

theorem digitsValue_append (ds : List Nat) (x y : Nat) :
    digitsValue (ds ++ [x, y]) = digitsValue ds * 256 + (16 * x + y) := by
  simp only [digitsValue, List.foldl_append, List.foldl_cons, List.foldl_nil]
  ring

theorem byteToHex_pair {x y : Nat} (hx : x < 16) (hy : y < 16) (n : Nat) :
    byteToHex (UInt8.ofNat (n * 256 + (16 * x + y))) = [Nat.digitChar x, Nat.digitChar y] := by
  have hb : (UInt8.ofNat (n * 256 + (16 * x + y))).toNat = 16 * x + y := by
    rw [UInt8.toNat_ofNat']
    omega
  rw [byteToHex, hb]
  congr 2
  · omega
  · congr 1
    omega

/-- The digits of the bytes of a number are the digits it was read from. -/
theorem hex_bytesBE : ∀ (k : Nat) (ds : List Nat), ds.length = 2 * k → (∀ d ∈ ds, d < 16) →
    (bytesBE k (digitsValue ds)).flatMap byteToHex = ds.map Nat.digitChar
  | 0, ds, hlen, _ => by
    obtain rfl : ds = [] := by simpa using hlen
    rfl
  | k + 1, ds, hlen, hds => by
    obtain ⟨ds, y, rfl⟩ : ∃ ds' y, ds = ds' ++ [y] := ⟨_, _, (List.dropLast_append_getLast
      (l := ds) (by rintro rfl; simp at hlen)).symm⟩
    obtain ⟨ds, x, rfl⟩ : ∃ ds' x, ds = ds' ++ [x] := ⟨_, _, (List.dropLast_append_getLast
      (l := ds) (by rintro rfl; simp at hlen; omega)).symm⟩
    have hx : x < 16 := hds x (by simp)
    have hy : y < 16 := hds y (by simp)
    have ih := hex_bytesBE k ds (by simp at hlen; omega) fun d hd => hds d (by simp [hd])
    have hdiv : (digitsValue ds * 256 + (16 * x + y)) / 256 = digitsValue ds := by omega
    rw [List.append_assoc, List.singleton_append, digitsValue_append, bytesBE_succ, hdiv, List.flatMap_append, ih,
      List.map_append, List.flatMap_cons, byteToHex_pair hx hy]
    rfl

theorem parseUuid_bytes (guid : String) : parseUuid guid =
    bytesBE 4 (parseHex ((guid.toList.take 8).drop 0)) ++ (bytesBE 2 (parseHex ((guid.toList.take 13).drop 9)) ++
      (bytesBE 2 (parseHex ((guid.toList.take 18).drop 14)) ++
        (bytesBE 2 (parseHex ((guid.toList.take 23).drop 19)) ++
        bytesBE 6 (parseHex ((guid.toList.take 36).drop 24))))) := by
  simp only [parseUuid, bytesBE, bytesLE, List.map_cons, List.map_nil, List.reverse_cons, List.reverse_nil,
    List.nil_append, List.cons_append, List.cons.injEq, and_true, ← UInt8.toNat_inj, UInt8.toNat_ofNat']
  refine ⟨?_, ?_, ?_, trivial, ?_, trivial, ?_, trivial, ?_, trivial, ?_, ?_, ?_, ?_, ?_⟩
  all_goals omega

theorem hexBetween_eq {arr : Bytes} {i j : Nat} (hij : i ≤ j) (hj : j ≤ arr.length) :
    hexBetween arr i j = ((arr.take j).drop i).flatMap byteToHex := by
  have hlist : (arr.take j).drop i = (List.range' i (j - i)).map fun k => arr.getD k 0 := by
    apply List.ext_getElem
    · simp
      omega
    · intro k h₁ h₂
      have hk : i + k < arr.length := by simp at h₁; omega
      simp [List.getD_eq_getElem?_getD, hk]
  rw [hexBetween, hlist, List.flatMap_map]
  apply List.flatMap_congr
  intro k hk
  have hlt : k < arr.length := by
    have := List.mem_range'_1.mp hk
    omega
  simp [hlt, List.getD_eq_getElem?_getD]

theorem slice_append {α : Type} (front mid back : List α) {i j : Nat} (hi : front.length = i)
    (hj : i + mid.length = j) : ((front ++ (mid ++ back)).take j).drop i = mid := by
  subst hi hj
  rw [← List.append_assoc, ← List.length_append, List.take_left, List.drop_left]

theorem stringifyUuid_append {a b c d e : Bytes} (ha : a.length = 4) (hb : b.length = 2) (hc : c.length = 2)
    (hd : d.length = 2) (he : e.length = 6) :
    stringifyUuid (a ++ (b ++ (c ++ (d ++ e)))) =
      String.ofList (a.flatMap byteToHex ++ '-' :: (b.flatMap byteToHex ++ '-' :: (c.flatMap byteToHex ++
        '-' :: (d.flatMap byteToHex ++ '-' :: e.flatMap byteToHex)))) := by
  have hlen : (a ++ (b ++ (c ++ (d ++ e)))).length = 16 := by simp [ha, hb, hc, hd, he]
  have h₁ := slice_append [] a (b ++ (c ++ (d ++ e))) (i := 0) (j := 4) rfl (by omega)
  have h₂ := slice_append a b (c ++ (d ++ e)) (j := 6) ha (by omega)
  have h₃ := slice_append (a ++ b) c (d ++ e) (i := 6) (j := 8) (by simp [ha, hb]) (by omega)
  have h₄ := slice_append (a ++ (b ++ c)) d e (i := 8) (j := 10) (by simp [ha, hb, hc])
    (by omega)
  have h₅ := slice_append (a ++ (b ++ (c ++ d))) e [] (i := 10) (j := 16)
    (by simp [ha, hb, hc, hd]) (by omega)
  simp only [List.append_assoc, List.nil_append, List.append_nil] at h₁ h₂ h₃ h₄ h₅
  have hne : a ++ (b ++ (c ++ (d ++ e))) ≠ [] := by
    intro h
    simp [h] at hlen
  unfold stringifyUuid
  dsimp only
  rw [if_neg hne, hexBetween_eq (by decide) (by omega), hexBetween_eq (by decide) (by omega), hexBetween_eq
    (by decide) (by omega),
    hexBetween_eq (by decide) (by omega), hexBetween_eq (by decide) (by omega), h₁, h₂, h₃, h₄, h₅]

theorem stringify_parse {guid : String} (h : Canonical guid) : stringifyUuid (parseUuid guid) = guid := by
  obtain ⟨a, b, c, d, e, ⟨ha, hal⟩, ⟨hb, hbl⟩, ⟨hc, hcl⟩, ⟨hd, hdl⟩, ⟨he, hel⟩, hg⟩ := h
  have h₁ := slice_append [] a ('-' :: (b ++ '-' :: (c ++ '-' :: (d ++ '-' :: e)))) (i := 0) (j := 8) rfl (by omega)
  have h₂ := slice_append (a ++ ['-']) b ('-' :: (c ++ '-' :: (d ++ '-' :: e))) (i := 9) (j := 13) (by simp [hal])
    (by omega)
  have h₃ := slice_append (a ++ '-' :: (b ++ ['-'])) c ('-' :: (d ++ '-' :: e)) (i := 14) (j := 18)
    (by simp [hal, hbl]) (by omega)
  have h₄ := slice_append (a ++ '-' :: (b ++ '-' :: (c ++ ['-']))) d ('-' :: e) (i := 19) (j := 23)
    (by simp [hal, hbl, hcl]) (by omega)
  have h₅ := slice_append (a ++ '-' :: (b ++ '-' :: (c ++ '-' :: (d ++ ['-'])))) e [] (i := 24) (j := 36)
    (by simp [hal, hbl, hcl, hdl]) (by omega)
  simp only [List.append_assoc, List.cons_append, List.nil_append, List.append_nil, ← hg] at h₁ h₂ h₃ h₄ h₅
  obtain ⟨as, has, rfl⟩ := ha.digits
  obtain ⟨bs, hbs, rfl⟩ := hb.digits
  obtain ⟨cs, hcs, rfl⟩ := hc.digits
  obtain ⟨ds, hds, rfl⟩ := hd.digits
  obtain ⟨es, hes, rfl⟩ := he.digits
  rw [List.length_map] at hal hbl hcl hdl hel
  rw [parseUuid_bytes, h₁, h₂, h₃, h₄, h₅, parseHex_digits has, parseHex_digits hbs, parseHex_digits hcs,
    parseHex_digits hds, parseHex_digits hes, stringifyUuid_append (by simp) (by simp) (by simp)
      (by simp) (by simp),
    hex_bytesBE 4 as hal has, hex_bytesBE 2 bs hbl hbs, hex_bytesBE 2 cs hcl hcs, hex_bytesBE 2 ds hdl hds,
    hex_bytesBE 6 es hel hes, ← hg, String.ofList_toList]

/-! ## Frames -/

/-- The indexes that a schema id carries: a non-empty list for protobuf, none for the other types. -/
def SchemaId.WellIndexed (schemaId : SchemaId) : Prop :=
  if schemaId.schemaType = "PROTOBUF" then
    ∃ xs, schemaId.messageIndexes = some xs ∧ xs ≠ [] ∧ ∀ x ∈ xs, 0 ≤ x ∧ x < 2 ^ 51
  else schemaId.messageIndexes = none

def SchemaId.blank (schemaId : SchemaId) : SchemaId := { schemaType := schemaId.schemaType }

theorem fromBytes_v0 (s : SchemaId) {payload : Bytes} (hm : payload.take 1 = MAGIC_BYTE_V0) {id : Int}
    (hid : readInt32BE ((payload.take 5).drop 1) = .ok id) :
    s.fromBytes payload = SchemaId.fromIndexBytes { s with id := some id } payload 5 := by
  simp only [SchemaId.fromBytes, hm, if_true, hid]
  rfl

theorem fromBytes_v1 (s : SchemaId) {payload : Bytes} (hm : payload.take 1 = MAGIC_BYTE_V1) :
    s.fromBytes payload =
      SchemaId.fromIndexBytes { s with guid := some (stringifyUuid ((payload.take 17).drop 1)) } payload 17 := by
  have hne : MAGIC_BYTE_V1 ≠ MAGIC_BYTE_V0 := by decide
  simp [SchemaId.fromBytes, hm, hne]

section
variable {schemaId : SchemaId} (hidx : schemaId.WellIndexed)
include hidx

theorem fromIndexBytes_eq {s : SchemaId} (hs : s.schemaType = schemaId.schemaType) (hnone : s.messageIndexes = none)
    {front payload : Bytes} {n : Nat} (hn : front.length = n) :
    s.fromIndexBytes (front ++ (schemaId.indexBytes ++ payload)) n =
      .ok ({ s with messageIndexes := schemaId.messageIndexes }, n + schemaId.indexBytes.length) := by
  unfold SchemaId.WellIndexed at hidx
  unfold SchemaId.fromIndexBytes SchemaId.indexBytes
  by_cases hp : schemaId.schemaType = "PROTOBUF"
  · rw [if_pos hp] at hidx
    obtain ⟨xs, hxs, hne, hx⟩ := hidx
    have hdrop : (front ++ (SchemaId.writeMessageIndexes xs ++ payload)).drop n =
        SchemaId.writeMessageIndexes xs ++ payload := by
      rw [← hn, List.drop_left]
    simp [hs, hp, hxs, hdrop, readMessageIndexes_write hne hx payload, bind, Except.bind, pure, Except.pure]
  · rw [if_neg hp] at hidx
    obtain ⟨schemaType, id, guid, messageIndexes⟩ := s
    simp only at hs hnone
    simp [hs, hp, hidx, hnone]

theorem fromBytes_id {id : Int} (hid : FitsBytes 4 id) (payload : Bytes) :
    schemaId.blank.fromBytes (MAGIC_BYTE_V0 ++ bytesBE 4 (unsigned 4 id) ++ schemaId.indexBytes ++ payload) =
      .ok ({ schemaId.blank with id := some id, messageIndexes := schemaId.messageIndexes },
        5 + schemaId.indexBytes.length) := by
  have hread : readInt32BE (bytesBE 4 (unsigned 4 id)) = .ok id := by
    have hnat : natBE (bytesBE 4 (unsigned 4 id)) = unsigned 4 id := by
      rw [natBE_bytesBE, Nat.mod_eq_of_lt (unsigned_lt 4 id)]
    rw [readInt32BE, if_pos (by simp), List.take_of_length_le (by simp), hnat, signed_unsigned hid]
  have hslice := slice_append [0] (bytesBE 4 (unsigned 4 id)) (schemaId.indexBytes ++ payload) (i := 1) (j := 5) rfl
    (by simp)
  rw [List.append_assoc, List.append_assoc, fromBytes_v0 schemaId.blank rfl (hslice ▸ hread), ← List.append_assoc]
  exact fromIndexBytes_eq hidx (s := { schemaId.blank with id := some id }) rfl rfl (by simp [MAGIC_BYTE_V0])

theorem fromBytes_guid {guid : String} (hg : Canonical guid) (payload : Bytes) :
    schemaId.blank.fromBytes (MAGIC_BYTE_V1 ++ parseUuid guid ++ schemaId.indexBytes ++ payload) =
      .ok ({ schemaId.blank with guid := some guid, messageIndexes := schemaId.messageIndexes },
        17 + schemaId.indexBytes.length) := by
  have hlen : (parseUuid guid).length = 16 := by simp [parseUuid]
  have hslice := slice_append [1] (parseUuid guid) (schemaId.indexBytes ++ payload) (i := 1)
    (j := 17) rfl (by omega)
  rw [List.append_assoc, List.append_assoc, fromBytes_v1 schemaId.blank rfl, MAGIC_BYTE_V1, hslice,
    stringify_parse hg,
    ← List.append_assoc]
  exact fromIndexBytes_eq hidx (s := { schemaId.blank with guid := some guid }) rfl rfl (by simp [hlen])

/-- A frame before the payload, or in a header, is read back to the id or guid and the indexes it was
written from, and the bytes it takes are exactly the ones before the payload. -/
theorem framing_read (payload : Bytes) (serdeType : SerdeType) :
    (∀ id, FitsBytes 4 id → schemaId.id = some id →
      ∃ frame read n, PrefixSchemaIdSerializer payload schemaId = .ok frame ∧
        PrefixSchemaIdDeserializer frame schemaId.blank = .ok (read, n) ∧
        (∀ headers : Option Headers, headers.bind (·.get? (headerKey serdeType)) = none →
          DualSchemaIdDeserializer serdeType frame schemaId.blank headers = .ok (read, n)) ∧
        read.id = some id ∧ read.messageIndexes = schemaId.messageIndexes ∧
        frame.drop n = payload ∧ n + payload.length = frame.length) ∧
    (∀ guid, Canonical guid → schemaId.guid = some guid → ∀ headers : Headers,
      ∃ headers' read, HeaderSchemaIdSerializer serdeType payload schemaId (some headers) = .ok
        (payload, headers') ∧
        DualSchemaIdDeserializer serdeType payload schemaId.blank (some headers') = .ok (read, 0) ∧
        read.guid = some guid ∧ read.messageIndexes = schemaId.messageIndexes) := by
  refine ⟨fun id hid hsome => ?_, fun guid hg hsome headers => ?_⟩
  · have hread := fromBytes_id hidx hid payload
    refine ⟨_, _, _, ?_, hread, fun headers hh => ?_, rfl, rfl, ?_, ?_⟩
    · have hrange : -2147483648 ≤ id ∧ id ≤ 2147483647 := by
        unfold FitsBytes at hid
        omega
      simp [PrefixSchemaIdSerializer, SchemaId.idToBytes, hsome, writeInt32BE, hrange, bind, Except.bind, pure,
        Except.pure]
    · rw [DualSchemaIdDeserializer, headerBuffer, hh]
      exact hread
    · apply List.drop_left'
      simp [MAGIC_BYTE_V0]
      omega
    · simp [MAGIC_BYTE_V0]
      omega
  · have hread := fromBytes_guid hidx hg []
    rw [List.append_nil] at hread
    refine ⟨headers.set (headerKey serdeType)
      (.one (.buffer (MAGIC_BYTE_V1 ++ parseUuid guid ++ schemaId.indexBytes))),
      { schemaId.blank with guid := some guid, messageIndexes := schemaId.messageIndexes }, ?_, ?_, rfl, rfl⟩
    · simp [HeaderSchemaIdSerializer, SchemaId.guidToBytes, hsome, bind, Except.bind, pure, Except.pure]
    · have hbuf : headerBuffer serdeType (some (headers.set (headerKey serdeType)
          (.one (.buffer (MAGIC_BYTE_V1 ++ parseUuid guid ++ schemaId.indexBytes))))) =
          some (MAGIC_BYTE_V1 ++ parseUuid guid ++ schemaId.indexBytes) := by
        simp [headerBuffer, JsMap.get?_set, HeaderItem.toBuffer]
      rw [DualSchemaIdDeserializer, hbuf]
      simp only [hread]
      rfl

end

def orderId : SchemaId where
  schemaType := "PROTOBUF"
  id := some (-42)
  guid := some "89791762-2336-186f-9674-299b90a802e2"
  messageIndexes := some [2, 0, 2000000000000]

theorem framing_read_order :
    orderId.WellIndexed ∧ Canonical "89791762-2336-186f-9674-299b90a802e2" ∧
      (∃ frame read n, PrefixSchemaIdSerializer [7, 8] orderId = .ok frame ∧
        PrefixSchemaIdDeserializer frame orderId.blank = .ok (read, n) ∧
        (∀ headers : Option Headers, headers.bind (·.get? (headerKey .value)) = none →
          DualSchemaIdDeserializer .value frame orderId.blank headers = .ok (read, n)) ∧
        read.id = some (-42) ∧ read.messageIndexes = orderId.messageIndexes ∧
        frame.drop n = [7, 8] ∧ n + [(7 : UInt8), 8].length = frame.length) ∧
      ∃ headers' read, HeaderSchemaIdSerializer .value [7, 8] orderId (some JsMap.empty) = .ok ([7, 8], headers') ∧
        DualSchemaIdDeserializer .value [7, 8] orderId.blank (some headers') = .ok (read, 0) ∧
        read.guid = orderId.guid ∧ read.messageIndexes = orderId.messageIndexes := by
  have hidx : orderId.WellIndexed := ⟨_, rfl, by decide, by decide⟩
  have hg : Canonical "89791762-2336-186f-9674-299b90a802e2" := by
    refine ⟨"89791762".toList, "2336".toList, "186f".toList, "9674".toList, "299b90a802e2".toList,
      ⟨?_, rfl⟩, ⟨?_, rfl⟩, ⟨?_, rfl⟩, ⟨?_, rfl⟩, ⟨?_, rfl⟩, rfl⟩
    · simp [IsHex]
    · simp [IsHex]
    · simp [IsHex]
    · simp [IsHex]
    · simp [IsHex]
  have h := framing_read hidx [7, 8] .value
  exact ⟨hidx, hg, h.1 (-42) (by decide) rfl, h.2 _ hg rfl JsMap.empty⟩

end ConfluentKafka
