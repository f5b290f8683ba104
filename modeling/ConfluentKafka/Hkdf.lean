import ConfluentKafka.Bytes

/-!
# Derivation of keys

`compute` of `hkdf.ts`, over the signatures of the platform's HMAC. The key that it expands is the concatenation of
blocks, each the MAC of the one before it, of the information, and of the number of the block in one byte; `compute`
writes as many of their bytes as are asked for.
-/

namespace ConfluentKafka

namespace Hkdf

abbrev Sign := String → Bytes → Bytes → Bytes

def digestSize : String → Option Nat
  | "SHA-1" => some 20
  | "SHA-256" => some 32
  | "SHA-512" => some 64
  | _ => none

def MIN_TAG_SIZE_IN_BYTES : Nat := 10

def fromRawKey (sign : Sign) (hash : String) (key : Bytes) (tagSize : Nat) : Except String (Bytes → Bytes) :=
  if tagSize < MIN_TAG_SIZE_IN_BYTES then
    .error ("tag too short, must be at least " ++ toString MIN_TAG_SIZE_IN_BYTES ++ " bytes")
  else
    match digestSize hash with
    | none => .error (hash ++ " is not supported")
    | some n =>
      if tagSize > n then .error ("tag too long, must not be larger than " ++ toString n ++ " bytes")
      else .ok fun data => (sign hash key data).take tagSize

/-- `Uint8Array.prototype.set`. -/
def setAt (array : Bytes) (offset : Nat) (source : Bytes) : Bytes :=
  array.take offset ++ source ++ array.drop (offset + source.length)

section
variable (mac : Bytes → Bytes) (info : Bytes) (size : Nat)

/-- The loop, which has not come to its end where the fuel does not suffice. -/
def expand : Nat → Nat → Nat → Bytes → Bytes → Option Bytes
  | 0, _, _, _, _ => none
  | fuel + 1, ctr, pos, digest, result =>
    let digest := mac (digest ++ info ++ [UInt8.ofNat ctr])
    if pos + digest.length < size then
      expand fuel (ctr + 1) (pos + digest.length) digest (setAt result pos digest)
    else some (setAt result pos (digest.take (size - pos)))

end

def compute (sign : Sign) (size : Int) (hash : String) (ikm info : Bytes) (salt : Option Bytes) :
    Option (Except String Bytes) :=
  if size ≤ 0 then some (.error "size must be positive") else
    match digestSize hash with
    | none => some (.error (hash ++ " is not supported"))
    | some n =>
      if 255 * n < size then some (.error "size too large") else
        let salt := match salt with
          | none | some [] => List.replicate n 0
          | some salt => salt
        match fromRawKey sign hash salt n with
        | .error e => some (.error e)
        | .ok mac =>
          let prk := mac ikm
          match fromRawKey sign hash prk n with
          | .error e => some (.error e)
          | .ok mac =>
            (expand mac info size.toNat size.toNat 1 0 [] (List.replicate size.toNat 0)).map .ok

/-! ## The blocks -/

section
variable (mac : Bytes → Bytes) (info : Bytes)

def block : Nat → Bytes
  | 0 => []
  | i + 1 => mac (block i ++ info ++ [UInt8.ofNat (i + 1)])

def blocks (n : Nat) : Bytes := (List.range n).flatMap fun i => block mac info (i + 1)

theorem blocks_succ (n : Nat) : blocks mac info (n + 1) = blocks mac info n ++ block mac info (n + 1) := by
  rw [blocks, List.range_succ, List.flatMap_append, List.flatMap_singleton]
  rfl

theorem blocks_prefix {m n : Nat} (h : m ≤ n) : blocks mac info m <+: blocks mac info n := by
  induction h with
  | refl => exact List.prefix_rfl
  | step _ ih => exact ih.trans (by rw [blocks_succ]; exact List.prefix_append _ _)

theorem setAt_eq {array written source : Bytes} {pos : Nat} (hwritten : array.take pos = written) :
    setAt array pos source = written ++ source ++ array.drop (pos + source.length) := by
  rw [setAt, hwritten]

variable {mac} {n : Nat} (hlength : ∀ data, (mac data).length = n)
include hlength

theorem length_blocks (i : Nat) : (blocks mac info i).length = i * n := by
  induction i with
  | zero => simp [blocks]
  | succ i ih => rw [blocks_succ, List.length_append, ih, block, hlength, Nat.succ_mul]

/-- At the start of a turn, the blocks before it have been written. -/
theorem expand_eq {size : Nat} (hsize : size ≤ 255 * n) (hn : 0 < n) (fuel : Nat) : ∀ (i : Nat) (result : Bytes),
    i * n < size → size - i * n ≤ fuel → result.length = size → result.take (i * n) = blocks mac info i →
      expand mac info size fuel (i + 1) (i * n) (block mac info i) result = some
        ((blocks mac info 255).take size) := by
  induction fuel with
  | zero =>
    intro i result hlt hfuel
    omega
  | succ fuel ih =>
    intro i result hlt hfuel hresult hwritten
    have hi : i < 255 := by
      by_contra hge
      have hmul := Nat.mul_le_mul_right n (Nat.le_of_not_lt hge)
      omega
    have hblock : mac (block mac info i ++ info ++ [UInt8.ofNat (i + 1)]) = block mac info (i + 1) := rfl
    have hblength : (block mac info (i + 1)).length = n := hlength _
    have hnext : (i + 1) * n = i * n + n := Nat.succ_mul i n
    have hbefore := length_blocks info hlength i
    rw [expand, hblock, hblength]
    split_ifs with hmore
    · rw [← hnext]
      refine ih (i + 1) _ (by omega) (by omega) ?_ ?_
      · rw [setAt_eq hwritten, List.length_append, List.length_append, List.length_drop, hbefore, hblength, hresult]
        omega
      · rw [setAt_eq hwritten, hnext, blocks_succ, List.take_left']
        rw [List.length_append, hbefore, hblength]
    · -- The last block is written in part.
      rw [setAt_eq hwritten, List.length_take, hblength, List.drop_eq_nil_of_le (by omega), List.append_nil]
      obtain ⟨rest, hrest⟩ := blocks_prefix mac info (Nat.succ_le_of_lt hi)
      rw [← hrest, blocks_succ, List.append_assoc, List.take_append, List.take_append, hbefore, hblength,
        List.take_of_length_le (by omega : (blocks mac info i).length ≤ size),
        Nat.sub_eq_zero_of_le (by omega : size - i * n ≤ n), List.take_zero, List.append_nil]

end

theorem fromRawKey_eq {sign : Sign} {hash : String} {n : Nat} (hn : digestSize hash = some n) (key : Bytes)
    (hlength : ∀ key data, (sign hash key data).length = n) : fromRawKey sign hash key n = .ok (sign hash key) := by
  have hten : ¬n < MIN_TAG_SIZE_IN_BYTES := by
    unfold digestSize at hn
    split at hn <;> cases hn <;> decide
  unfold fromRawKey
  rw [if_neg hten, hn]
  dsimp only
  rw [if_neg (Nat.lt_irrefl n)]
  refine congrArg Except.ok (funext fun data => ?_)
  rw [List.take_of_length_le (Nat.le_of_eq (hlength key data))]

theorem digestSize_pos {hash : String} {n : Nat} (h : digestSize hash = some n) : 0 < n := by
  unfold digestSize at h
  split at h <;> cases h <;> decide

def defaultSalt (n : Nat) : Option Bytes → Bytes
  | none | some [] => List.replicate n 0
  | some salt => salt

/-- Every size up to 255 digests is derived, and no other; no number of a block is beyond a byte. -/
theorem compute_spec {sign : Sign}
    (hlength : ∀ hash n, digestSize hash = some n → ∀ key data, (sign hash key data).length = n) (size : Int)
    (hash : String) (ikm info : Bytes) (salt : Option Bytes) :
    compute sign size hash ikm info salt = some (
      if size ≤ 0 then .error "size must be positive" else
        match digestSize hash with
        | none => .error (hash ++ " is not supported")
        | some n =>
          if 255 * n < size then .error "size too large"
          else .ok ((blocks (sign hash (sign hash (defaultSalt n salt) ikm)) info 255).take size.toNat)) := by
  unfold compute
  split_ifs with hsize
  · rfl
  · cases hn : digestSize hash with
    | none => rfl
    | some n =>
      dsimp only
      split_ifs with hlarge
      · rfl
      · have hsalt : (match salt with
            | none | some [] => List.replicate n 0
            | some salt => salt) = defaultSalt n salt := rfl
        have hmac := hlength hash n hn
        have hpos := digestSize_pos hn
        rw [hsalt, fromRawKey_eq hn _ hmac]
        dsimp only
        rw [fromRawKey_eq hn _ hmac]
        dsimp only
        have hexpand := expand_eq info (hmac (sign hash (defaultSalt n salt) ikm))
          (by omega) hpos size.toNat 0 (List.replicate size.toNat 0) (by omega) (by omega)
          (List.length_replicate ..) (by
            rw [Nat.zero_mul, List.take_zero]
            rfl)
        rw [Nat.zero_mul] at hexpand
        rw [block] at hexpand
        rw [hexpand]
        rfl

/-- HMAC with SHA-256 on three inputs, as far as the sizes of its answers go on all others. -/
def threeSigned : Sign := fun hash key data =>
  if key = (List.range 13).map UInt8.ofNat ∧ data = List.replicate 22 11 then
    [7, 119, 9, 54, 44, 46, 50, 223, 13, 220, 63, 13, 196, 123, 186, 99, 144, 182, 199, 59, 181, 15, 156,
      49, 34, 236, 132,
      74, 215, 194, 179, 229].take ((digestSize hash).getD 0) ++ List.replicate ((digestSize hash).getD 0 - 32) 0
  else if data.length = 11 then
    [60, 178, 95, 37, 250, 172, 213, 122, 144, 67, 79, 100, 208, 54, 47, 42, 45, 45, 10, 144, 207, 26, 90,
      76, 93, 176, 45,
      86, 236, 196, 197, 191].take ((digestSize hash).getD 0) ++ List.replicate ((digestSize hash).getD 0 - 32) 0
  else
    [52, 0, 114, 8, 213, 184, 135, 24, 88, 101, 180, 176, 168, 90, 153, 59, 137, 185, 182, 86, 131, 214, 15,
      1, 6, 210, 143,
      255, 3, 157, 11, 111].take ((digestSize hash).getD 0) ++ List.replicate ((digestSize hash).getD 0 - 32) 0

theorem length_threeSigned : ∀ hash n, digestSize hash = some n → ∀ key data,
    (threeSigned hash key data).length = n := by
  intro hash n hn key data
  unfold threeSigned
  rw [hn]
  split_ifs <;> simp <;> omega

/-- Forty-two bytes, of two blocks. -/
theorem compute_spec_two : compute threeSigned 42 "SHA-256" (List.replicate 22 11)
    ((List.range' 240 10).map UInt8.ofNat)
      (some ((List.range 13).map UInt8.ofNat)) = some (.ok
        [60, 178, 95, 37, 250, 172, 213, 122, 144, 67, 79, 100, 208, 54, 47, 42, 45, 45, 10, 144, 207, 26,
          90, 76, 93, 176,
          45, 86, 236, 196, 197, 191, 52, 0, 114, 8, 213, 184, 135, 24, 88, 101]) ∧
    compute threeSigned 42 "SHA-256" (List.replicate 22 11) ((List.range' 240 10).map UInt8.ofNat)
      (some ((List.range 13).map UInt8.ofNat)) = some (
        if (42 : Int) ≤ 0 then .error "size must be positive" else
          match digestSize "SHA-256" with
          | none => .error ("SHA-256" ++ " is not supported")
          | some n =>
            if 255 * n < (42 : Int) then .error "size too large"
            else .ok ((blocks (threeSigned "SHA-256" (threeSigned "SHA-256"
              (defaultSalt n (some ((List.range 13).map UInt8.ofNat))) (List.replicate 22 11)))
                ((List.range' 240 10).map UInt8.ofNat) 255).take (42 : Int).toNat)) :=
  ⟨by decide, compute_spec length_threeSigned 42 "SHA-256" _ _ _⟩

end Hkdf

end ConfluentKafka
