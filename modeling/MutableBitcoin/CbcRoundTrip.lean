import MutableBitcoin.CbcCipher
import MutableBitcoin.Lib.BlockChaining

/-!
# Encryption is invertible

The loops chain the blocks of the data, and the padding makes every string a sequence of blocks.
-/

namespace MutableBitcoin
open Lib List Nat

/-! ### Blocks of bytes -/

def joinBlocks (blocks : List AesBlock) : Bytes := (blocks.map BaseBlob.data).flatten

@[simp] lemma joinBlocks_nil : joinBlocks [] = [] := rfl

@[simp] lemma joinBlocks_cons (block : AesBlock) (blocks : List AesBlock) :
    joinBlocks (block :: blocks) = block.data ++ joinBlocks blocks := rfl

lemma joinBlocks_append (blocks blocks' : List AesBlock) :
    joinBlocks (blocks ++ blocks') = joinBlocks blocks ++ joinBlocks blocks' := by
  rw [joinBlocks, map_append, flatten_append]
  rfl

@[simp] lemma length_joinBlocks (blocks : List AesBlock) : (joinBlocks blocks).length = 16 * blocks.length := by
  induction blocks with
  | nil => rfl
  | cons block blocks ih =>
    rw [joinBlocks_cons, length_append, block.length_data, ih, length_cons]
    omega

lemma exists_joinBlocks {k : ℕ} {bytes : Bytes} (h : bytes.length = 16 * k) :
    ∃ blocks, blocks.length = k ∧ joinBlocks blocks = bytes := by
  induction k generalizing bytes with
  | zero => exact ⟨[], rfl, (eq_nil_of_length_eq_zero h).symm⟩
  | succ k ih =>
    have htake : (bytes.take 16).length = 16 := by
      rw [length_take]
      omega
    obtain ⟨blocks, rfl, hblocks⟩ := @ih (bytes.drop 16) (by rw [length_drop]; omega)
    refine ⟨⟨bytes.take 16, htake⟩ :: blocks, rfl, ?_⟩
    rw [joinBlocks_cons, hblocks, take_append_drop]

lemma joinBlocks_injective {blocks blocks' : List AesBlock} (h : joinBlocks blocks = joinBlocks blocks') :
    blocks = blocks' := by
  induction blocks generalizing blocks' with
  | nil =>
    have hlength := congrArg List.length h
    rw [length_joinBlocks, length_joinBlocks, length_nil] at hlength
    exact (eq_nil_of_length_eq_zero (by omega)).symm
  | cons block blocks ih =>
    cases blocks' with
    | nil =>
      have hlength := congrArg List.length h
      rw [length_joinBlocks, length_joinBlocks, length_nil, length_cons] at hlength
      omega
    | cons block' blocks' =>
      rw [joinBlocks_cons, joinBlocks_cons] at h
      obtain ⟨hblock, hblocks⟩ := append_inj h (by rw [block.length_data, block'.length_data])
      rw [BaseBlob.ext hblock, ih hblocks]

instance : Finite AesBlock := by
  have hbyte : Finite UInt8 := Finite.of_injective UInt8.toFin fun _ _ => UInt8.toFin_inj.mp
  have hfintype : Fintype UInt8 := Fintype.ofFinite UInt8
  have hvector : Finite (List.Vector UInt8 16) := Finite.of_fintype _
  let toVector : AesBlock → List.Vector UInt8 16 := fun block => ⟨block.data, block.length_data⟩
  exact @Finite.of_injective _ _ hvector toVector fun a b h => BaseBlob.ext (congrArg Subtype.val h)

def mixBlocks (a b : AesBlock) : AesBlock := xorBlock a b.data

lemma data_mixBlocks (a b : AesBlock) : (mixBlocks a b).data = List.zipWith (· ^^^ ·) a.data b.data := by
  unfold mixBlocks xorBlock
  dsimp only
  rw [drop_of_length_le (by rw [a.length_data, b.length_data]), append_nil]

lemma mixBlocks_mixBlocks_left (a b : AesBlock) : mixBlocks (mixBlocks a b) a = b := by
  refine BaseBlob.ext (ext_getElem (by rw [BaseBlob.length_data, BaseBlob.length_data]) fun i h₁ h₂ => ?_)
  simp only [data_mixBlocks, getElem_zipWith]
  rw [UInt8.xor_comm, ← UInt8.xor_assoc, UInt8.xor_self, UInt8.zero_xor]

lemma mixBlocks_mixBlocks_right (a b : AesBlock) : mixBlocks b (mixBlocks a b) = a := by
  refine BaseBlob.ext (ext_getElem (by rw [BaseBlob.length_data, BaseBlob.length_data]) fun i h₁ h₂ => ?_)
  simp only [data_mixBlocks, getElem_zipWith]
  rw [UInt8.xor_comm, UInt8.xor_assoc, UInt8.xor_self, UInt8.xor_zero]

/-! ### The loops -/

lemma take_drop_written {out : Bytes} {written : ℕ} (block : AesBlock) (hout : written + 16 ≤ out.length) (n : ℕ) :
    (out.take written ++ block.data ++ out.drop (written + 16)).take (written + 16) = out.take written ++ block.data ∧
      (out.take written ++ block.data ++ out.drop (written + 16)).drop (written + 16 + n) =
        out.drop (written + 16 + n) := by
  have hlength : (out.take written ++ block.data).length = written + 16 := by
    rw [length_append, length_take, block.length_data]
    omega
  constructor
  · rw [← hlength, take_left]
  · rw [drop_append, hlength, drop_of_length_le (by omega), nil_append, drop_drop]
    congr 1
    omega

section Loops

variable {enc dec : AesBlock → AesBlock}

lemma encryptLoop_spec (blocks : List AesBlock) {tail : Bytes} (htail : tail.length < 16) {size fuel written : ℕ}
    (mixed : AesBlock) {out : Bytes} (hsize : size = written + 16 * blocks.length + tail.length)
    (hlarge : size + 16 < 2 ^ 31) (hfuel : blocks.length < fuel) (hout : written + 16 * blocks.length ≤ out.length) :
    encryptLoop enc size fuel ⟨written, joinBlocks blocks ++ tail, mixed, out⟩ =
      some ⟨written + 16 * blocks.length, tail, (chainEncrypt mixBlocks enc mixed blocks).getLastD mixed,
        out.take written ++ joinBlocks (chainEncrypt mixBlocks enc mixed blocks) ++
          out.drop (written + 16 * blocks.length)⟩ := by
  induction blocks generalizing written mixed out fuel with
  | nil =>
    obtain ⟨fuel, rfl⟩ := exists_eq_succ_of_ne_zero (ne_zero_of_lt hfuel)
    rw [length_nil] at hsize
    have hadd : addInt written AES_BLOCKSIZE = some (written + 16) := if_pos (show written + 16 < 2 ^ 31 by omega)
    rw [encryptLoop]
    dsimp only
    rw [hadd]
    dsimp only [bind, Option.bind]
    rw [if_neg (by omega)]
    simp [chainEncrypt, pure]
  | cons block blocks ih =>
    obtain ⟨fuel, rfl⟩ := exists_eq_succ_of_ne_zero (ne_zero_of_lt hfuel)
    rw [length_cons] at hsize hfuel hout
    have hadd : addInt written AES_BLOCKSIZE = some (written + 16) := if_pos (show written + 16 < 2 ^ 31 by omega)
    have hread : readChunk AES_BLOCKSIZE (joinBlocks (block :: blocks) ++ tail) =
        some (block.data, joinBlocks blocks ++ tail) := by
      have hlength : block.data.length = AES_BLOCKSIZE := block.length_data
      rw [joinBlocks_cons, append_assoc, readChunk, if_pos (by rw [length_append]; omega), ← hlength,
        take_left, drop_left]
    have hcipher : xorBlock mixed block.data = mixBlocks mixed block := rfl
    have hwrite : writeBlock out written (enc (mixBlocks mixed block)) =
        some (out.take written ++ (enc (mixBlocks mixed block)).data ++ out.drop (written + 16)) := if_pos (by omega)
    rw [encryptLoop]
    dsimp only
    rw [hadd]
    dsimp only [bind, Option.bind]
    rw [if_pos (by omega), hread]
    dsimp only
    rw [hcipher, hwrite]
    dsimp only
    obtain ⟨htake, hdrop⟩ := take_drop_written (enc (mixBlocks mixed block)) (by omega : written + 16 ≤ out.length)
      (16 * blocks.length)
    rw [ih (enc (mixBlocks mixed block)) (by omega) (by omega) (by
      simp only [length_append, length_take, length_drop, BaseBlob.length_data]
      omega), htake, hdrop, chainEncrypt, joinBlocks_cons, getLastD_cons, length_cons]
    have hend : written + 16 + 16 * blocks.length = written + 16 * (blocks.length + 1) := by omega
    rw [hend, append_assoc (out.take written)]

lemma decryptLoop_spec (ciphers : List AesBlock) {front : Bytes} {size fuel : ℕ} (prev : AesBlock) {out : Bytes}
    (hsize : size = front.length + 16 * ciphers.length) (hlarge : size < 2 ^ 31) (hfuel : ciphers.length < fuel)
    (hout : size ≤ out.length) :
    decryptLoop dec (front ++ joinBlocks ciphers) size fuel ⟨front.length, prev, front.length, out⟩ =
      some ⟨size, ciphers.getLastD prev, size,
        out.take front.length ++ joinBlocks (chainDecrypt mixBlocks dec prev ciphers) ++ out.drop size⟩ := by
  induction ciphers generalizing front prev out fuel with
  | nil =>
    obtain ⟨fuel, rfl⟩ := exists_eq_succ_of_ne_zero (ne_zero_of_lt hfuel)
    rw [length_nil, mul_zero, add_zero] at hsize
    rw [decryptLoop, if_pos hsize.symm, hsize]
    simp [chainDecrypt]
  | cons cipher ciphers ih =>
    obtain ⟨fuel, rfl⟩ := exists_eq_succ_of_ne_zero (ne_zero_of_lt hfuel)
    rw [length_cons] at hsize hfuel
    have hfront : (front ++ cipher.data).length = front.length + 16 := by
      rw [length_append, cipher.length_data]
    have hadd : addInt front.length AES_BLOCKSIZE = some (front.length + 16) :=
      if_pos (show front.length + 16 < 2 ^ 31 by omega)
    have hread : readBlock (front ++ joinBlocks (cipher :: ciphers)) front.length = some cipher := by
      have hlength : front.length + 16 ≤ (front ++ joinBlocks (cipher :: ciphers)).length := by
        rw [length_append, length_joinBlocks, length_cons]
        omega
      rw [readBlock, dif_pos hlength]
      refine congrArg some (BaseBlob.ext ?_)
      change ((front ++ joinBlocks (cipher :: ciphers)).drop front.length).take 16 = cipher.data
      rw [drop_left, joinBlocks_cons]
      exact take_left' cipher.length_data
    have hwrite : writeBlock out front.length (mixBlocks (dec cipher) prev) =
        some (out.take front.length ++ (mixBlocks (dec cipher) prev).data ++ out.drop (front.length + 16)) :=
      if_pos (by omega)
    have hmix : xorBlock (dec cipher) prev.data = mixBlocks (dec cipher) prev := rfl
    have hlength : (out.take front.length ++ (mixBlocks (dec cipher) prev).data ++ out.drop (front.length + 16)).length =
        out.length := by
      simp only [length_append, length_take, length_drop, BaseBlob.length_data]
      omega
    have hih := @ih (front ++ cipher.data) fuel cipher
      (out.take front.length ++ (mixBlocks (dec cipher) prev).data ++ out.drop (front.length + 16))
      (by omega) (by omega) (by omega)
    obtain ⟨htake, hdrop⟩ := take_drop_written (mixBlocks (dec cipher) prev) (by omega : front.length + 16 ≤ out.length)
      (16 * ciphers.length)
    have hend : front.length + 16 + 16 * ciphers.length = size := by omega
    rw [hend] at hdrop
    rw [hfront, append_assoc, ← joinBlocks_cons, htake, hdrop] at hih
    rw [decryptLoop]
    dsimp only
    rw [if_neg (by omega), hread]
    dsimp only [bind, Option.bind]
    rw [hmix, hwrite]
    dsimp only
    rw [hadd]
    refine hih.trans ?_
    rw [chainDecrypt, joinBlocks_cons, getLastD_cons, append_assoc (out.take front.length)]

end Loops

/-! ### Padding -/

def padBytes (p : Bytes) : Bytes := p ++ List.replicate (16 - p.length % 16) (UInt8.ofNat (16 - p.length % 16))

lemma length_padBytes (p : Bytes) : (padBytes p).length = 16 * (p.length / 16 + 1) := by
  rw [padBytes, length_append, length_replicate]
  omega

section Encrypt

variable {enc : AesBlock → AesBlock} {iv : AesBlock}

lemma exists_joinBlocks_append (p : Bytes) :
    ∃ blocks tail, p = joinBlocks blocks ++ tail ∧ tail.length = p.length % 16 ∧ blocks.length = p.length / 16 := by
  obtain ⟨blocks, hlength, hblocks⟩ := @exists_joinBlocks (p.length / 16) (p.take (16 * (p.length / 16))) (by
    rw [length_take]
    omega)
  refine ⟨blocks, p.drop (16 * (p.length / 16)), by rw [hblocks, take_append_drop], ?_, hlength⟩
  rw [length_drop]
  omega

lemma cbcEncrypt_pad {p : Bytes} (hne : p ≠ []) (hlarge : p.length + 16 < 2 ^ 31) {blocks : List AesBlock}
    (hblocks : joinBlocks blocks = padBytes p) {out : Bytes} (hout : 16 * blocks.length ≤ out.length) :
    cbcEncrypt enc iv p p.length true out = some (16 * blocks.length,
      joinBlocks (chainEncrypt mixBlocks enc iv blocks) ++ out.drop (16 * blocks.length)) := by
  obtain ⟨full, tail, hp, htail, hfull⟩ := exists_joinBlocks_append p
  have hlast : (tail ++ List.replicate (16 - p.length % 16) (UInt8.ofNat (16 - p.length % 16))).length = 16 := by
    rw [length_append, length_replicate, htail]
    omega
  obtain rfl : blocks = full ++ [⟨_, hlast⟩] := by
    refine joinBlocks_injective ?_
    rw [hblocks, joinBlocks_append, padBytes]
    nth_rewrite 1 [hp]
    rw [append_assoc]
    simp
  rw [length_append, length_singleton] at hout
  have hloop := @encryptLoop_spec enc full tail (by omega) p.length (p.length + 1) 0 iv out (by omega) hlarge
    (by omega) (by omega)
  rw [← hp, zero_add, take_zero, nil_append] at hloop
  have hsize : p.length ≠ 0 := fun hzero => hne (eq_nil_of_length_eq_zero hzero)
  have hread : readChunk (p.length % AES_BLOCKSIZE) tail = some (tail, []) := by
    have hmod : p.length % AES_BLOCKSIZE = tail.length := htail.symm
    rw [readChunk, hmod, if_pos le_rfl, take_length, drop_length]
  have hlength : (joinBlocks (chainEncrypt mixBlocks enc iv full)).length = 16 * full.length := by
    rw [length_joinBlocks, length_chainEncrypt]
  have hwrite : ∀ block, writeBlock (joinBlocks (chainEncrypt mixBlocks enc iv full) ++ out.drop (16 * full.length))
      (16 * full.length) block = some (joinBlocks (chainEncrypt mixBlocks enc iv full) ++ block.data ++
        out.drop (16 * full.length + 16)) := by
    intro block
    rw [writeBlock, if_pos (by rw [length_append, hlength, length_drop]; omega), take_left' hlength,
      drop_append, hlength, drop_of_length_le (by omega), nil_append, drop_drop]
    congr 3
    omega
  have hadd : addInt (16 * full.length) AES_BLOCKSIZE = some (16 * full.length + 16) :=
    if_pos (show 16 * full.length + 16 < 2 ^ 31 by omega)
  rw [cbcEncrypt, if_neg hsize, if_neg (by simp), hloop]
  dsimp only [bind, Option.bind]
  rw [if_pos rfl, encryptLast]
  dsimp only
  rw [hread]
  dsimp only [bind, Option.bind]
  rw [hwrite]
  dsimp only
  rw [hadd, chainEncrypt_append_singleton, joinBlocks_append, length_append, length_singleton]
  rw [mul_add, mul_one, joinBlocks_cons, joinBlocks_nil, append_nil]
  rfl

lemma cbcEncrypt_noPad {blocks : List AesBlock} (hne : blocks ≠ []) (hlarge : 16 * blocks.length + 16 < 2 ^ 31)
    {out : Bytes} (hout : 16 * blocks.length ≤ out.length) :
    cbcEncrypt enc iv (joinBlocks blocks) (joinBlocks blocks).length false out = some (16 * blocks.length,
      joinBlocks (chainEncrypt mixBlocks enc iv blocks) ++ out.drop (16 * blocks.length)) := by
  have hpos : 0 < blocks.length := length_pos_of_ne_nil hne
  have hlength := length_joinBlocks blocks
  have hloop := @encryptLoop_spec enc blocks [] (by decide) (16 * blocks.length) (16 * blocks.length + 1) 0 iv out
    (by simp) hlarge (by omega) (by omega)
  rw [append_nil, zero_add, take_zero, nil_append] at hloop
  have hmod : 16 * blocks.length % AES_BLOCKSIZE = 0 := mul_mod_right 16 _
  rw [hlength, cbcEncrypt, if_neg (by omega), hmod, if_neg (by decide), hloop]
  rfl

end Encrypt

/-! ### The check of the padding -/

lemma checkPadding_spec {out : Bytes} {padsize : UInt8} {base : ℕ} (i : ℕ) (hout : base + i ≤ out.length) (fail : Bool) :
    ∃ b, checkPadding out padsize i ((base : ℤ) + i - 1) fail = some b ∧
      (b = true ↔ fail = true ∨ ∃ c < i, 16 - padsize.toNat ≤ c ∧ out[base + c]? ≠ some padsize) := by
  induction i generalizing fail with
  | zero => exact ⟨fail, rfl, by simp⟩
  | succ i ih =>
    have hbyte : byteAt out ((base : ℤ) + (i + 1 : ℕ) - 1) = some out[base + i] := by
      have hpos : (base : ℤ) + (i + 1 : ℕ) - 1 = (base + i : ℕ) := by omega
      rw [byteAt, hpos, if_pos (by omega), Int.toNat_natCast, getElem?_eq_getElem]
    have hnext : (base : ℤ) + (i + 1 : ℕ) - 1 - 1 = (base : ℤ) + i - 1 := by omega
    have hget : out[base + i]? = some out[base + i] := getElem?_eq_getElem (by omega)
    have hsize : AES_BLOCKSIZE = 16 := rfl
    obtain ⟨b, hrest, hb⟩ := ih (by omega)
      (fail || (AES_BLOCKSIZE - padsize.toNat < i + 1 && out[base + i] != padsize))
    refine ⟨b, ?_, hb.trans ?_⟩
    · rw [checkPadding, hbyte]
      dsimp only [bind, Option.bind]
      rw [hnext, hrest]
    rw [Bool.or_eq_true, Bool.and_eq_true, decide_eq_true_eq, bne_iff_ne, hsize, or_assoc]
    refine or_congr_right ⟨?_, ?_⟩
    · rintro (⟨hlt, hne⟩ | ⟨c, hc, hrest⟩)
      · refine ⟨i, Nat.lt_succ_self i, Nat.lt_succ_iff.mp hlt, ?_⟩
        rw [hget]
        exact fun heq => hne (Option.some.inj heq)
      · exact ⟨c, lt_succ_of_lt hc, hrest⟩
    · rintro ⟨c, hc, hle, hne⟩
      obtain hlt | rfl := Nat.lt_or_eq_of_le (Nat.lt_succ_iff.mp hc)
      · exact Or.inr ⟨c, hlt, hle, hne⟩
      · rw [hget] at hne
        exact Or.inl ⟨lt_succ_of_le hle, fun heq => hne (congrArg some heq)⟩

/-- The data end with `padsize` bytes of this value. -/
def HasPadding (d : Bytes) (padsize : ℕ) : Prop :=
  1 ≤ padsize ∧ padsize ≤ 16 ∧ d.drop (d.length - padsize) = List.replicate padsize (UInt8.ofNat padsize)

lemma hasPadding_iff {d : Bytes} {k padsize : ℕ} (hlength : d.length = 16 * (k + 1)) :
    HasPadding d padsize ↔ ∃ p, padBytes p = d ∧ p.length + padsize = d.length := by
  constructor
  · rintro ⟨hone, hle, hdrop⟩
    have htake : (d.take (d.length - padsize)).length = d.length - padsize := by
      rw [length_take]
      omega
    have hmod : 16 - (d.length - padsize) % 16 = padsize := by omega
    refine ⟨d.take (d.length - padsize), ?_, by omega⟩
    rw [padBytes, htake, hmod, ← hdrop, take_append_drop]
  · rintro ⟨p, rfl, hsum⟩
    have hpad : padsize = 16 - p.length % 16 := by
      rw [length_padBytes] at hsum
      omega
    refine ⟨by omega, by omega, ?_⟩
    have hpos : (padBytes p).length - padsize = p.length := by omega
    rw [hpos, padBytes, drop_left, hpad]

lemma hasPadding_iff_getElem {d : Bytes} {base padsize : ℕ} (hlength : d.length = base + 16) :
    HasPadding d padsize ↔ 1 ≤ padsize ∧ padsize ≤ 16 ∧
      ∀ c < 16, 16 - padsize ≤ c → d[base + c]? = some (UInt8.ofNat padsize) := by
  refine and_congr_right fun hone => and_congr_right fun hle => ?_
  have hlen : (d.drop (d.length - padsize)).length = padsize := by
    rw [length_drop]
    omega
  constructor
  · intro hdrop c hc hge
    have hget : (d.drop (d.length - padsize))[c - (16 - padsize)]? = some (UInt8.ofNat padsize) := by
      rw [hdrop, getElem?_replicate, if_pos (by omega)]
    rw [getElem?_drop] at hget
    rwa [show base + c = d.length - padsize + (c - (16 - padsize)) by omega]
  · intro hall
    refine eq_replicate_iff.mpr ⟨hlen, fun b hb => ?_⟩
    obtain ⟨i, hi, rfl⟩ := mem_iff_getElem.mp hb
    have hget := hall (16 - padsize + i) (by omega) (by omega)
    rw [getElem_drop]
    rw [show base + (16 - padsize + i) = d.length - padsize + i by omega, getElem?_eq_getElem (by omega)] at hget
    exact Option.some.inj hget

lemma decryptPadding_eq {out : Bytes} {size : ℕ} {prev : AesBlock} {k : ℕ} (hsize : size = 16 * (k + 1))
    (hout : size ≤ out.length) :
    ∃ n : ℤ, decryptPadding ⟨size, prev, size, out⟩ = some n ∧
      ((∃ padsize, HasPadding (out.take size) padsize ∧ n = size - padsize) ∨
        (n = 0 ∧ ∀ padsize, ¬HasPadding (out.take size) padsize)) := by
  have hlength : (out.take size).length = 16 * k + 16 := by
    rw [length_take]
    omega
  have hget : ∀ c < 16, (out.take size)[16 * k + c]? = out[16 * k + c]? := by
    intro c hc
    exact getElem?_take_of_lt (by omega)
  obtain ⟨last, hlast⟩ : ∃ last, out[16 * k + 15]? = some last := ⟨_, getElem?_eq_getElem (by omega)⟩
  have hbyte : byteAt out ((size : ℤ) - 1) = some last := by
    have hpos : (size : ℤ) - 1 = (16 * k + 15 : ℕ) := by omega
    rw [byteAt, hpos, if_pos (by omega), Int.toNat_natCast, hlast]
  have hcheck : ∀ (padsize : UInt8) (fail : Bool),
      ∃ b, checkPadding out padsize AES_BLOCKSIZE ((size : ℤ) - 1) fail = some b ∧
        (b = true ↔ fail = true ∨ ∃ c < 16, 16 - padsize.toNat ≤ c ∧ out[16 * k + c]? ≠ some padsize) := by
    intro padsize fail
    have hpos : (size : ℤ) - 1 = ((16 * k : ℕ) : ℤ) + (16 : ℕ) - 1 := by omega
    rw [hpos]
    exact checkPadding_spec 16 (by omega) fail
  -- The last byte is the size of the padding, if there is one.
  have hvalue : ∀ padsize, HasPadding (out.take size) padsize → last.toNat = padsize := by
    intro padsize hpad
    obtain ⟨hone, hle, hall⟩ := (hasPadding_iff_getElem hlength).mp hpad
    have hbyte := hall 15 (by decide) (by omega)
    rw [hget 15 (by decide), hlast] at hbyte
    rw [Option.some.inj hbyte, UInt8.toNat_ofNat']
    omega
  have hblock : AES_BLOCKSIZE = 16 := rfl
  unfold decryptPadding
  dsimp only
  rw [hbyte]
  dsimp only [bind, Option.bind]
  by_cases hfail : (last == 0 || decide (AES_BLOCKSIZE < last.toNat)) = true
  · obtain ⟨b, hrun, hb⟩ := hcheck 0 true
    obtain rfl := hb.mpr (Or.inl rfl)
    rw [hfail, if_pos rfl, hrun]
    refine ⟨0, rfl, Or.inr ⟨rfl, fun padsize hpad => ?_⟩⟩
    have heq := hvalue padsize hpad
    have hrange := hpad.1
    have hrange' := hpad.2.1
    rw [Bool.or_eq_true, beq_iff_eq, decide_eq_true_eq, hblock] at hfail
    obtain rfl | hlarge := hfail
    · rw [show (0 : UInt8).toNat = 0 from rfl] at heq
      omega
    · omega
  · rw [Bool.not_eq_true] at hfail
    obtain ⟨b, hrun, hb⟩ := hcheck last false
    rw [hfail, if_neg Bool.false_ne_true, hrun]
    rw [Bool.or_eq_false_iff, beq_eq_false_iff_ne, decide_eq_false_iff_not, hblock] at hfail
    have hone : last.toNat ≠ 0 := fun hzero => hfail.1 (UInt8.toNat_inj.mp hzero)
    have hlastNat : UInt8.ofNat last.toNat = last := UInt8.ofNat_toNat
    refine ⟨_, rfl, ?_⟩
    cases b with
    | true =>
      refine Or.inr ⟨rfl, fun padsize hpad => ?_⟩
      obtain ⟨c, hc, hge, hne⟩ := (hb.mp rfl).resolve_left Bool.false_ne_true
      obtain rfl := hvalue padsize hpad
      have hbyte := ((hasPadding_iff_getElem hlength).mp hpad).2.2 c hc hge
      rw [hget c hc, hlastNat] at hbyte
      exact hne hbyte
    | false =>
      refine Or.inl ⟨last.toNat, (hasPadding_iff_getElem hlength).mpr ⟨by omega, by omega, fun c hc hge => ?_⟩, rfl⟩
      rw [hget c hc, hlastNat]
      by_contra hne
      exact Bool.false_ne_true (hb.mpr (Or.inr ⟨c, hc, hge, hne⟩))

lemma HasPadding.unique {d : Bytes} {base a b : ℕ} (hlength : d.length = base + 16) (ha : HasPadding d a)
    (hb : HasPadding d b) : a = b := by
  have hlastA := ((hasPadding_iff_getElem hlength).mp ha).2.2 15 (by decide) (by have := ha.1; omega)
  have hlastB := ((hasPadding_iff_getElem hlength).mp hb).2.2 15 (by decide) (by have := hb.1; omega)
  have heq := congrArg UInt8.toNat (Option.some.inj (hlastA.symm.trans hlastB))
  rw [UInt8.toNat_ofNat', UInt8.toNat_ofNat'] at heq
  have hleA := ha.2.1
  have hleB := hb.2.1
  omega

section Decrypt

variable {dec : AesBlock → AesBlock} {iv : AesBlock}

lemma cbcDecrypt_noPad {ciphers : List AesBlock} (hne : ciphers ≠ []) (hlarge : 16 * ciphers.length < 2 ^ 31)
    {out : Bytes} (hout : 16 * ciphers.length ≤ out.length) :
    cbcDecrypt dec iv (joinBlocks ciphers) (joinBlocks ciphers).length false out =
      some (((16 * ciphers.length : ℕ) : ℤ),
        joinBlocks (chainDecrypt mixBlocks dec iv ciphers) ++ out.drop (16 * ciphers.length)) := by
  have hpos : 0 < ciphers.length := length_pos_of_ne_nil hne
  have hloop := @decryptLoop_spec dec ciphers [] (16 * ciphers.length) (16 * ciphers.length + 1) iv out
    (by simp) hlarge (by omega) hout
  rw [nil_append, length_nil, take_zero, nil_append] at hloop
  have hmod : 16 * ciphers.length % AES_BLOCKSIZE = 0 := mul_mod_right 16 _
  rw [length_joinBlocks, cbcDecrypt, if_neg (by omega), hmod, if_neg (by decide), hloop]
  rfl

lemma cbcDecrypt_pad {ciphers : List AesBlock} (hne : ciphers ≠ []) (hlarge : 16 * ciphers.length < 2 ^ 31)
    {out : Bytes} (hout : 16 * ciphers.length ≤ out.length) :
    ∃ n : ℤ, cbcDecrypt dec iv (joinBlocks ciphers) (joinBlocks ciphers).length true out =
        some (n, joinBlocks (chainDecrypt mixBlocks dec iv ciphers) ++ out.drop (16 * ciphers.length)) ∧
      ((∃ padsize, HasPadding (joinBlocks (chainDecrypt mixBlocks dec iv ciphers)) padsize ∧
          n = (16 * ciphers.length : ℕ) - padsize) ∨
        (n = 0 ∧ ∀ padsize, ¬HasPadding (joinBlocks (chainDecrypt mixBlocks dec iv ciphers)) padsize)) := by
  obtain ⟨k, hk⟩ := exists_eq_succ_of_ne_zero (length_pos_of_ne_nil hne).ne'
  have hloop := @decryptLoop_spec dec ciphers [] (16 * ciphers.length) (16 * ciphers.length + 1) iv out
    (by simp) hlarge (by omega) hout
  rw [nil_append, length_nil, take_zero, nil_append] at hloop
  have hmod : 16 * ciphers.length % AES_BLOCKSIZE = 0 := mul_mod_right 16 _
  have hlength : (joinBlocks (chainDecrypt mixBlocks dec iv ciphers)).length = 16 * ciphers.length := by
    rw [length_joinBlocks, length_chainDecrypt]
  obtain ⟨n, hrun, hn⟩ := @decryptPadding_eq
    (joinBlocks (chainDecrypt mixBlocks dec iv ciphers) ++ out.drop (16 * ciphers.length)) (16 * ciphers.length)
    (ciphers.getLastD iv) k (by rw [hk]) (by rw [length_append, hlength]; omega)
  rw [take_left' hlength] at hn
  refine ⟨n, ?_, hn⟩
  rw [length_joinBlocks, cbcDecrypt, if_neg (by omega), hmod, if_neg (by decide), hloop]
  dsimp only [bind, Option.bind]
  rw [if_pos rfl, hrun]
  rfl

end Decrypt

/-! ### Exactness -/

section Exact

variable (encrypt : AesBlock → Bool → Bytes → ℕ → Bytes → Option (ℕ × Bytes))
  (decrypt : AesBlock → Bool → Bytes → ℕ → Bytes → Option (ℤ × Bytes))

/-- The call writes the ciphertext over the front of the output. -/
def Encrypts (iv : AesBlock) (pad : Bool) (p c : Bytes) : Prop :=
  ∀ out : Bytes, c.length ≤ out.length → encrypt iv pad p p.length out = some (c.length, c ++ out.drop c.length)

/-- The call writes the plaintext and returns its length. -/
def Decrypts (iv : AesBlock) (pad : Bool) (c p : Bytes) : Prop :=
  ∀ out : Bytes, c.length ≤ out.length →
    ∃ rest, decrypt iv pad c c.length out = some ((p.length : ℤ), p ++ rest ++ out.drop c.length) ∧
      (p ++ rest).length = c.length

/-- Decryption inverts encryption, and refuses everything else. -/
structure CbcExact : Prop where
  padded : ∀ iv p, 1 ≤ p.length → p.length ≤ 2 ^ 31 - 17 →
    ∃ c, c.length = 16 * (p.length / 16 + 1) ∧ Encrypts encrypt iv true p c ∧ Decrypts decrypt iv true c p
  unpadded : ∀ iv p, 1 ≤ p.length → p.length ≤ 2 ^ 31 - 17 → p.length % 16 = 0 →
    ∃ c, c.length = p.length ∧ Encrypts encrypt iv false p c ∧ Decrypts decrypt iv false c p
  returned : ∀ iv c (out : Bytes), c.length < 2 ^ 31 → c.length ≤ out.length →
    ∃ (n : ℤ) (out' : Bytes), decrypt iv true c c.length out = some (n, out') ∧ out'.length = out.length ∧
      out'.drop c.length = out.drop c.length ∧
      (∀ m : ℕ, 0 < m → (n = m ↔ ∃ p, p.length = m ∧ Encrypts encrypt iv true p c)) ∧
      ∀ p, p ≠ [] → Encrypts encrypt iv true p c → n = p.length ∧ out'.take p.length = p

end Exact

section Exactness

variable {enc dec : AesBlock → AesBlock}

lemma encryptLoop_bounds {size fuel : ℕ} {s s' : EncryptState} (h : encryptLoop enc size fuel s = some s')
    (hwritten : 16 ∣ s.written) : 16 ∣ s'.written ∧ size < s'.written + 16 ∧ s'.written + 16 < 2 ^ 31 := by
  induction fuel generalizing s with
  | zero => cases h
  | succ fuel ih =>
    rw [encryptLoop] at h
    obtain ⟨next, hnext, h⟩ := Option.bind_eq_some_iff.mp h
    rw [addInt, Option.ite_none_right_eq_some, Option.some.injEq] at hnext
    obtain ⟨hlt, rfl⟩ := hnext
    by_cases hle : s.written + AES_BLOCKSIZE ≤ size
    · rw [if_pos hle] at h
      obtain ⟨⟨chunk, data⟩, -, h⟩ := Option.bind_eq_some_iff.mp h
      obtain ⟨out, -, h⟩ := Option.bind_eq_some_iff.mp h
      exact ih h (dvd_add hwritten (dvd_refl 16))
    · rw [if_neg hle] at h
      obtain rfl := Option.some.inj h
      exact ⟨hwritten, Nat.lt_of_not_le hle, hlt⟩

lemma length_le_of_encrypts {iv : AesBlock} {p c : Bytes} (hne : p ≠ [])
    (h : Encrypts (fun iv pad data size out => cbcEncrypt enc iv data size pad out) iv true p c) :
    p.length + 16 < 2 ^ 31 := by
  have hrun := h c le_rfl
  have hsize : p.length ≠ 0 := fun hzero => hne (eq_nil_of_length_eq_zero hzero)
  dsimp only at hrun
  rw [cbcEncrypt, if_neg hsize, if_neg (by simp)] at hrun
  obtain ⟨s, hloop, -⟩ := Option.bind_eq_some_iff.mp hrun
  obtain ⟨hdvd, hlt, hlarge⟩ := encryptLoop_bounds hloop (dvd_zero 16)
  omega

lemma encrypts_iff {iv : AesBlock} {p c : Bytes} (hne : p ≠ []) :
    Encrypts (fun iv pad data size out => cbcEncrypt enc iv data size pad out) iv true p c ↔
      p.length + 16 < 2 ^ 31 ∧
        ∃ blocks, joinBlocks blocks = padBytes p ∧ joinBlocks (chainEncrypt mixBlocks enc iv blocks) = c := by
  have hblocks := @exists_joinBlocks (p.length / 16 + 1) (padBytes p) (length_padBytes p)
  constructor
  · intro h
    have hlarge := length_le_of_encrypts hne h
    obtain ⟨blocks, hlength, hjoin⟩ := hblocks
    refine ⟨hlarge, blocks, hjoin, ?_⟩
    -- The two results for one large buffer are the same.
    have hrun := h (List.replicate (c.length + 16 * blocks.length) 0) (by simp)
    dsimp only at hrun
    rw [cbcEncrypt_pad hne hlarge hjoin (by simp)] at hrun
    obtain ⟨hsize, hout⟩ := Prod.mk.inj (Option.some.inj hrun)
    exact append_inj_left hout (by rw [length_joinBlocks, length_chainEncrypt, hsize])
  · rintro ⟨hlarge, blocks, hjoin, rfl⟩ out hout
    rw [length_joinBlocks, length_chainEncrypt] at hout ⊢
    exact cbcEncrypt_pad hne hlarge hjoin hout

lemma length_of_encrypts {iv : AesBlock} {p c : Bytes} (hne : p ≠ [])
    (h : Encrypts (fun iv pad data size out => cbcEncrypt enc iv data size pad out) iv true p c) :
    c.length = 16 * (p.length / 16 + 1) := by
  obtain ⟨-, blocks, hjoin, rfl⟩ := (encrypts_iff hne).mp h
  rw [length_joinBlocks, length_chainEncrypt, ← length_joinBlocks, hjoin, length_padBytes]

lemma encrypts_iff_padBytes (hdec : ∀ b, dec (enc b) = b) {iv : AesBlock} {p : Bytes} (hne : p ≠ [])
    {ciphers : List AesBlock} (hlarge : 16 * ciphers.length < 2 ^ 31) :
    Encrypts (fun iv pad data size out => cbcEncrypt enc iv data size pad out) iv true p (joinBlocks ciphers) ↔
      padBytes p = joinBlocks (chainDecrypt mixBlocks dec iv ciphers) := by
  rw [encrypts_iff hne]
  constructor
  · rintro ⟨-, blocks, hjoin, heq⟩
    obtain rfl := joinBlocks_injective heq
    rw [chainDecrypt_chainEncrypt hdec mixBlocks_mixBlocks_left, hjoin]
  · intro heq
    have hlength := congrArg List.length heq
    rw [length_padBytes, length_joinBlocks, length_chainDecrypt] at hlength
    refine ⟨by omega, _, heq.symm, ?_⟩
    rw [chainEncrypt_chainDecrypt (enc_dec_of_dec_enc hdec) mixBlocks_mixBlocks_right]

lemma decrypts_pad (hdec : ∀ b, dec (enc b) = b) {iv : AesBlock} {p : Bytes} {blocks : List AesBlock}
    (hlarge : p.length + 16 < 2 ^ 31) (hblocks : joinBlocks blocks = padBytes p) {out : Bytes}
    (hout : 16 * blocks.length ≤ out.length) :
    cbcDecrypt dec iv (joinBlocks (chainEncrypt mixBlocks enc iv blocks))
        (joinBlocks (chainEncrypt mixBlocks enc iv blocks)).length true out =
      some ((p.length : ℤ), padBytes p ++ out.drop (16 * blocks.length)) := by
  have hlength : 16 * blocks.length = 16 * (p.length / 16 + 1) := by
    rw [← length_joinBlocks, hblocks, length_padBytes]
  have hne : chainEncrypt mixBlocks enc iv blocks ≠ [] := by
    refine ne_nil_of_length_pos ?_
    rw [length_chainEncrypt]
    omega
  obtain ⟨n, hrun, hn⟩ := @cbcDecrypt_pad dec iv (chainEncrypt mixBlocks enc iv blocks) hne
    (by rw [length_chainEncrypt]; omega) out (by rwa [length_chainEncrypt])
  rw [chainDecrypt_chainEncrypt hdec mixBlocks_mixBlocks_left, hblocks, length_chainEncrypt] at hrun hn
  have hpad : HasPadding (padBytes p) (16 - p.length % 16) :=
    (hasPadding_iff (length_padBytes p)).mpr ⟨p, rfl, by rw [length_padBytes]; omega⟩
  rw [hrun]
  obtain ⟨padsize, hpadsize, rfl⟩ | ⟨-, hnone⟩ := hn
  · obtain rfl := hpadsize.unique (by rw [length_padBytes, mul_add]) hpad
    congr 2
    omega
  · exact absurd hpad (hnone _)

lemma cbcExact (hdec : ∀ b, dec (enc b) = b) :
    CbcExact (fun iv pad data size out => cbcEncrypt enc iv data size pad out)
      (fun iv pad data size out => cbcDecrypt dec iv data size pad out) where
  padded := by
    intro iv p hpos hlarge
    have hne : p ≠ [] := ne_nil_of_length_pos hpos
    obtain ⟨blocks, hlength, hblocks⟩ := @exists_joinBlocks (p.length / 16 + 1) (padBytes p) (length_padBytes p)
    refine ⟨joinBlocks (chainEncrypt mixBlocks enc iv blocks), ?_,
      (encrypts_iff hne).mpr ⟨by omega, blocks, hblocks, rfl⟩, fun out hout => ?_⟩
    · rw [length_joinBlocks, length_chainEncrypt, hlength]
    · rw [length_joinBlocks, length_chainEncrypt] at hout
      refine ⟨List.replicate (16 - p.length % 16) (UInt8.ofNat (16 - p.length % 16)), ?_, ?_⟩
      · dsimp only
        rw [decrypts_pad hdec (by omega) hblocks hout, length_joinBlocks, length_chainEncrypt]
        rfl
      · change (padBytes p).length = _
        rw [← hblocks, length_joinBlocks, length_joinBlocks, length_chainEncrypt]
  unpadded := by
    intro iv p hpos hlarge hmod
    obtain ⟨blocks, hlength, rfl⟩ := @exists_joinBlocks (p.length / 16) p (by omega)
    rw [length_joinBlocks] at hpos hlarge
    have hne : blocks ≠ [] := ne_nil_of_length_pos (by omega)
    refine ⟨joinBlocks (chainEncrypt mixBlocks enc iv blocks), ?_, fun out hout => ?_, fun out hout => ⟨[], ?_, ?_⟩⟩
    · rw [length_joinBlocks, length_joinBlocks, length_chainEncrypt]
    · rw [length_joinBlocks, length_chainEncrypt] at hout
      dsimp only
      rw [cbcEncrypt_noPad hne (by omega) hout, length_joinBlocks, length_chainEncrypt]
    · have hne' : chainEncrypt mixBlocks enc iv blocks ≠ [] := by
        refine ne_nil_of_length_pos ?_
        rw [length_chainEncrypt]
        omega
      rw [length_joinBlocks] at hout
      dsimp only
      rw [cbcDecrypt_noPad hne' (by rw [length_chainEncrypt]; omega) hout,
        chainDecrypt_chainEncrypt hdec mixBlocks_mixBlocks_left, length_joinBlocks, length_joinBlocks,
        length_chainEncrypt, append_nil]
    · rw [append_nil, length_joinBlocks, length_joinBlocks, length_chainEncrypt]
  returned := by
    intro iv c out hlarge hout
    by_cases hblocks : c.length ≠ 0 ∧ c.length % 16 = 0
    · obtain ⟨ciphers, hlength, rfl⟩ := @exists_joinBlocks (c.length / 16) c (by omega)
      rw [length_joinBlocks] at hblocks hlarge hout ⊢
      have hne : ciphers ≠ [] := ne_nil_of_length_pos (by omega)
      obtain ⟨n, hrun, hn⟩ := @cbcDecrypt_pad dec iv ciphers hne hlarge out hout
      have hjoin : (joinBlocks (chainDecrypt mixBlocks dec iv ciphers)).length = 16 * ciphers.length := by
        rw [length_joinBlocks, length_chainDecrypt]
      have hvalue : ∀ p, p ≠ [] → Encrypts (fun iv pad data size out => cbcEncrypt enc iv data size pad out) iv true p
          (joinBlocks ciphers) → n = p.length ∧ (joinBlocks (chainDecrypt mixBlocks dec iv ciphers) ++
            out.drop (16 * ciphers.length)).take p.length = p := by
        intro p hp hencrypts
        have hpad := (encrypts_iff_padBytes hdec hp hlarge).mp hencrypts
        have hsum : 16 * (p.length / 16 + 1) = 16 * ciphers.length := by rw [← length_padBytes, hpad, hjoin]
        have hpadding : HasPadding (joinBlocks (chainDecrypt mixBlocks dec iv ciphers)) (16 - p.length % 16) :=
          (hasPadding_iff (k := p.length / 16) (by rw [hjoin, hsum])).mpr ⟨p, hpad, by omega⟩
        constructor
        · obtain ⟨padsize, hpadsize, rfl⟩ | ⟨-, hnone⟩ := hn
          · obtain rfl := @HasPadding.unique _ (16 * (p.length / 16)) _ _ (by omega) hpadsize hpadding
            omega
          · exact absurd hpadding (hnone _)
        · rw [← hpad, padBytes, append_assoc, take_left]
      refine ⟨n, _, by rwa [length_joinBlocks] at hrun, ?_, ?_, fun m hm => ⟨fun heq => ?_, ?_⟩, hvalue⟩
      · rw [length_append, hjoin, length_drop]
        omega
      · rw [← hjoin, drop_left]
      · obtain ⟨padsize, hpadsize, hsize⟩ | ⟨hzero, -⟩ := hn
        · obtain ⟨p, hp, hsum⟩ := (hasPadding_iff (k := ciphers.length - 1) (by omega)).mp hpadsize
          have hpm : p.length = m := by omega
          exact ⟨p, hpm, (encrypts_iff_padBytes hdec (ne_nil_of_length_pos (by omega)) hlarge).mpr hp⟩
        · omega
      · rintro ⟨p, rfl, hencrypts⟩
        exact (hvalue p (ne_nil_of_length_pos hm) hencrypts).1
    · -- No ciphertext has this size.
      have hrun : cbcDecrypt dec iv c c.length true out = some (0, out) := by
        rw [cbcDecrypt]
        by_cases hzero : c.length = 0
        · rw [if_pos hzero]
        · rw [if_neg hzero, if_pos (show c.length % AES_BLOCKSIZE ≠ 0 from fun hmod => hblocks ⟨hzero, hmod⟩)]
      have hnone : ∀ p, p ≠ [] →
          ¬Encrypts (fun iv pad data size out => cbcEncrypt enc iv data size pad out) iv true p c := by
        intro p hp hencrypts
        have hlength := length_of_encrypts hp hencrypts
        exact hblocks ⟨by omega, by omega⟩
      refine ⟨0, out, hrun, rfl, rfl, fun m hm => ⟨fun heq => by omega, ?_⟩, fun p hp hp' => absurd hp' (hnone p hp)⟩
      rintro ⟨p, rfl, hencrypts⟩
      exact absurd hencrypts (hnone p (ne_nil_of_length_pos hm))

end Exactness

/-! ### The two ciphers -/

/-- For every key both ciphers are exactly invertible. -/
theorem aesCbc_exact (aes256 : Aes 32) (aes128 : Aes 16)
    (h256 : ∀ key block, aes256.decrypt key (aes256.encrypt key block) = block)
    (h128 : ∀ key block, aes128.decrypt key (aes128.encrypt key block) = block) :
    (∀ key, CbcExact (aes256CBCEncrypt aes256 key) (aes256CBCDecrypt aes256 key)) ∧
      ∀ key, CbcExact (aes128CBCEncrypt aes128 key) (aes128CBCDecrypt aes128 key) :=
  ⟨fun key => cbcExact (h256 key), fun key => cbcExact (h128 key)⟩

def blobOfNat (width n : ℕ) : BaseBlob width :=
  ⟨(List.range width).map fun i => UInt8.ofNat (n / 256 ^ (width - 1 - i)), by rw [length_map, length_range]⟩

def vectorCipher {keySize : ℕ} (v w : ℕ × ℕ) : Aes keySize :=
  let cipher : Equiv.Perm AesBlock :=
    (Equiv.swap (blobOfNat 16 v.1) (blobOfNat 16 v.2)).trans (Equiv.swap (blobOfNat 16 w.1) (blobOfNat 16 w.2))
  ⟨fun _ => cipher, fun _ => cipher.symm⟩

lemma vectorCipher_decrypt {keySize : ℕ} (v w : ℕ × ℕ) (key : BaseBlob keySize) (block : AesBlock) :
    (vectorCipher v w).decrypt key ((vectorCipher v w).encrypt key block) = block := Equiv.symm_apply_apply _ _

def vector256 : Aes 32 :=
  vectorCipher (0x6bc0bce12a459991e134741a7f9e1925, 0xf58c4c04d6e5f1ba779eabfb5f7bfbd6)
    (0xe59c5c14c6f5e1aa678ebbeb4f6bebc6, 0x485a5c81519cf378fa36d42b8547edc0)

def vector128 : Aes 16 :=
  vectorCipher (0x6bc0bce12a459991e134741a7f9e1925, 0x7649abac8119b246cee98e9b12e9197d)
    (0x6659bbbc9109a256def99e8b02f9096d, 0x8964e0b149c10b7b682e6e39aaeb731c)

theorem aesCbc_exact_vectors :
    (∀ key, CbcExact (aes256CBCEncrypt vector256 key) (aes256CBCDecrypt vector256 key)) ∧
      (∀ key, CbcExact (aes128CBCEncrypt vector128 key) (aes128CBCDecrypt vector128 key)) ∧
      aes128CBCEncrypt vector128 (blobOfNat 16 0x2b7e151628aed2a6abf7158809cf4f3c)
          (blobOfNat 16 0x000102030405060708090a0b0c0d0e0f) true (blobOfNat 16 0x6bc1bee22e409f96e93d7e117393172a).data 16
          (List.replicate 32 0) =
        some (32, (blobOfNat 32 0x7649abac8119b246cee98e9b12e9197d8964e0b149c10b7b682e6e39aaeb731c).data) := by
  have hexact := aesCbc_exact vector256 vector128 (vectorCipher_decrypt _ _) (vectorCipher_decrypt _ _)
  exact ⟨hexact.1, hexact.2, by decide +kernel⟩

end MutableBitcoin
