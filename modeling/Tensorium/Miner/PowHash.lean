import Tensorium.Miner.TensorHash

/-! # One proof-of-work hash for the node and the miners

    The hash of the miner is BLAKE2b of RFC 7693 for every length, and the two
    proof-of-work hashes built on it, on the host and on the device, are the
    `pow_hash` the node validates blocks with, whatever their local arrays held.
-/

namespace Tensorium.Miner

open ByteCodec

/-! ## The compression function -/

theorem thB2bIv_eq : thB2bIv = Blake2b.iv := by decide

theorem thG_eq (v : Vector UInt64 16) (a b c d : Fin 16) (x y : UInt64) :
    thG v a b c d x y = Blake2b.mix v a b c d x y := by
  have h32 : ∀ z, thRotr64 z 32 = Blake2b.rotateRight z 32 := fun _ => rfl
  have h24 : ∀ z, thRotr64 z 24 = Blake2b.rotateRight z 24 := fun _ => rfl
  have h16 : ∀ z, thRotr64 z 16 = Blake2b.rotateRight z 16 := fun _ => rfl
  have h63 : ∀ z, thRotr64 z 63 = Blake2b.rotateRight z 63 := fun _ => rfl
  unfold thG Blake2b.mix
  simp only [h32, h24, h16, h63]

/-- The last two rows of the table of the miner are its first two again. -/
theorem thB2bSigma_eq : ∀ r < 12,
    thB2bSigma.get (Fin.ofNat 12 r) = Blake2b.sigma.get (Fin.ofNat 10 r) := by
  decide

theorem thRound_eq (m v : Vector UInt64 16) {r : Nat} (hr : r < 12) :
    thRound m v r = Blake2b.round m v (Blake2b.sigma.get (Fin.ofNat 10 r)) := by
  unfold thRound Blake2b.round
  simp only [thB2bSigma_eq r hr, thG_eq]

/-- A word from its bytes, most significant last. -/
def ofBytes : Bytes → UInt64
  | [] => 0
  | b :: bs => (ofBytes bs <<< 8) ||| b.toUInt64

theorem toNat_shift_or {w : UInt64} (hw : w.toNat < 2 ^ 56) (b : UInt8) :
    ((w <<< 8) ||| b.toUInt64).toNat = b.toNat + 256 * w.toNat := by
  have hb := b.toNat_lt
  have hshift : w.toNat <<< 8 < 2 ^ 64 := by
    rw [Nat.shiftLeft_eq]
    omega
  have height : (8 : UInt64).toNat % 64 = 8 := rfl
  rw [UInt64.toNat_or, UInt64.toNat_shiftLeft, height, Nat.mod_eq_of_lt hshift,
    UInt8.toNat_toUInt64, ← Nat.shiftLeft_add_eq_or_of_lt (by omega), Nat.shiftLeft_eq]
  omega

theorem toNat_ofBytes {bs : Bytes} (h : bs.length ≤ 8) : (ofBytes bs).toNat = leNat bs := by
  induction bs with
  | nil => rfl
  | cons b bs ih =>
    have hlen : bs.length ≤ 7 := Nat.le_of_succ_le_succ h
    have hbs : (ofBytes bs).toNat = leNat bs := ih (hlen.trans (by omega))
    have hbound : leNat bs < 2 ^ 56 := by
      have hpow : 256 ^ bs.length ≤ 256 ^ 7 := Nat.pow_le_pow_right (by omega) hlen
      exact lt_of_lt_of_le (leNat_lt bs) (hpow.trans_eq (by norm_num))
    rw [ofBytes, toNat_shift_or (by rwa [hbs]), hbs, leNat]

theorem le64Load_eq {b : Bytes} {off : Nat} (h : off + 8 ≤ b.length) :
    le64Load b off = UInt64.ofNat (leNat ((b.drop off).take 8)) := by
  have hget : ∀ k, b.getD (off + k) 0 = (b.drop off).getD k 0 := by
    intro k
    rw [List.getD_eq_getElem?_getD, List.getD_eq_getElem?_getD, List.getElem?_drop]
  have hlen : 8 ≤ (b.drop off).length := by
    rw [List.length_drop]
    omega
  unfold le64Load
  simp only [hget]
  generalize b.drop off = bs at hlen
  rw [← toNat_ofBytes (by simp), UInt64.ofNat_toNat]
  match bs, hlen with
  | _ :: _ :: _ :: _ :: _ :: _ :: _ :: _ :: _, _ => rfl

/-- The work vector: the upper half of the counter changes nothing. -/
theorem thWorkVector_eq (h : Vector UInt64 8) (t : UInt64) (last : Bool) :
    thWorkVector h t last = Blake2b.workVector h t.toNat last := by
  have hconcat : (h ++ Blake2b.iv : Vector UInt64 16) = Vector.ofFn fun i : Fin 16 =>
      if hi : i.val < 8 then h[i.val] else thB2bIv[i.val - 8] := by
    ext i hi
    rw [Vector.getElem_append, Vector.getElem_ofFn, thB2bIv_eq]
  have hupper : UInt64.ofNat (t.toNat / 2 ^ 64) = 0 := by
    rw [Nat.div_eq_of_lt t.toNat_lt]
    rfl
  have hflip : ∀ x : UInt64, x ^^^ 0xffffffffffffffff = ~~~ x := fun x =>
    UInt64.toBitVec_inj.mp BitVec.xor_allOnes
  unfold thWorkVector Blake2b.workVector
  simp only [hconcat, hupper, UInt64.ofNat_toNat, UInt64.xor_zero, Vector.set_getElem_self, hflip]

theorem thBlake2bCompress_eq (h : Vector UInt64 8) {block : Bytes} (hblock : 128 ≤ block.length)
    (t : UInt64) (last : Bool) :
    thBlake2bCompress h block t last
      = Blake2b.compress h (Blake2b.words (block.take 128)) t.toNat last := by
  have hwords : (Vector.ofFn fun i : Fin 16 => le64Load block (i * 8))
      = Blake2b.words (block.take 128) := by
    unfold Blake2b.words Blake2b.word
    congr 1
    funext i
    have hi : 8 * i.val + 8 ≤ 128 := by omega
    rw [le64Load_eq (by omega), Nat.mul_comm i.val 8, List.drop_take, List.take_take,
      Nat.min_eq_left (by omega)]
  have hrounds : ∀ v, (List.range 12).foldl (thRound (Blake2b.words (block.take 128))) v
      = (List.range 12).foldl (fun v i => Blake2b.round (Blake2b.words (block.take 128)) v
          (Blake2b.sigma.get (Fin.ofNat 10 i))) v := by
    intro v
    apply List.foldl_ext
    intro v r hr
    exact thRound_eq _ v (List.mem_range.mp hr)
  unfold thBlake2bCompress Blake2b.compress
  rw [thWorkVector_eq, hwords]
  simp only [hrounds, UInt64.xor_assoc]
  rfl

/-! ## Bytes of words -/

theorem le64Bytes_eq (n : Nat) (v : UInt64) : le64Bytes n v = leBytes n v.toNat := by
  induction n generalizing v with
  | zero => rfl
  | succ n ih =>
    have hshift : (v >>> 8).toNat = v.toNat / 256 := by
      rw [UInt64.toNat_shiftRight]
      exact Nat.shiftRight_eq_div_pow _ 8
    rw [le64Bytes, leBytes, ih, hshift]
    rfl

/-- Each byte by the division that brings it down. -/
theorem leBytes_eq_map (n x : Nat) :
    leBytes n x = (List.range n).map fun j => UInt8.ofNat (x / 256 ^ j) := by
  induction n generalizing x with
  | zero => rfl
  | succ n ih =>
    rw [leBytes, ih, List.range_succ_eq_map, List.map_cons, List.map_map]
    congr 1
    · simp
    · apply List.map_congr_left
      intro j _
      simp [Nat.div_div_eq_div_mul, pow_succ']

theorem byte_of_word (w : UInt64) {j : Nat} (hj : j < 8) :
    (w >>> UInt64.ofNat (8 * j)).toUInt8 = UInt8.ofNat (w.toNat / 256 ^ j) := by
  have hj' : (UInt64.ofNat (8 * j)).toNat % 64 = 8 * j := by
    rw [UInt64.toNat_ofNat']
    omega
  apply UInt8.toNat_inj.mp
  rw [UInt64.toNat_toUInt8, UInt64.toNat_shiftRight, hj', Nat.shiftRight_eq_div_pow, pow_mul,
    UInt8.toNat_ofNat']
  norm_num

theorem take_flatMap {α β : Type} {g : α → List β} {n : Nat} (hg : ∀ x, (g x).length = n)
    (l : List α) (k : Nat) : (l.flatMap g).take (n * k) = (l.take k).flatMap g := by
  induction k generalizing l with
  | zero => simp
  | succ k ih =>
    cases l with
    | nil => simp
    | cons x l =>
      have hhead : (g x).length ≤ n * (k + 1) := by
        rw [hg, Nat.mul_succ]
        omega
      rw [List.flatMap_cons, List.take_succ_cons, List.flatMap_cons, List.take_append, hg, ← ih,
        List.take_of_length_le hhead, Nat.mul_succ, Nat.add_sub_cancel]

/-- The bytes that are written out are those of the first four words. -/
theorem digest_bytes (h : Vector UInt64 8) :
    ((List.range 32).map fun i =>
      (h.get (Fin.ofNat 8 (i / 8)) >>> UInt64.ofNat (8 * (i % 8))).toUInt8)
      = (h.toList.flatMap fun w => leBytes 8 w.toNat).take 32 := by
  have hbytes : ∀ w : UInt64, leBytes 8 w.toNat
      = (List.range 8).map fun j => (w >>> UInt64.ofNat (8 * j)).toUInt8 := by
    intro w
    rw [leBytes_eq_map]
    exact List.map_congr_left fun j hj => (byte_of_word w (List.mem_range.mp hj)).symm
  have htake : h.toList.take 4 = [h[0], h[1], h[2], h[3]] := by
    apply List.ext_getElem
    · simp
    · intro i _ hi
      have hi4 : i < 4 := hi
      interval_cases i <;> simp
  have hdigest : (h.toList.flatMap fun w => leBytes 8 w.toNat).take 32
      = (h.toList.take 4).flatMap fun w => leBytes 8 w.toNat :=
    take_flatMap (fun w => length_leBytes 8 w.toNat) h.toList 4
  rw [hdigest, htake]
  simp only [hbytes]
  rfl
/-! ## The hash -/

/-- The state after the first `k` blocks. -/
def stateAfter (msg : Bytes) (k : Nat) : Vector UInt64 8 :=
  (List.range k).foldl
    (fun h i => Blake2b.compress h (Blake2b.block msg i) ((i + 1) * 128) false)
    (Blake2b.initial 32)

theorem stateAfter_succ (msg : Bytes) (k : Nat) :
    stateAfter msg (k + 1)
      = Blake2b.compress (stateAfter msg k) (Blake2b.block msg k) ((k + 1) * 128) false := by
  rw [stateAfter, List.range_succ, List.foldl_append]
  rfl

/-- A block that lies within the message has no padding. -/
theorem block_full {data : Bytes} {len k : Nat} (hlen : len ≤ data.length)
    (hk : 128 * k + 128 ≤ len) :
    Blake2b.block (data.take len) k = Blake2b.words ((data.drop (128 * k)).take 128) := by
  have hmsg : (data.take len).length = len := List.length_take_of_le hlen
  unfold Blake2b.block
  dsimp only
  rw [List.drop_append_of_le_length (by omega), List.drop_take,
    List.take_append_of_le_length (by rw [List.length_take, List.length_drop]; omega),
    List.take_take, Nat.min_eq_left (by omega)]

/-- The loop takes in all blocks but the last. -/
theorem thAbsorb_eq {data : Bytes} {len : Nat} (hlen : len ≤ data.length) (hlt : len < 2 ^ 32)
    (n k : Nat) (hk : k + n = Blake2b.blockCount len - 1) :
    thAbsorb data len (stateAfter (data.take len) k) (128 * k)
      = (stateAfter (data.take len) (Blake2b.blockCount len - 1),
        128 * (Blake2b.blockCount len - 1)) := by
  have hcount : Blake2b.blockCount len = max 1 ((len + 127) / 128) := rfl
  induction n generalizing k with
  | zero =>
    rw [thAbsorb, if_neg (by omega), ← hk, Nat.add_zero]
  | succ n ih =>
    have hfull : 128 * k + 128 ≤ len := by omega
    have hmore : len - 128 * k > 128 := by omega
    have hblock : 128 ≤ (data.drop (128 * k)).length := by
      rw [List.length_drop]
      omega
    have hcounter : (UInt64.ofNat (128 * k) + 128).toNat = (k + 1) * 128 := by
      have h128 : (128 : UInt64).toNat = 128 := rfl
      rw [UInt64.toNat_add, UInt64.toNat_ofNat', h128]
      omega
    rw [thAbsorb, if_pos hmore, thBlake2bCompress_eq _ hblock, hcounter, ← block_full hlen hfull,
      ← stateAfter_succ]
    exact ih (k + 1) (by omega)

/-- The last block, padded with zeros. -/
theorem block_last {data : Bytes} {len off dd : Nat} (hlen : len ≤ data.length)
    (hoff : off + 128 = 128 * dd) (hdd : len ≤ 128 * dd) :
    (List.range 128).map (fun i => if i < len - off then data.getD (off + i) 0 else 0)
      = ((data.take len ++ List.replicate (128 * dd - len) 0).drop off).take 128 := by
  have hmsg : (data.take len).length = len := List.length_take_of_le hlen
  apply List.ext_getElem
  · simp
    omega
  · intro i hi hi'
    have hi128 : i < 128 := by simpa using hi
    rw [List.getElem_map, List.getElem_range, List.getElem_take, List.getElem_drop]
    by_cases hin : i < len - off
    · have hdata : off + i < data.length := by omega
      rw [if_pos hin, List.getElem_append_left (by omega), List.getElem_take,
        List.getD_eq_getElem?_getD, List.getElem?_eq_getElem hdata, Option.getD_some]
    · rw [if_neg hin, List.getElem_append_right (by omega), List.getElem_replicate]

/-- **`th_blake2b256` is BLAKE2b-256**, of every message up to 2^32 - 1 bytes. -/
theorem thBlake2b256_eq {data : Bytes} {len : Nat} (hlen : len ≤ data.length)
    (hlt : len < 2 ^ 32) : thBlake2b256 data len = Blake2b.hash 32 (data.take len) := by
  have hmsg : (data.take len).length = len := List.length_take_of_le hlen
  have hcount : Blake2b.blockCount len = max 1 ((len + 127) / 128) := rfl
  have hcounter : (UInt64.ofNat len).toNat = len := by
    rw [UInt64.toNat_ofNat']
    omega
  have habsorb : thAbsorb data len (Blake2b.initial 32) 0
      = (stateAfter (data.take len) (Blake2b.blockCount len - 1),
        128 * (Blake2b.blockCount len - 1)) :=
    thAbsorb_eq hlen hlt (Blake2b.blockCount len - 1) 0 (Nat.zero_add _)
  have hoff : 128 * (Blake2b.blockCount len - 1) + 128 = 128 * Blake2b.blockCount len := by omega
  have hinitial : thB2bIv.set 0 (thB2bIv[0] ^^^ (0x01010000 ^^^ 32)) = Blake2b.initial 32 := by
    rw [thB2bIv_eq, ← UInt64.xor_assoc]
    rfl
  unfold thBlake2b256 Blake2b.hash Blake2b.block
  simp only [hinitial, habsorb, hmsg]
  rw [thBlake2bCompress_eq _ (by simp), hcounter, block_last hlen hoff (by omega), digest_bytes,
    List.take_take, Nat.min_self]
  unfold stateAfter Blake2b.block
  simp only [hmsg]

/-! ## Buffers -/

theorem storeBytes_eq {b bytes : Bytes} {off : Nat} (h : off + bytes.length ≤ b.length) :
    storeBytes b off bytes = b.take off ++ bytes ++ b.drop (off + bytes.length) := by
  induction bytes generalizing b off with
  | nil => simp [storeBytes]
  | cons byte bytes ih =>
    have hlt : off < b.length := by
      rw [List.length_cons] at h
      omega
    rw [storeBytes, ih (by rw [List.length_set]; rw [List.length_cons] at h; omega),
      List.take_add_one, List.take_set_of_le (Nat.le_refl off), List.getElem?_set_self hlt,
      List.drop_set_of_lt (by omega), List.length_cons, Nat.add_assoc off 1, Nat.add_comm 1]
    simp

theorem storeBytes_append (b : Bytes) (off : Nat) (xs ys : Bytes) :
    storeBytes b off (xs ++ ys) = storeBytes (storeBytes b off xs) (off + xs.length) ys := by
  induction xs generalizing b off with
  | nil => rfl
  | cons x xs ih =>
    rw [List.cons_append, storeBytes, storeBytes, ih, List.length_cons, Nat.add_assoc,
      Nat.add_comm 1]

/-- What is hashed after a store at the end of what was hashed before. -/
theorem take_storeBytes (b : Bytes) (off : Nat) (bytes : Bytes)
    (h : off + bytes.length ≤ b.length) :
    (storeBytes b off bytes).take (off + bytes.length) = b.take off ++ bytes := by
  have hlen : (b.take off ++ bytes).length = off + bytes.length := by
    rw [List.length_append, List.length_take_of_le (by omega)]
  rw [storeBytes_eq h, List.take_append_of_le_length (by omega), List.take_of_length_le (by omega)]

theorem length_storeBytes (b : Bytes) (off : Nat) (bytes : Bytes) :
    (storeBytes b off bytes).length = b.length := by
  induction bytes generalizing b off with
  | nil => rfl
  | cons byte bytes ih => rw [storeBytes, ih, List.length_set]

theorem le64Store_eq (b : Bytes) (off : Nat) (v : UInt64) :
    le64Store b off v = storeBytes b off (leBytes 8 v.toNat) := by
  rw [le64Store, le64Bytes_eq]

/-! ## The proof-of-work hash -/

section powHash

variable {P : Primitives}

theorem nextAcc_eq (acc elem : Vector UInt64 4) :
    nextAcc acc elem = TensorHash.tensorMix acc elem := by
  have hnext : ∀ m : Fin 4, ⟨(m.val + 1) &&& 3, Nat.lt_succ_of_le Nat.and_le_right⟩ = m + 1 := by
    decide
  unfold nextAcc TensorHash.tensorMix
  simp only [hnext]
  rfl

theorem load4_eq {bytes : Bytes} (h : 32 ≤ bytes.length) :
    (Vector.ofFn fun m : Fin 4 => le64Load bytes (m * 8)) = TensorHash.bytesToU64x4 bytes := by
  unfold TensorHash.bytesToU64x4
  congr 1
  funext m
  rw [le64Load_eq (by omega), Nat.mul_comm m.val 8]

/-- The hash of a buffer up to the end of a store. -/
theorem hash_store (b : Bytes) (off : Nat) (bytes : Bytes) (h : off + bytes.length ≤ b.length)
    (hlt : off + bytes.length < 2 ^ 32) :
    thBlake2b256 (storeBytes b off bytes) (off + bytes.length)
      = Blake2b.hash 32 (b.take off ++ bytes) := by
  rw [thBlake2b256_eq (by rwa [length_storeBytes]) hlt, take_storeBytes b off bytes h]

/-- Forty bytes of a local array: 32 that were copied, and a number behind them. -/
theorem hash_forty {buf : Bytes} (hbuf : buf.length = 40) (v : UInt64) :
    thBlake2b256 (le64Store buf 32 v) 40 = Blake2b.hash 32 (buf.take 32 ++ leBytes 8 v.toNat) := by
  have hstore := hash_store buf 32 (leBytes 8 v.toNat)
    (by rw [length_leBytes]; omega) (by rw [length_leBytes]; omega)
  rwa [length_leBytes, ← le64Store_eq] at hstore

/-- The loop over the lookups. -/
theorem lookups_eq (hP : ∀ data, (P.blake2b256 data).bytes = Blake2b.hash 32 data)
    {seed digest : Hash256} {element : UInt64 → Vector UInt64 4}
    (helement : ∀ idx : UInt64, idx.toNat < thDatasetN → element idx
      = TensorHash.bytesToU64x4 (TensorHash.datasetElement P seed idx.toNat).bytes)
    {js : List Nat} (hjs : ∀ j ∈ js, j < 2 ^ 64) {ibuf : Bytes} (hlen : ibuf.length = 40)
    (hdigest : ibuf.take 32 = digest.bytes) (acc : Vector UInt64 4) :
    (js.foldl (fun (r : Vector UInt64 4 × Bytes) j =>
        let ibuf := le64Store r.2 32 (UInt64.ofNat j)
        let iseed := thBlake2b256 ibuf 40
        let idx := le64Load iseed 0 % UInt64.ofNat thDatasetN
        (nextAcc r.1 (element idx), ibuf)) (acc, ibuf)).1
      = js.foldl (fun acc j =>
          let idxSeed := P.blake2b256 (digest.bytes ++ leBytes 8 j)
          let idx := leNat (idxSeed.bytes.take 8) % TensorHash.datasetN
          TensorHash.tensorMix acc
            (TensorHash.bytesToU64x4 (TensorHash.datasetElement P seed idx).bytes)) acc := by
  induction js generalizing acc ibuf with
  | nil => rfl
  | cons j js ih =>
    have hj : (UInt64.ofNat j).toNat = j := by
      rw [UInt64.toNat_ofNat']
      exact Nat.mod_eq_of_lt (hjs j List.mem_cons_self)
    -- The buffer holds the digest and, behind it, the number of the lookup.
    have hiseed : thBlake2b256 (le64Store ibuf 32 (UInt64.ofNat j)) 40
        = (P.blake2b256 (digest.bytes ++ leBytes 8 j)).bytes := by
      rw [hash_forty hlen, hdigest, hj, hP]
    have hsize := (P.blake2b256 (digest.bytes ++ leBytes 8 j)).size
    have hidx : (le64Load (P.blake2b256 (digest.bytes ++ leBytes 8 j)).bytes 0
        % UInt64.ofNat thDatasetN).toNat
        = leNat ((P.blake2b256 (digest.bytes ++ leBytes 8 j)).bytes.take 8)
          % TensorHash.datasetN := by
      have hword : leNat ((P.blake2b256 (digest.bytes ++ leBytes 8 j)).bytes.take 8) < 2 ^ 64 := by
        have hlt := leNat_lt ((P.blake2b256 (digest.bytes ++ leBytes 8 j)).bytes.take 8)
        rw [List.length_take, hsize] at hlt
        exact lt_of_lt_of_eq hlt (by norm_num)
      have hN : (UInt64.ofNat thDatasetN).toNat = TensorHash.datasetN := rfl
      rw [le64Load_eq (by omega), List.drop_zero, UInt64.toNat_mod, UInt64.toNat_ofNat',
        Nat.mod_eq_of_lt hword, hN]
    have hbound : leNat ((P.blake2b256 (digest.bytes ++ leBytes 8 j)).bytes.take 8)
        % TensorHash.datasetN < thDatasetN := Nat.mod_lt _ (by decide)
    rw [List.foldl_cons, List.foldl_cons]
    dsimp only
    rw [hiseed, nextAcc_eq, helement _ (by rwa [hidx]), hidx]
    -- Storing the number leaves the digest in front.
    apply ih (fun j' hj' => hjs j' (List.mem_cons_of_mem j hj'))
    · rw [le64Store_eq, length_storeBytes, hlen]
    · rw [le64Store_eq, storeBytes_eq (by rw [length_leBytes]; omega), List.append_assoc,
        List.take_append_of_le_length (by rw [List.length_take]; omega), List.take_take,
        Nat.min_self, hdigest]

/-- The accumulator behind the nonce. -/
theorem store_acc (b : Bytes) (off : Nat) (acc : Vector UInt64 4) :
    (List.finRange 4).foldl (fun buf m => le64Store buf (off + m.val * 8) (acc.get m)) b
      = storeBytes b off (TensorHash.u64x4ToBytes acc) := by
  have hlist : acc.toList = [acc.get 0, acc.get 1, acc.get 2, acc.get 3] := by
    apply List.ext_getElem
    · simp
    · intro i _ hi
      have hi4 : i < 4 := hi
      interval_cases i <;> simp [Vector.get]
  have hrange : List.finRange 4 = [0, 1, 2, 3] := rfl
  unfold TensorHash.u64x4ToBytes
  rw [hlist, hrange]
  simp only [List.foldl_cons, List.foldl_nil, le64Store_eq, List.flatMap_cons, List.flatMap_nil,
    List.append_nil, storeBytes_append, length_leBytes]
  rfl

/-- The body of both miners' functions computes `pow_hash`, if its elements are those
    of the dataset. -/
theorem powHashWith_eq (hP : ∀ data, (P.blake2b256 data).bytes = Blake2b.hash 32 data)
    {seed : Hash256} {element : UInt64 → Vector UInt64 4}
    (helement : ∀ idx : UInt64, idx.toNat < thDatasetN → element idx
      = TensorHash.bytesToU64x4 (TensorHash.datasetElement P seed idx.toNat).bytes)
    (buf : Vector UInt8 (thPrefixMax + 8 + 32)) (ibuf : Vector UInt8 40) {headerBytes : Bytes}
    (hheader : headerBytes.length ≤ thPrefixMax) (nonce : UInt64) :
    powHashWith element buf ibuf headerBytes nonce
      = (TensorHash.powHash P headerBytes nonce seed).bytes := by
  have hbuf : buf.toList.length = 184 + 8 + 32 := buf.length_toList
  have hmax : headerBytes.length ≤ 184 := hheader
  -- The header, then the nonce behind it.
  have hnonce : le64Store (storeBytes buf.toList 0 headerBytes) headerBytes.length nonce
      = storeBytes buf.toList 0 (headerBytes ++ leBytes 8 nonce.toNat) := by
    rw [le64Store_eq, storeBytes_append, Nat.zero_add]
  have hdigest : thBlake2b256 (storeBytes buf.toList 0 (headerBytes ++ leBytes 8 nonce.toNat))
      (headerBytes.length + 8)
      = (P.blake2b256 (headerBytes ++ leBytes 8 nonce.toNat)).bytes := by
    have hstore := hash_store buf.toList 0 (headerBytes ++ leBytes 8 nonce.toNat)
      (by simp; omega) (by simp; omega)
    rw [hP]
    simpa using hstore
  have hsize := (P.blake2b256 (headerBytes ++ leBytes 8 nonce.toNat)).size
  unfold powHashWith TensorHash.powHash
  dsimp only
  rw [hnonce, hdigest, load4_eq (by omega)]
  have hibuf : (storeBytes ibuf.toList 0
      (P.blake2b256 (headerBytes ++ leBytes 8 nonce.toNat)).bytes).take 32
      = (P.blake2b256 (headerBytes ++ leBytes 8 nonce.toNat)).bytes := by
    have htake := take_storeBytes ibuf.toList 0
      (P.blake2b256 (headerBytes ++ leBytes 8 nonce.toNat)).bytes (by simp [hsize])
    rwa [hsize] at htake
  have hjs : ∀ j ∈ List.range thK, j < 2 ^ 64 := fun j hj =>
    lt_trans (List.mem_range.mp hj) (by decide)
  have hlookups := lookups_eq hP helement hjs (by rw [length_storeBytes, Vector.length_toList]) hibuf
    (TensorHash.bytesToU64x4 (P.blake2b256 (headerBytes ++ leBytes 8 nonce.toNat)).bytes)
  dsimp only at hlookups
  have hK : thK = TensorHash.lookups := rfl
  rw [hlookups, store_acc, hK]
  -- The accumulator behind both, and the hash of all three.
  generalize hacc : List.foldl _ _ (List.range TensorHash.lookups) = acc
  have hwords : (TensorHash.u64x4ToBytes acc).length = 32 := by
    simp [TensorHash.u64x4ToBytes, List.length_flatMap]
  have hall : storeBytes (storeBytes buf.toList 0 (headerBytes ++ leBytes 8 nonce.toNat))
      (headerBytes.length + 8) (TensorHash.u64x4ToBytes acc)
      = storeBytes buf.toList 0
        (headerBytes ++ leBytes 8 nonce.toNat ++ TensorHash.u64x4ToBytes acc) := by
    rw [storeBytes_append _ _ (headerBytes ++ leBytes 8 nonce.toNat), Nat.zero_add,
      List.length_append, length_leBytes]
  have hstore := hash_store buf.toList 0
    (headerBytes ++ leBytes 8 nonce.toNat ++ TensorHash.u64x4ToBytes acc)
    (by simp [hwords]; omega) (by simp [hwords]; omega)
  have hlength : (headerBytes ++ leBytes 8 nonce.toNat ++ TensorHash.u64x4ToBytes acc).length
      = headerBytes.length + 8 + 32 := by
    rw [List.length_append, List.length_append, length_leBytes, hwords]
  rw [hlength, Nat.zero_add, List.take_zero, List.nil_append] at hstore
  rw [hall, hP]
  exact hstore

/-! ## Host and device -/

theorem hostDatasetElement_eq (hP : ∀ data, (P.blake2b256 data).bytes = Blake2b.hash 32 data)
    (elementBuf : Vector UInt8 40) (seed : Hash256) (idx : UInt64) :
    hostDatasetElement elementBuf seed.bytes idx
      = (TensorHash.datasetElement P seed idx.toNat).bytes := by
  have hseed := take_storeBytes elementBuf.toList 0 seed.bytes (by simp [seed.size])
  rw [seed.size] at hseed
  unfold hostDatasetElement TensorHash.datasetElement
  rw [hash_forty (by rw [length_storeBytes, Vector.length_toList]), hseed, hP]
  rfl

theorem hostPowHash_eq (hP : ∀ data, (P.blake2b256 data).bytes = Blake2b.hash 32 data)
    {headerBytes : Bytes} (hheader : headerBytes.length ≤ thPrefixMax) (nonce : UInt64)
    (seed : Hash256) (buf : Vector UInt8 (thPrefixMax + 8 + 32))
    (ibuf elementBuf : Vector UInt8 40) :
    hostPowHash buf ibuf elementBuf headerBytes nonce seed.bytes
      = (TensorHash.powHash P headerBytes nonce seed).bytes := by
  apply powHashWith_eq hP _ buf ibuf hheader
  intro idx _
  dsimp only
  rw [hostDatasetElement_eq hP]
  exact load4_eq (Hash256.size _).ge

/-- Four words of a row of the dataset. -/
theorem ldg_row {dataset : Nat → UInt8} {i : Nat} {row : Bytes}
    (h : (List.range 32).map (fun k => dataset (i * 32 + k)) = row) :
    (Vector.ofFn fun m : Fin 4 => ldg dataset (i * 32 + m * 8))
      = TensorHash.bytesToU64x4 row := by
  have hrange : ∀ m : Fin 4, ((List.range 32).drop (8 * m)).take 8
      = (List.range 8).map fun k => m.val * 8 + k := by decide
  subst h
  unfold TensorHash.bytesToU64x4 ldg
  apply congrArg Vector.ofFn
  funext m
  rw [← List.map_drop, ← List.map_take, hrange, List.map_map]
  simp only [Function.comp_def, Nat.add_assoc]

/-- **All implementations agree.** The host and the device of the miner compute the
    `pow_hash` of the node for every header prefix of at most `TH_PREFIX_MAX` bytes,
    nonce and seed, on a dataset whose rows are hashes of the seed and their index;
    and their BLAKE2b is that of RFC 7693 for messages of every length. -/
theorem implementations_agree (hP : ∀ data, (P.blake2b256 data).bytes = Blake2b.hash 32 data)
    {headerBytes : Bytes} (hheader : headerBytes.length ≤ thPrefixMax) (nonce : UInt64)
    (seed : Hash256) {dataset : Nat → UInt8}
    (hdataset : ∀ i < thDatasetN, (List.range 32).map (fun k => dataset (i * 32 + k))
      = thBlake2b256 (seed.bytes ++ leBytes 8 i) 40)
    (buf : Vector UInt8 (thPrefixMax + 8 + 32)) (ibuf elementBuf : Vector UInt8 40) :
    hostPowHash buf ibuf elementBuf headerBytes nonce seed.bytes
        = (TensorHash.powHash P headerBytes nonce seed).bytes ∧
      thPowHashDevice dataset buf ibuf headerBytes nonce
        = (TensorHash.powHash P headerBytes nonce seed).bytes ∧
      ∀ data : Bytes, data.length < 2 ^ 32 →
        thBlake2b256 data data.length = Blake2b.hash 32 data := by
  refine ⟨?_, ?_, ?_⟩
  · exact hostPowHash_eq hP hheader nonce seed buf ibuf elementBuf
  · apply powHashWith_eq hP _ buf ibuf hheader
    intro idx hidx
    have hlen : (seed.bytes ++ leBytes 8 idx.toNat).length = 40 := by simp [seed.size]
    have hrow := hdataset idx.toNat hidx
    rw [thBlake2b256_eq hlen.ge (by norm_num), List.take_of_length_le hlen.le, ← hP] at hrow
    exact ldg_row hrow
  · intro data hdata
    rw [thBlake2b256_eq (Nat.le_refl _) hdata, List.take_length]

end powHash

/-! ## On a dataset of its own -/

/-- The primitives with the BLAKE2b of RFC 7693. -/
def rfc7693 : Primitives :=
  { Primitives.sample with
    blake2b256 := fun data => ⟨Blake2b.hash 32 data, Blake2b.length_hash (by decide) data⟩ }

/-- The memory of the device once all rows are in it. -/
def fullDataset (seed : Hash256) (address : Nat) : UInt8 :=
  (thBlake2b256 (seed.bytes ++ leBytes 8 (address / 32)) 40).getD (address % 32) 0

theorem fullDataset_row (seed : Hash256) (i : Nat) :
    (List.range 32).map (fun k => fullDataset seed (i * 32 + k))
      = thBlake2b256 (seed.bytes ++ leBytes 8 i) 40 := by
  have hlen : (thBlake2b256 (seed.bytes ++ leBytes 8 i) 40).length = 32 := by
    simp [thBlake2b256]
  apply List.ext_getElem
  · simp [hlen]
  · intro k hk hk'
    have hk32 : k < 32 := by simpa using hk
    have hdiv : (i * 32 + k) / 32 = i := by omega
    have hmod : (i * 32 + k) % 32 = k := by omega
    rw [List.getElem_map, List.getElem_range, fullDataset, hdiv, hmod,
      List.getD_eq_getElem?_getD, List.getElem?_eq_getElem hk', Option.getD_some]

/-- The input of the known-answer test: 24 bytes of header. -/
def katHeader : Bytes := "tensorhash-v1-kat-vector".toList.map fun c => UInt8.ofNat c.toNat

theorem implementations_agree_kat :
    hostPowHash (Vector.replicate _ 0) (Vector.replicate _ 0) (Vector.replicate _ 0) katHeader
        12345 Hash256.zero.bytes
      = thPowHashDevice (fullDataset Hash256.zero) (Vector.replicate _ 0) (Vector.replicate _ 0)
        katHeader 12345 := by
  have hagree := implementations_agree (P := rfc7693) (fun _ => rfl)
    (by decide : katHeader.length ≤ thPrefixMax) 12345 Hash256.zero
    (fun i _ => fullDataset_row Hash256.zero i) (Vector.replicate _ 0) (Vector.replicate _ 0)
    (Vector.replicate _ 0)
  exact hagree.1.trans hagree.2.1.symm

end Tensorium.Miner
