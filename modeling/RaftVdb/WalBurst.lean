import RaftVdb.Lib.ShiftRegister
import RaftVdb.Wal

/-!
# The record checksum and bursts

`ComputeCrc32` is a shift register over the bits of the payload, the lowest bit of each byte
first. Two payloads of one length that differ within 32 consecutive bits have different
checksums, so a record whose payload was altered that way is neither read nor recovered.
-/

namespace RaftVdb.Wal

open Lib ShiftRegister

/-- The bits of a payload in the order in which `ComputeCrc32` consumes them. -/
def bitsOf (payload : Bytes) : List Bool := payload.flatMap fun byte => bits 8 byte.toNat

/-- The payloads have one length, and differ, but only within 32 consecutive bits. -/
structure Burst (payload altered : Bytes) : Prop where
  length : altered.length = payload.length
  ne : altered ≠ payload
  within : Within 32 (bitsOf altered) (bitsOf payload)

/-! ## The checksum as a shift register -/

theorem bitsOf_cons (byte : UInt8) (payload : Bytes) : bitsOf (byte :: payload) = bits 8 byte.toNat ++ bitsOf payload :=
  List.flatMap_cons

theorem crcBit_toBitVec (crc : UInt32) : (crcBit crc).toBitVec = shift 0xEDB88320#32 crc.toBitVec := by
  have hmask : (0 - (crc &&& 1)).toBitVec = if crc.toBitVec.getLsbD 0 then BitVec.allOnes 32 else 0#32 := by
    have hlow : (crc &&& 1).toBitVec = BitVec.setWidth 32 (BitVec.ofBool (crc.toBitVec.getLsbD 0)) := by
      rw [UInt32.toBitVec_and]
      exact BitVec.and_one_eq_setWidth_ofBool_getLsbD
    rw [UInt32.toBitVec_sub, hlow]
    cases crc.toBitVec.getLsbD 0 <;> decide
  rw [crcBit, UInt32.toBitVec_xor, UInt32.toBitVec_and, hmask, shift_eq_xor]
  cases crc.toBitVec.getLsbD 0 <;> simp

theorem iterate_crcBit_toBitVec (crc : UInt32) (n : Nat) :
    (crcBit^[n] crc).toBitVec = (shift 0xEDB88320#32)^[n] crc.toBitVec := by
  induction n generalizing crc with
  | zero => rfl
  | succ n ih => rw [Function.iterate_succ_apply, Function.iterate_succ_apply, ih, crcBit_toBitVec]

theorem crcByte_toBitVec (crc : UInt32) (byte : UInt8) :
    (crcByte crc byte).toBitVec = run 0xEDB88320#32 crc.toBitVec (bits 8 byte.toNat) := by
  have hword : byte.toUInt32.toBitVec = BitVec.ofNat 32 byte.toNat := by
    refine BitVec.eq_of_toNat_eq ?_
    simp
  rw [crcByte, iterate_crcBit_toBitVec, UInt32.toBitVec_xor, hword]
  exact iterate_shift _ _ (by decide) byte.toNat_lt

theorem foldl_crcByte_toBitVec (crc : UInt32) (payload : Bytes) :
    (payload.foldl crcByte crc).toBitVec = run 0xEDB88320#32 crc.toBitVec (bitsOf payload) := by
  induction payload generalizing crc with
  | nil => rfl
  | cons byte payload ih =>
    rw [List.foldl_cons, ih, crcByte_toBitVec, bitsOf_cons, run_append]

theorem length_bitsOf (payload : Bytes) : (bitsOf payload).length = 8 * payload.length := by
  induction payload with
  | nil => rfl
  | cons byte payload ih =>
    rw [bitsOf_cons, List.length_append, length_bits, List.length_cons, ih]
    omega

theorem toNat_eq_of_bits {a b : UInt8} (h : bits 8 a.toNat = bits 8 b.toNat) : a = b := by
  refine UInt8.toNat_inj.mp (Nat.eq_of_testBit_eq fun i => ?_)
  rcases Nat.lt_or_ge i 8 with hlt | hge
  · exact List.map_inj_left.mp h i (List.mem_range.mpr hlt)
  · have hle : 2 ^ 8 ≤ 2 ^ i := Nat.pow_le_pow_right (by decide) hge
    rw [Nat.testBit_lt_two_pow (Nat.lt_of_lt_of_le a.toNat_lt hle), Nat.testBit_lt_two_pow (Nat.lt_of_lt_of_le b.toNat_lt hle)]

theorem bitsOf_injective {p q : Bytes} (h : bitsOf p = bitsOf q) : p = q := by
  induction p generalizing q with
  | nil =>
    cases q with
    | nil => rfl
    | cons b q =>
      have hlength := congrArg List.length h
      rw [length_bitsOf, length_bitsOf] at hlength
      simp at hlength
  | cons a p ih =>
    cases q with
    | nil =>
      have hlength := congrArg List.length h
      rw [length_bitsOf, length_bitsOf] at hlength
      simp at hlength
    | cons b q =>
      rw [bitsOf_cons, bitsOf_cons] at h
      obtain ⟨hbyte, hrest⟩ := List.append_inj h (by rw [length_bits, length_bits])
      rw [toNat_eq_of_bits hbyte, ih hrest]

theorem Burst.crc_ne {payload altered : Bytes} (h : Burst payload altered) :
    computeCrc32 altered ≠ computeCrc32 payload := by
  intro heq
  have hfold : altered.foldl crcByte 0xFFFFFFFF = payload.foldl crcByte 0xFFFFFFFF := by
    rw [computeCrc32, computeCrc32] at heq
    exact UInt32.not_inj.mp heq
  have hrun := congrArg UInt32.toBitVec hfold
  rw [foldl_crcByte_toBitVec, foldl_crcByte_toBitVec] at hrun
  refine run_ne_of_within (by decide) (by decide) ?_ (fun hbits => h.ne (bitsOf_injective hbits)) h.within _ hrun
  rw [length_bitsOf, length_bitsOf, h.length]

/-! ## A record with an altered payload -/

variable {codec : EntryCodec} {payload altered : Bytes}

theorem Burst.readRecordAt (h : Burst payload altered) (codec : EntryCodec) (front rear : Bytes)
    (hlength : payload.length < 2 ^ 32) :
    readRecordAt codec (front ++ recordHeader payload ++ altered ++ rear) front.length = .error "WAL CRC 校验失败" := by
  rw [readRecordAt_recordHeader codec front rear hlength h.length, if_pos h.crc_ne]

/-- What the loop of a recovery indexes has been read. -/
theorem indexed_of_recoverLoop {path : Nat} {bytes : Bytes} {fuel offset lastIndex i : Nat}
    {offsetIndex : Table Nat EntryLocation} {loc : EntryLocation}
    (h : (recoverLoop codec path bytes fuel offset lastIndex offsetIndex).2.2.1.find? i = some loc) :
    offsetIndex.find? i = some loc ∨ (loc.path = path ∧ ∃ r, Wal.readRecordAt codec bytes loc.offset = .ok r) := by
  induction fuel generalizing offset lastIndex offsetIndex with
  | zero => exact .inl h
  | succ fuel ih =>
    rw [recoverLoop] at h
    split at h
    · cases hread : Wal.readRecordAt codec bytes offset with
      | error err =>
        rw [hread] at h
        exact .inl h
      | ok r =>
        obtain ⟨entry, size⟩ := r
        rw [hread] at h
        cases ih h with
        | inl hfind =>
          rw [Table.find?_insert] at hfind
          split at hfind
          · cases hfind
            exact .inr ⟨rfl, _, hread⟩
          · exact .inl hfind
        | inr hnew => exact .inr hnew
    · exact .inl h

/-- The record at this place of a file is neither read nor indexed by a recovery, and a
recovery that comes to it ends there. -/
structure Refused (codec : EntryCodec) (bytes : Bytes) (offset : Nat) : Prop where
  read : ∀ (w : Wal) i path f, w.offsetIndex.find? i = some ⟨path, offset⟩ → w.dir.find? path = some f →
    f.bytes = bytes → w.read codec i = .error "WAL CRC 校验失败"
  recover : ∀ (w : Wal) i path f, w.dir.find? path = some f → f.bytes = bytes →
    w.offsetIndex.find? i ≠ some ⟨path, offset⟩ → (w.recoverSegment codec path).1.offsetIndex.find? i ≠ some ⟨path, offset⟩
  stops : ∀ path fuel lastIndex offsetIndex, recoverLoop codec path bytes (fuel + 1) offset lastIndex offsetIndex =
    (offset, lastIndex, offsetIndex, true)

/-- Payloads that differ by a burst have different checksums, and a record whose payload was
altered by a burst behind its header is refused, wherever it stands. -/
theorem burst_detected (codec : EntryCodec) (payload altered : Bytes) (h : Burst payload altered) :
    computeCrc32 altered ≠ computeCrc32 payload ∧ (payload.length < 2 ^ 32 → ∀ front rear,
      Refused codec (front ++ recordHeader payload ++ altered ++ rear) front.length) := by
  refine ⟨h.crc_ne, fun hlength front rear => ⟨?_, ?_, ?_⟩⟩
  · intro w i path f hfind hfile hbytes
    rw [Wal.read, hfind]
    dsimp only
    rw [hfile]
    dsimp only
    rw [hbytes, h.readRecordAt codec front rear hlength]
    rfl
  · intro w i path f hfile hbytes hold hnew
    rw [recoverSegment] at hnew
    dsimp only at hnew
    rw [hfile, Option.getD_some, hbytes] at hnew
    cases indexed_of_recoverLoop hnew with
    | inl hfind => exact hold hfind
    | inr hread =>
      obtain ⟨-, r, hr⟩ := hread
      rw [h.readRecordAt codec front rear hlength] at hr
      cases hr
  · intro path fuel lastIndex offsetIndex
    rw [recoverLoop, h.readRecordAt codec front rear hlength, if_pos]
    have hheader : kRecordHeaderSize = 12 := rfl
    simp only [List.length_append, length_recordHeader]
    omega

/-- 32 bits are flipped, from the second bit of the second byte on. -/
theorem burst_detected_across_five_bytes :
    computeCrc32 [7, 0xFF, 0xFF, 0xFF, 0xFF, 0x01, 9] ≠ computeCrc32 [7, 0x01, 0, 0, 0, 0, 9] ∧
      Refused ⟨fun _ => [], fun _ => some {}⟩
        ([1, 2] ++ recordHeader [7, 0x01, 0, 0, 0, 0, 9] ++ [7, 0xFF, 0xFF, 0xFF, 0xFF, 0x01, 9] ++ [3]) 2 := by
  have hburst : Burst [7, 0x01, 0, 0, 0, 0, 9] [7, 0xFF, 0xFF, 0xFF, 0xFF, 0x01, 9] := by
    refine ⟨rfl, by decide, 9, fun i hi => ?_⟩
    have hlt : i < 56 := by
      by_contra hge
      rw [List.getElem?_eq_none (by simpa [length_bitsOf] using hge),
        List.getElem?_eq_none (by simpa [length_bitsOf] using hge)] at hi
      exact hi rfl
    have hall : ∀ i < 56, (bitsOf [7, 0xFF, 0xFF, 0xFF, 0xFF, 0x01, 9])[i]? ≠ (bitsOf [7, 0x01, 0, 0, 0, 0, 9])[i]? →
        9 ≤ i ∧ i < 9 + 32 := by decide
    exact hall i hlt hi
  obtain ⟨hcrc, hrefused⟩ := burst_detected ⟨fun _ => [], fun _ => some {}⟩ _ _ hburst
  exact ⟨hcrc, hrefused (by decide) [1, 2] [3]⟩

end RaftVdb.Wal
