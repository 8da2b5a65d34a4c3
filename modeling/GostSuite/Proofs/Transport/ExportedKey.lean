import GostSuite.Proofs.Mac.Plain
import GostSuite.Transport.ExportedKey

/-!
# A record is read if it was made

Making a record and reading one each come down to one expression in the keystream and the code
(`make_eq`, `read_eq`): a record is the key and its code, masked, and a reader takes the mask off,
cuts the code away and computes it again. From the two expressions everything else is read off.

The point of the comparison is that the code is compared as a whole. A reader who accepts knows that
what he cut away is the code of what he kept, so the record is what would have been made of that
key, and since masking loses nothing it is that record and no other.
-/

set_option autoImplicit false

namespace GostSuite

namespace ExportedKey

variable {a : Algorithm} {cipherKey macKey : Key} {iv : ByteString}

def keystream (a : Algorithm) (cipherKey : Key) (iv : ByteString) : Nat → UInt8 :=
  CounterStream.keystreamByte (.ofKey a cipherKey) iv 0

def fullCode (a : Algorithm) (macKey : Key) (iv key : ByteString) : Block a :=
  Omac.wholeCode (.ofKey a macKey) (iv ++ key)

/-! ## 1. Both directions in closed form -/

theorem plain_ok (hiv : iv.length = a.halfBlockLen) :
    CounterStream.plain a cipherKey iv = .ok (.start (.ofKey a cipherKey) iv 0) :=
  CounterStream.ofCipher_ok _ hiv (Nat.zero_mod _)

theorem plain_wrong_length (hiv : iv.length ≠ a.halfBlockLen) :
    CounterStream.plain a cipherKey iv = .error (.invalidLength a.halfBlockLen iv.length) :=
  CounterStream.ofCipher_wrong_length _ hiv (Nat.zero_mod _)

theorem plain_eq_ok_iff {stream : CounterStream a} :
    CounterStream.plain a cipherKey iv = .ok stream ↔
      iv.length = a.halfBlockLen ∧ stream = .start (.ofKey a cipherKey) iv 0 := by
  rw [CounterStream.plain, CounterStream.ofCipher_eq_ok_iff, and_iff_right (Nat.zero_mod _)]

theorem apply_start (data : ByteString) :
    ((CounterStream.start (.ofKey a cipherKey) iv 0).apply data).1 =
      data.mask (keystream a cipherKey iv) 0 := by
  obtain ⟨_, happly, -⟩ :=
    (CounterStream.Given.start (.ofKey a cipherKey) iv (Nat.zero_mod _)).apply data
  rw [happly]
  rfl

/-- The code is that of the initial value and the key in one, and it is never refused. -/
theorem code_eq (a : Algorithm) (macKey : Key) (iv key : ByteString) :
    code a macKey iv key = .ok ⟨(fullCode a macKey iv key).toList⟩ := by
  obtain ⟨m₁, hbegun, hiv⟩ := (Omac.Fed.ofCipher (.ofKey a macKey)).update iv
  obtain ⟨m₂, hfed, hkey⟩ := hiv.update key
  have hfinish : m₂.finish.answer = .ok ⟨(fullCode a macKey iv key).toList⟩ := by
    rw [hkey.finish, Tag.ofBlock_whole]
    rfl
  change (do
    ((Omac.ofCipher (.ofKey a macKey)).update iv).answer
    (((Omac.ofCipher (.ofKey a macKey)).update iv).after.update key).answer
    (((Omac.ofCipher (.ofKey a macKey)).update iv).after.update key).after.finish.answer) = _
  rw [hbegun]
  change (do
    (m₁.update key).answer
    (m₁.update key).after.finish.answer) = _
  rw [hfed]
  exact hfinish

theorem make_eq (a : Algorithm) (key : ByteString) (cipherKey macKey : Key) (iv : ByteString) :
    make a key cipherKey macKey iv =
      if iv.length = a.halfBlockLen then
        .ok ((key ++ (fullCode a macKey iv key).toList).mask (keystream a cipherKey iv) 0)
      else .error (.invalidLength a.halfBlockLen iv.length) := by
  rw [make, code_eq]
  split
  · rename_i hiv
    rw [plain_ok hiv, ← apply_start]
    rfl
  · rename_i hiv
    rw [plain_wrong_length hiv]
    rfl

/-- What a record holds in the place of its key. -/
def keyPart (a : Algorithm) (cipherKey : Key) (iv record : ByteString) : ByteString :=
  (record.mask (keystream a cipherKey iv) 0).take (record.length - a.blockLen)

/-- What a record holds in the place of its code. -/
def codePart (a : Algorithm) (cipherKey : Key) (iv record : ByteString) : ByteString :=
  (record.mask (keystream a cipherKey iv) 0).drop (record.length - a.blockLen)

theorem fields_of_le (cipherKey : Key) (iv : ByteString) {record : ByteString}
    (hlen : a.blockLen ≤ record.length) (malformed : Error) :
    Record.field malformed (record.length - a.blockLen)
        (record.mask (keystream a cipherKey iv) 0) =
        .ok (keyPart a cipherKey iv record, codePart a cipherKey iv record) ∧
      Record.field malformed a.blockLen (codePart a cipherKey iv record) =
        .ok (codePart a cipherKey iv record, []) := by
  have hcode : (codePart a cipherKey iv record).length = a.blockLen := by
    rw [codePart, List.length_drop, ByteString.length_mask]
    omega
  constructor
  · rw [Record.field_of_le malformed (by rw [ByteString.length_mask]; omega)]
    rfl
  · rw [Record.field_of_le malformed (Nat.le_of_eq hcode.symm),
      List.take_of_length_le (Nat.le_of_eq hcode), List.drop_eq_nil_of_le (Nat.le_of_eq hcode)]

theorem read_eq (a : Algorithm) (record : ByteString) (cipherKey macKey : Key) (iv : ByteString) :
    read a record cipherKey macKey iv =
      if record.length < a.blockLen then .error (.invalidLength a.blockLen record.length)
      else if iv.length = a.halfBlockLen then
        if codePart a cipherKey iv record =
            (fullCode a macKey iv (keyPart a cipherKey iv record)).toList then
          .ok (keyPart a cipherKey iv record)
        else .error .badMac
      else .error (.invalidLength a.halfBlockLen iv.length) := by
  rw [read]
  by_cases hlen : record.length < a.blockLen
  · rw [if_pos hlen, if_pos hlen]
    rfl
  rw [if_neg hlen, if_neg hlen]
  by_cases hiv : iv.length = a.halfBlockLen
  · obtain ⟨hkey, hcode⟩ := fields_of_le cipherKey iv (Nat.le_of_not_lt hlen)
      (.invalidLength a.blockLen record.length)
    have hright := Tag.verify_iff ⟨(fullCode a macKey iv (keyPart a cipherKey iv record)).toList⟩
      (codePart a cipherKey iv record)
    rw [plain_ok hiv, if_pos hiv]
    simp only [bind, Except.bind, apply_start, hkey, hcode, code_eq]
    by_cases hsame : codePart a cipherKey iv record =
        (fullCode a macKey iv (keyPart a cipherKey iv record)).toList
    · rw [hright.mpr hsame, if_pos hsame]
      rfl
    · have hwrong := Bool.eq_false_iff.mpr fun h => hsame (hright.mp h)
      rw [hwrong, if_neg hsame]
      rfl
  · rw [plain_wrong_length hiv, if_neg hiv]
    rfl

/-! ## 2. What is read -/

theorem make_eq_ok_iff {key record : ByteString} :
    make a key cipherKey macKey iv = .ok record ↔
      iv.length = a.halfBlockLen ∧
        record = (key ++ (fullCode a macKey iv key).toList).mask (keystream a cipherKey iv) 0 := by
  rw [make_eq, accepted_eq_ok_iff, Except.ok.injEq, eq_comm (b := record)]

theorem read_eq_ok_iff {key record : ByteString} :
    read a record cipherKey macKey iv = .ok key ↔
      a.blockLen ≤ record.length ∧ iv.length = a.halfBlockLen ∧
        key = keyPart a cipherKey iv record ∧
        codePart a cipherKey iv record = (fullCode a macKey iv key).toList := by
  rw [read_eq, refused_eq_ok_iff, accepted_eq_ok_iff, accepted_eq_ok_iff, Nat.not_lt,
    Except.ok.injEq]
  constructor
  · rintro ⟨hlen, hiv, hcode, rfl⟩
    exact ⟨hlen, hiv, rfl, hcode⟩
  · rintro ⟨hlen, hiv, rfl, hcode⟩
    exact ⟨hlen, hiv, hcode, rfl⟩

theorem read_ne_short {record : ByteString} (hlen : a.blockLen ≤ record.length) :
    read a record cipherKey macKey iv ≠ .error (.invalidLength a.blockLen record.length) := by
  have hhalf : a.halfBlockLen ≠ a.blockLen := by cases a <;> decide
  rw [read_eq, if_neg (Nat.not_lt_of_le hlen)]
  split
  · split <;> simp
  · simp [hhalf]

theorem length_of_make {key record : ByteString}
    (h : make a key cipherKey macKey iv = .ok record) : record.length = recordLen a key.length := by
  obtain ⟨-, rfl⟩ := make_eq_ok_iff.mp h
  rw [ByteString.length_mask, List.length_append, Bytes.length_toList, recordLen]

/-- The two parts of a record that was made are what it was made of. -/
theorem parts_of_make {key record : ByteString}
    (h : make a key cipherKey macKey iv = .ok record) :
    keyPart a cipherKey iv record = key ∧
      codePart a cipherKey iv record = (fullCode a macKey iv key).toList := by
  have hlen := length_of_make h
  obtain ⟨-, rfl⟩ := make_eq_ok_iff.mp h
  have hcut : key.length =
      ((key ++ (fullCode a macKey iv key).toList).mask (keystream a cipherKey iv) 0).length -
        a.blockLen := by
    rw [hlen, recordLen, Nat.add_sub_cancel]
  rw [keyPart, codePart, ← hcut, ByteString.mask_mask, List.take_left, List.drop_left]
  exact ⟨rfl, rfl⟩

theorem make_of_read {key record : ByteString} (h : read a record cipherKey macKey iv = .ok key) :
    make a key cipherKey macKey iv = .ok record := by
  obtain ⟨-, hiv, hkey, hcode⟩ := read_eq_ok_iff.mp h
  refine make_eq_ok_iff.mpr ⟨hiv, ?_⟩
  rw [← hcode, hkey, keyPart, codePart, List.take_append_drop, ByteString.mask_mask]

theorem read_of_make {key record : ByteString} (h : make a key cipherKey macKey iv = .ok record) :
    read a record cipherKey macKey iv = .ok key := by
  obtain ⟨hkey, hcode⟩ := parts_of_make h
  have hlen : a.blockLen ≤ record.length := by
    rw [length_of_make h, recordLen]
    exact Nat.le_add_left ..
  exact read_eq_ok_iff.mpr ⟨hlen, (make_eq_ok_iff.mp h).1, hkey.symm, hcode⟩

/-- **A record is read if it was made.** Reading gives a key exactly if that key makes the record
under the same keys and the same initial value. Every key can be made into a record, of a block more
than its length, if the initial value is half a block. A record that is not read is too short, or
the initial value is not half a block, or it was not made under these keys, in this order; that a
field is missing is never the reason. -/
theorem reads_iff_makes (a : Algorithm) (cipherKey macKey : Key) (iv record : ByteString) :
    (∀ key, read a record cipherKey macKey iv = .ok key ↔
      make a key cipherKey macKey iv = .ok record) ∧
    (∀ key, (∃ made, make a key cipherKey macKey iv = .ok made) ↔ iv.length = a.halfBlockLen) ∧
    (∀ key made, make a key cipherKey macKey iv = .ok made →
      made.length = key.length + a.blockLen) ∧
    (read a record cipherKey macKey iv = .error (.invalidLength a.blockLen record.length) ↔
      record.length < a.blockLen) ∧
    (a.blockLen ≤ record.length → iv.length ≠ a.halfBlockLen →
      read a record cipherKey macKey iv =
        .error (.invalidLength a.halfBlockLen iv.length)) ∧
    (a.blockLen ≤ record.length → iv.length = a.halfBlockLen →
      (∀ key, make a key cipherKey macKey iv ≠ .ok record) →
      read a record cipherKey macKey iv = .error .badMac) ∧
    (a.blockLen ≤ record.length → ∀ stream, CounterStream.plain a cipherKey iv = .ok stream →
      ∀ malformed, ∃ key received,
        Record.field malformed (record.length - a.blockLen) (stream.apply record).1 =
            .ok (key, received) ∧
          Record.field malformed a.blockLen received = .ok (received, [])) := by
  have hreads : ∀ key, read a record cipherKey macKey iv = .ok key ↔
      make a key cipherKey macKey iv = .ok record := fun _ => ⟨make_of_read, read_of_make⟩
  refine ⟨hreads, fun key => ?_, fun key made => length_of_make, ?_, ?_, ?_, ?_⟩
  · constructor
    · rintro ⟨made, h⟩
      exact (make_eq_ok_iff.mp h).1
    · intro hiv
      exact ⟨_, make_eq_ok_iff.mpr ⟨hiv, rfl⟩⟩
  · constructor
    · intro h
      by_contra hlen
      exact read_ne_short (Nat.le_of_not_lt hlen) h
    · intro hlen
      rw [read_eq, if_pos hlen]
  · intro hlen hiv
    rw [read_eq, if_neg (Nat.not_lt_of_le hlen), if_neg hiv]
  · intro hlen hiv hmade
    have hunread : ∀ key, read a record cipherKey macKey iv ≠ .ok key := fun key h =>
      hmade key ((hreads key).mp h)
    rw [read_eq, if_neg (Nat.not_lt_of_le hlen), if_pos hiv] at hunread ⊢
    exact eq_error_of_ne_ok hunread
  · intro hlen stream hstream malformed
    obtain ⟨-, rfl⟩ := plain_eq_ok_iff.mp hstream
    rw [apply_start]
    exact ⟨_, _, fields_of_le cipherKey iv hlen malformed⟩

end ExportedKey

end GostSuite
