import GostSuite.Proofs.Bytes.Cutting
import GostSuite.Proofs.Cipher.Permutation
import GostSuite.Transport.WrappedKey

/-!
# A wrapped key is unwrapped if it was wrapped

A record has three parts, and the first one decides the cipher for the other two. So whoever reads a
record works under the cipher that its maker worked under, and block by block he undoes what the
maker did, or the maker does what he undoes: a cipher is a permutation in both directions
(`wrapped_unwrapped`, `unwrapped_wrapped`). What is left is the code. It is a function of the first
part and the key, so a record that is accepted is settled by its first forty bytes, and it is the
record that its maker would have written.
-/

set_option autoImplicit false

namespace GostSuite

namespace WrappedKey

/-! ## 1. Keys as four blocks -/

theorem length_keyBlocks (key : Key) : (keyBlocks key).length = 4 := by
  rw [keyBlocks, ByteString.length_blocks_fst (by decide), key.length_toList]

theorem join_keyBlocks (key : Key) : ByteString.join (keyBlocks key) = key.toList := by
  have hrest : (key.toList.blocks 8).2 = [] := by
    apply List.eq_nil_of_length_eq_zero
    rw [ByteString.length_blocks_snd (by decide), key.length_toList]
  have hjoin := ByteString.join_blocks (n := 8) (by decide) key.toList
  rwa [hrest, List.append_nil] at hjoin

theorem ofBlocks_keyBlocks (key : Key) : ofBlocks (keyBlocks key) = key := by
  rw [ofBlocks, join_keyBlocks, Bytes.padded_toList]

/-- The key with a function made on each of its blocks. -/
def mapBlocks (f : Bytes 8 → Bytes 8) (key : Key) : Key := ofBlocks ((keyBlocks key).map f)

theorem toList_mapBlocks (f : Bytes 8 → Bytes 8) (key : Key) :
    (mapBlocks f key).toList = ByteString.join ((keyBlocks key).map f) :=
  Bytes.toList_padded (by rw [ByteString.length_join, List.length_map, length_keyBlocks])

theorem keyBlocks_mapBlocks (f : Bytes 8 → Bytes 8) (key : Key) :
    keyBlocks (mapBlocks f key) = (keyBlocks key).map f := by
  rw [keyBlocks, toList_mapBlocks, ByteString.blocks_join (by decide)]

/-- What undoes a function on blocks undoes it on keys. -/
theorem mapBlocks_mapBlocks {f g : Bytes 8 → Bytes 8} (h : ∀ b, g (f b) = b) (key : Key) :
    mapBlocks g (mapBlocks f key) = key := by
  have hundo : g ∘ f = id := funext h
  rw [mapBlocks, keyBlocks_mapBlocks, List.map_map, hundo, List.map_id, ofBlocks_keyBlocks]

def wrapped (c : Cipher .gost89) (key : Key) : Key := mapBlocks c.encrypt key

def unwrapped (c : Cipher .gost89) (sent : Key) : Key := mapBlocks c.decrypt sent

theorem unwrapped_wrapped (c : Cipher .gost89) (key : Key) : unwrapped c (wrapped c key) = key :=
  mapBlocks_mapBlocks c.decrypt_encrypt key

theorem wrapped_unwrapped (c : Cipher .gost89) (sent : Key) :
    wrapped c (unwrapped c sent) = sent :=
  mapBlocks_mapBlocks c.encrypt_decrypt sent

/-! ## 2. Records as three parts -/

def ukmPart (record : ByteString) : Bytes 8 := .padded 8 (record.take ukmLen)

def sentPart (record : ByteString) : Key := .padded 32 ((record.drop ukmLen).take keyLen)

def codePart (record : ByteString) : ByteString :=
  ((record.drop ukmLen).drop keyLen).take codeLen

theorem parts_append {record : ByteString} (hlen : record.length = recordLen) :
    (ukmPart record).toList ++ (sentPart record).toList ++ codePart record = record := by
  have hukm : (record.take ukmLen).length = 8 := by
    rw [List.length_take, hlen]
    rfl
  have hsent : ((record.drop ukmLen).take keyLen).length = 32 := by
    rw [List.length_take, List.length_drop, hlen]
    rfl
  have hcode : ((record.drop ukmLen).drop keyLen).length ≤ codeLen := by
    rw [List.length_drop, List.length_drop, hlen]
    exact Nat.le_refl _
  rw [ukmPart, sentPart, codePart, Bytes.toList_padded hukm, Bytes.toList_padded hsent,
    List.take_of_length_le hcode, List.append_assoc, List.take_append_drop, List.take_append_drop]

/-- Parts that are put together are taken apart again. -/
theorem parts_of_append (ukm : Bytes 8) (sent : Key) {code : ByteString}
    (hcode : code.length = codeLen) :
    let record := ukm.toList ++ sent.toList ++ code
    record.length = recordLen ∧ ukmPart record = ukm ∧ sentPart record = sent ∧
      codePart record = code := by
  intro record
  have hukm : ukmLen = ukm.toList.length := ukm.length_toList.symm
  have hsent : keyLen = sent.toList.length := sent.length_toList.symm
  have hrest : record.drop ukmLen = sent.toList ++ code := by
    rw [hukm]
    change (ukm.toList ++ sent.toList ++ code).drop _ = _
    rw [List.append_assoc, List.drop_left]
  refine ⟨?_, ?_, ?_, ?_⟩
  · change (ukm.toList ++ sent.toList ++ code).length = _
    rw [List.length_append, List.length_append, hcode, ← hukm, ← hsent]
    rfl
  · change Bytes.padded 8 ((ukm.toList ++ sent.toList ++ code).take ukmLen) = ukm
    rw [List.append_assoc, hukm, List.take_left, Bytes.padded_toList]
  · rw [sentPart, hrest, hsent, List.take_left, Bytes.padded_toList]
  · rw [codePart, hrest, hsent, List.drop_left, List.take_of_length_le (Nat.le_of_eq hcode)]

theorem fields_of_length {record : ByteString} (hlen : record.length = recordLen)
    (malformed : Error) :
    Record.field malformed ukmLen record = .ok (record.take ukmLen, record.drop ukmLen) ∧
      Record.field malformed keyLen (record.drop ukmLen) =
        .ok ((record.drop ukmLen).take keyLen, (record.drop ukmLen).drop keyLen) ∧
      Record.field malformed codeLen ((record.drop ukmLen).drop keyLen) =
        .ok (codePart record, []) := by
  have hsum : recordLen = ukmLen + keyLen + codeLen := rfl
  have hcode : ((record.drop ukmLen).drop keyLen).length = codeLen := by
    rw [List.length_drop, List.length_drop]
    omega
  refine ⟨Record.field_of_le _ (by omega),
    Record.field_of_le _ (by rw [List.length_drop]; omega), ?_⟩
  rw [Record.field_of_le _ (Nat.le_of_eq hcode.symm), List.drop_eq_nil_of_le (Nat.le_of_eq hcode)]
  rfl

/-! ## 3. Both directions in closed form -/

variable {params : ParamSet} {kek : Key}

theorem length_code (c : Cipher .gost89) (ukm : Bytes 8) (key : Key) :
    (code c ukm key).length = codeLen := by
  rw [code, List.length_take, Bytes.length_toList]
  rfl

theorem make_eq (params : ParamSet) (kek : Key) (ukm : Bytes 8) (key : Key) :
    make params kek ukm key =
      ukm.toList ++ (wrapped (cipher params kek ukm) key).toList ++
        code (cipher params kek ukm) ukm key := by
  have hsent : (wrapped (cipher params kek ukm) key).toList =
      ByteString.join ((keyBlocks key).map (cipher params kek ukm).encrypt) :=
    toList_mapBlocks _ key
  rw [hsent]
  rfl

def cipherOf (params : ParamSet) (kek : Key) (record : ByteString) : Cipher .gost89 :=
  cipher params kek (ukmPart record)

/-- The key that a record is read as, if its code is right. -/
def keyOf (params : ParamSet) (kek : Key) (record : ByteString) : Key :=
  unwrapped (cipherOf params kek record) (sentPart record)

theorem read_eq (params : ParamSet) (kek : Key) (record : ByteString) :
    read params kek record =
      if record.length = recordLen then
        if code (cipherOf params kek record) (ukmPart record) (keyOf params kek record) =
            codePart record then
          .ok (keyOf params kek record)
        else .error .badMac
      else .error (.invalidLength recordLen record.length) := by
  rw [read]
  by_cases hlen : record.length = recordLen
  · obtain ⟨hukm, hsent, hcode⟩ :=
      fields_of_length hlen (.invalidLength recordLen record.length)
    rw [if_neg (not_not_intro hlen), if_pos hlen]
    simp only [bind, Except.bind, hukm, hsent, hcode]
    by_cases hright : code (cipherOf params kek record) (ukmPart record)
        (keyOf params kek record) = codePart record
    · rw [if_pos hright]
      exact if_neg (not_not_intro hright)
    · rw [if_neg hright]
      exact if_pos hright
  · rw [if_pos hlen, if_neg hlen]
    rfl

/-! ## 4. What is read -/

theorem read_eq_ok_iff {record : ByteString} {key : Key} :
    read params kek record = .ok key ↔
      record.length = recordLen ∧ key = keyOf params kek record ∧
        code (cipherOf params kek record) (ukmPart record) key = codePart record := by
  rw [read_eq, accepted_eq_ok_iff, accepted_eq_ok_iff, Except.ok.injEq]
  constructor
  · rintro ⟨hlen, hcode, rfl⟩
    exact ⟨hlen, rfl, hcode⟩
  · rintro ⟨hlen, rfl, hcode⟩
    exact ⟨hlen, hcode, rfl⟩

/-- Whoever wraps the key of an accepted record with its first eight bytes writes that record. -/
theorem make_of_read {record : ByteString} {key : Key} (h : read params kek record = .ok key) :
    record = make params kek (ukmPart record) key := by
  obtain ⟨hlen, hkey, hcode⟩ := read_eq_ok_iff.mp h
  have hsent : wrapped (cipher params kek (ukmPart record)) key = sentPart record := by
    rw [hkey]
    exact wrapped_unwrapped _ _
  have hright : code (cipher params kek (ukmPart record)) (ukmPart record) key =
      codePart record := hcode
  rw [make_eq, hsent, hright, parts_append hlen]

theorem read_make (ukm : Bytes 8) (key : Key) :
    read params kek (make params kek ukm key) = .ok key := by
  obtain ⟨hlen, hukm, hsent, hcode⟩ := parts_of_append ukm
    (wrapped (cipher params kek ukm) key) (length_code (cipher params kek ukm) ukm key)
  rw [← make_eq] at hlen hukm hsent hcode
  refine read_eq_ok_iff.mpr ⟨hlen, ?_, ?_⟩
  · rw [keyOf, cipherOf, hukm, hsent, unwrapped_wrapped]
  · rw [cipherOf, hukm, hcode]

/-- The first forty bytes settle an accepted record. -/
theorem eq_of_read {record record' : ByteString} {key key' : Key}
    (h : read params kek record = .ok key) (h' : read params kek record' = .ok key')
    (hagree : record.take (ukmLen + keyLen) = record'.take (ukmLen + keyLen)) :
    record = record' := by
  have hukm : ukmPart record = ukmPart record' := by
    have htake := congrArg (List.take ukmLen) hagree
    rw [List.take_take, List.take_take, Nat.min_eq_left (Nat.le_add_right ..)] at htake
    rw [ukmPart, ukmPart, htake]
  have hsent : sentPart record = sentPart record' := by
    rw [sentPart, sentPart, List.take_drop, List.take_drop, hagree]
  obtain ⟨-, hkey, -⟩ := read_eq_ok_iff.mp h
  obtain ⟨-, hkey', -⟩ := read_eq_ok_iff.mp h'
  have hsame : key = key' := by
    rw [hkey, hkey', keyOf, keyOf, cipherOf, cipherOf, hukm, hsent]
  rw [make_of_read h, make_of_read h', hukm, hsame]

theorem take_ukm {record : ByteString} (hlen : record.length = recordLen) {ukm : Bytes 8} :
    ukm.toList = record.take ukmLen ↔ ukm = ukmPart record := by
  have htake : (record.take ukmLen).length = 8 := by
    rw [List.length_take, hlen]
    rfl
  constructor
  · intro h
    rw [ukmPart, ← h, Bytes.padded_toList]
  · rintro rfl
    exact Bytes.toList_padded htake

/-- **A record is unwrapped if it was wrapped.** Under every parameter set, unwrapping gives a key
exactly if wrapping this key with the first eight bytes of the record gives the record; so a key
comes out as it went in, and two records that are accepted and agree in their first forty bytes are
one. A record that has not 44 bytes is refused for that, and for nothing else; any other record that
is not accepted has the wrong code. That a field is missing is never the reason. -/
theorem unwraps_iff_wraps (params : ParamSet) (kek : Key) (record : ByteString) :
    (∀ key, read params kek record = .ok key ↔
      ∃ ukm : Bytes 8, ukm.toList = record.take 8 ∧ record = make params kek ukm key) ∧
    (∀ ukm key, read params kek (make params kek ukm key) = .ok key) ∧
    (∀ record' key key', read params kek record = .ok key → read params kek record' = .ok key' →
      record.take 40 = record'.take 40 → record = record') ∧
    (record.length ≠ 44 →
      read params kek record = .error (.invalidLength 44 record.length)) ∧
    (record.length = 44 → (∀ key, read params kek record ≠ .ok key) →
      read params kek record = .error .badMac) ∧
    (record.length = 44 → ∀ malformed, ∃ ukm sent received rest rest',
      Record.field malformed ukmLen record = .ok (ukm, rest) ∧
        Record.field malformed keyLen rest = .ok (sent, rest') ∧
        Record.field malformed codeLen rest' = .ok (received, [])) := by
  refine ⟨fun key => ?_, read_make, ?_, ?_, ?_, ?_⟩
  · constructor
    · intro h
      obtain ⟨hlen, -⟩ := read_eq_ok_iff.mp h
      exact ⟨ukmPart record, (take_ukm hlen).mpr rfl, make_of_read h⟩
    · rintro ⟨ukm, -, hmade⟩
      rw [hmade]
      exact read_make ukm key
  · intro record' key key' h h' hagree
    exact eq_of_read h h' hagree
  · intro hlen
    rw [read_eq]
    exact if_neg hlen
  · intro hlen hunread
    have hwhole : record.length = recordLen := hlen
    rw [read_eq, if_pos hwhole] at hunread ⊢
    exact eq_error_of_ne_ok hunread
  · intro hlen malformed
    exact ⟨_, _, _, _, _, fields_of_length hlen malformed⟩

end WrappedKey

end GostSuite
