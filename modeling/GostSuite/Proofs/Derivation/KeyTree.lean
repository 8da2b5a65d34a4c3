import GostSuite.Derivation.KeyTree
import GostSuite.Proofs.Bytes.Cutting

/-!
# Which keys a tree derives

A request for derived keys is checked before anything is computed, and a request that passes the
check is answered with as many bytes as it asks for. The check looks at the two lengths and at
nothing else, so a caller whose lengths are fixed cannot be refused for his key or his seed.

A caller that lends a buffer is told the same, and finds the same bytes in it (`fill_eq`). A caller
that wants one key is never refused (`derive_child`).
-/

set_option autoImplicit false

namespace GostSuite

namespace KeyTree

variable {counterLen outLen : Nat}

theorem check_eq_ok_iff :
    check counterLen outLen = .ok () ↔
      (1 ≤ counterLen ∧ counterLen ≤ 4) ∧ ¬(outLen = 0 ∨ outLen % blockLen ≠ 0) ∧
        outLen / blockLen ≤ (1 <<< (8 * counterLen)) - 1 := by
  rw [check, bind_eq_ok_iff]
  constructor
  · rintro ⟨⟨⟩, hcounter, hrest⟩
    obtain ⟨hcut, hrest⟩ := refused_eq_ok_iff.mp hrest
    obtain ⟨hfits, -⟩ := refused_eq_ok_iff.mp hrest
    exact ⟨(accepted_eq_ok_iff.mp hcounter).1, hcut, Nat.le_of_not_lt hfits⟩
  · rintro ⟨hcounter, hcut, hfits⟩
    refine ⟨(), if_pos hcounter, ?_⟩
    exact refused_eq_ok_iff.mpr ⟨hcut, refused_eq_ok_iff.mpr ⟨Nat.not_lt_of_le hfits, rfl⟩⟩

variable {key label seed out : ByteString}

theorem derive_eq_ok_iff :
    derive key label seed counterLen outLen = .ok out ↔
      check counterLen outLen = .ok () ∧
        out = .join (blocks key label seed counterLen outLen) := by
  rw [derive, bind_eq_ok_iff]
  constructor
  · rintro ⟨⟨⟩, hcheck, hout⟩
    exact ⟨hcheck, (Except.ok.inj hout).symm⟩
  · rintro ⟨hcheck, rfl⟩
    exact ⟨(), hcheck, rfl⟩

theorem length_of_derive (h : derive key label seed counterLen outLen = .ok out) :
    out.length = outLen := by
  obtain ⟨hcheck, rfl⟩ := derive_eq_ok_iff.mp h
  obtain ⟨-, hcut, -⟩ := check_eq_ok_iff.mp hcheck
  rw [ByteString.length_join, blocks, List.length_map, List.length_range]
  exact Nat.div_mul_cancel (Nat.dvd_of_mod_eq_zero (by omega))

/-- The blocks take the places of whole blocks of the buffer, and nothing of it is left. -/
theorem overwrite_eq (block : Nat → Bytes 32) {count : Nat} (i : Nat)
    (hout : out.length = count * blockLen) :
    overwrite block i out = .join ((List.range' i count).map block) := by
  induction count generalizing i out with
  | zero =>
    obtain rfl : out = [] := List.length_eq_zero_iff.mp (by simpa using hout)
    rw [overwrite, if_neg (by decide)]
    rfl
  | succ count ih =>
    rw [Nat.succ_mul] at hout
    have hrest : (out.drop blockLen).length = count * blockLen := by
      rw [List.length_drop]
      omega
    rw [overwrite, if_pos (by omega), ih (i + 1) hrest, List.range'_succ, List.map_cons,
      ByteString.join_cons]

/-- A buffer that is filled holds what is derived for its length. -/
theorem fill_eq (key label seed : ByteString) (counterLen : Nat) (out : ByteString) :
    fill key label seed counterLen out =
      match derive key label seed counterLen out.length with
      | .ok derived => .done derived ()
      | .error e => .refused out e := by
  cases hcheck : check counterLen out.length with
  | error e => simp only [fill, derive, hcheck, bind, Except.bind]
  | ok _ =>
    obtain ⟨-, hcut, -⟩ := check_eq_ok_iff.mp hcheck
    have hwhole : out.length = out.length / blockLen * blockLen :=
      (Nat.div_mul_cancel (Nat.dvd_of_mod_eq_zero (by omega))).symm
    have hderive : derive key label seed counterLen out.length = .ok _ :=
      derive_eq_ok_iff.mpr ⟨hcheck, rfl⟩
    rw [hderive]
    simp only [fill, hcheck]
    rw [overwrite_eq _ 1 hwhole, blocks, List.range'_eq_map_range, List.map_map]
    simp only [Function.comp_def, Nat.add_comm 1]

/-- One key derived from another, with a counter of one byte. -/
def child (key : Key) (label seed : ByteString) : Key :=
  hmac key.toList (blockMessage label seed 1 keyLen 1)

theorem derive_child (key : Key) (label seed : ByteString) :
    derive key.toList label seed 1 keyLen = .ok (child key label seed).toList := by
  have hcheck : check 1 keyLen = .ok () := check_eq_ok_iff.mpr (by decide)
  refine derive_eq_ok_iff.mpr ⟨hcheck, ?_⟩
  exact (List.append_nil _).symm

end KeyTree

end GostSuite
