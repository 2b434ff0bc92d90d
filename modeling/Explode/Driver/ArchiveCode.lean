import Explode.Lib.PrefixCode
import Explode.Driver.Archive

/-!
# The words of an archive

The bytes of an integer of four bytes, and of a counted string, tell their value
and where they end.
-/

namespace Explode.Driver

open PrefixCode

theorem length_intBytes (v : Int) : (intBytes v).length = 4 := rfl

theorem length_wordBytes (w : Word) : (wordBytes w).length = 4 := List.length_ofFn

theorem unsignedOf_intBytes (v : Int) : (unsignedOf (intBytes v) : Int) = v % 4294967296 := by
  obtain ⟨w, hw⟩ : ∃ w : Nat, w = (v % 4294967296).toNat := ⟨_, rfl⟩
  have hBound : w < 4294967296 := by omega
  have hBytes : unsignedOf (intBytes v) = w := by
    simp only [intBytes, unsignedOf, ← hw, UInt8.toNat_ofNat']
    omega
  rw [hBytes]
  omega

theorem intOf_intBytes {v : Int} (hLow : -2147483648 ≤ v) (hHigh : v < 2147483648) :
    intOf (intBytes v) = v := by
  have hUnsigned := unsignedOf_intBytes v
  rw [intOf]
  split_ifs <;> omega

theorem intBytes_code : Code (fun v : Int => -2147483648 ≤ v ∧ v < 2147483648) intBytes := by
  apply Code.of_length 4 fun v _ => length_intBytes v
  intro v w hv hw hEq
  rw [← intOf_intBytes hv.1 hv.2, hEq, intOf_intBytes hw.1 hw.2]

theorem unsignedBytes_code : Code (fun v : Nat => v < 4294967296) fun v => intBytes v := by
  refine Code.of_length 4 (fun v _ => length_intBytes (v : Int)) ?_
  intro v w hv hw hEq
  have h := unsignedOf_intBytes v
  rw [hEq, unsignedOf_intBytes] at h
  omega

theorem natBytes_code : Code (fun v : Nat => v < 2147483648) fun v => intBytes v :=
  fun a b r s ha hb => unsignedBytes_code a b r s (ha.trans (by decide)) (hb.trans (by decide))

theorem bytes_code (n : Nat) : Code (fun s : Bytes => s.length = n) fun s => s :=
  Code.of_length n (fun _ h => h) fun _ _ _ _ h => h

theorem string_code : Code (fun s : Bytes => s.length < 2147483648) fun s =>
    intBytes s.length ++ s := by
  have hBind := natBytes_code.bind fun n _ => bytes_code n
  refine hBind.comap (fun s : Bytes => (s.length, s)) ?_ ?_
  · exact fun s t _ _ hEq => (Prod.mk.inj hEq).2
  · exact fun s hs => ⟨hs, rfl⟩

end Explode.Driver
