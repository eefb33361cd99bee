import ApplianceConfig.Password
import Mathlib.Data.List.Nodup
import Mathlib.Tactic.IntervalCases

/-!
# Password hashes as salts

A hash may be given as the salt of another one: its mark is dropped, and the salt in it ends at the next dollar sign. So a password is checked by hashing it once more, with the stored hash for the salt. The letters at the end of a hash keep the whole digest, because each of its bytes is in one of the numbers that the letters stand for. None of this depends on how the digest works.
-/

namespace ApplianceConfig

/-! ### Digits -/

namespace Radix

/-- A number is known by as many of its last digits as it has. -/
theorem lowDigits_injective {base count m n : Nat} (hm : m < base ^ count) (hn : n < base ^ count)
    (h : lowDigits base count m = lowDigits base count n) : m = n := by
  induction count generalizing m n with
  | zero =>
    rw [Nat.pow_zero] at hm hn
    omega
  | succ count ih =>
    rw [lowDigits, lowDigits, List.cons.injEq] at h
    rw [Nat.pow_succ'] at hm hn
    have hhigh : m / base = n / base := ih (Nat.div_lt_of_lt_mul hm) (Nat.div_lt_of_lt_mul hn) h.2
    calc m = base * (m / base) + m % base := (Nat.div_add_mod m base).symm
      _ = base * (n / base) + n % base := by rw [hhigh, h.1]
      _ = n := Nat.div_add_mod n base

end Radix

namespace Password

/-! ### Letters -/

theorem nodup_alphabet : alphabet.Nodup := by decide

theorem getD_alphabet {d : Nat} (h : d < alphabet.length) : alphabet.getD d '.' = alphabet[d] := by
  rw [List.getD_eq_getElem?_getD, List.getElem?_eq_getElem h, Option.getD_some]

theorem lt_length_of_mem_lowDigits {count n d : Nat} (h : d ∈ Radix.lowDigits 64 count n) : d < alphabet.length :=
  Radix.lt_of_mem_lowDigits (by decide) h

theorem length_letters (count n : Nat) : (letters count n).length = count := by
  rw [letters, List.length_map, Radix.length_lowDigits]

theorem mem_alphabet_of_mem_letters {count n : Nat} {c : Char} (h : c ∈ letters count n) : c ∈ alphabet := by
  obtain ⟨d, hd, rfl⟩ := List.mem_map.mp h
  rw [getD_alphabet (lt_length_of_mem_lowDigits hd)]
  exact List.getElem_mem _

/-- No letter stands for two digits, so the digits are found again in the alphabet. -/
theorem map_idxOf_letters (count n : Nat) : (letters count n).map alphabet.idxOf = Radix.lowDigits 64 count n := by
  have hplace : ∀ d ∈ Radix.lowDigits 64 count n, alphabet.idxOf (alphabet.getD d '.') = d := by
    intro d hd
    rw [getD_alphabet (lt_length_of_mem_lowDigits hd)]
    exact nodup_alphabet.idxOf_getElem d _
  rw [letters, List.map_map]
  exact (List.map_congr_left hplace).trans (List.map_id _)

theorem letters_injective {count m n : Nat} (hm : m < 64 ^ count) (hn : n < 64 ^ count)
    (h : letters count m = letters count n) : m = n := by
  apply Radix.lowDigits_injective hm hn
  rw [← map_idxOf_letters, h, map_idxOf_letters]

theorem length_tripleLetters (a b c : UInt8) : (tripleLetters a b c).length = 4 := length_letters 4 _

/-- Three bytes are the digits of their number, so the four letters of it keep each of them. -/
theorem tripleLetters_injective {a b c x y z : UInt8} (h : tripleLetters a b c = tripleLetters x y z) :
    a = x ∧ b = y ∧ c = z := by
  have ha := a.toNat_lt
  have hb := b.toNat_lt
  have hc := c.toNat_lt
  have hx := x.toNat_lt
  have hy := y.toNat_lt
  have hz := z.toNat_lt
  have hletters : letters 4 (a.toNat * 65536 + b.toNat * 256 + c.toNat) =
      letters 4 (x.toNat * 65536 + y.toNat * 256 + z.toNat) := h
  have hnumbers := letters_injective (by omega) (by omega) hletters
  simp only [← UInt8.toNat_inj]
  omega

theorem length_digestLetters (d : Vector UInt8 16) : (digestLetters d).length = 22 := by
  simp only [digestLetters, List.length_append, length_tripleLetters, length_letters]

theorem mem_alphabet_of_mem_digestLetters {d : Vector UInt8 16} {c : Char} (h : c ∈ digestLetters d) :
    c ∈ alphabet := by
  simp only [digestLetters, tripleLetters, List.mem_append] at h
  rcases h with ((((h | h) | h) | h) | h) | h <;> exact mem_alphabet_of_mem_letters h

/-- The groups of letters take each of the sixteen bytes once. -/
theorem digestLetters_injective : Function.Injective digestLetters := by
  intro d e h
  have hsplit {first second : List Char} {a b c x y z : UInt8}
      (h : first ++ tripleLetters a b c = second ++ tripleLetters x y z) :
      first = second ∧ a = x ∧ b = y ∧ c = z := by
    obtain ⟨hfirst, hlast⟩ := List.append_inj' h (by rw [length_tripleLetters, length_tripleLetters])
    exact ⟨hfirst, tripleLetters_injective hlast⟩
  unfold digestLetters at h
  obtain ⟨h, hlast⟩ := List.append_inj' h (by rw [length_letters, length_letters])
  obtain ⟨h, h4, h10, h5⟩ := hsplit h
  obtain ⟨h, h3, h9, h15⟩ := hsplit h
  obtain ⟨h, h2, h8, h14⟩ := hsplit h
  obtain ⟨h, h1, h7, h13⟩ := hsplit h
  obtain ⟨h0, h6, h12⟩ := tripleLetters_injective h
  have hlow := d[11].toNat_lt
  have hother := e[11].toNat_lt
  have h11 : d[11] = e[11] := UInt8.toNat_inj.mp (letters_injective (by omega) (by omega) hlast)
  apply Vector.ext
  intro i hi
  interval_cases i <;> assumption

/-! ### Salts -/

theorem not_mem_effectiveSalt (salt : List Char) : '$' ∉ effectiveSalt salt := by
  intro hmem
  have hplain := List.all_eq_true.mp List.all_takeWhile _ (List.mem_of_mem_take hmem)
  simp at hplain

theorem length_effectiveSalt_le (salt : List Char) : (effectiveSalt salt).length ≤ 8 := List.length_take_le _ _

/-- The salt that counts is found again behind the mark, where the next dollar sign ends it. -/
theorem effectiveSalt_hash (salt rest : List Char) :
    effectiveSalt (mark ++ (effectiveSalt salt ++ '$' :: rest)) = effectiveSalt salt := by
  have hshort := length_effectiveSalt_le salt
  have hplain : ∀ c ∈ effectiveSalt salt, decide (c ≠ '$') = true := by
    intro c hc
    rw [decide_eq_true_eq]
    rintro rfl
    exact not_mem_effectiveSalt salt hc
  generalize effectiveSalt salt = effective at hshort hplain ⊢
  have hmark : mark.isPrefixOf (mark ++ (effective ++ '$' :: rest)) = true :=
    List.isPrefixOf_iff_prefix.mpr (List.prefix_append _ _)
  rw [effectiveSalt, if_pos hmark, List.drop_left, List.takeWhile_append_of_pos hplain,
    List.takeWhile_cons_of_neg (by decide), List.append_nil, List.take_of_length_le hshort]

theorem toList_hashWith (digest : List UInt8 → Vector UInt8 16) (password salt : String) :
    (hashWith digest password salt).toList = mark ++ (effectiveSalt salt.toList ++ '$' ::
      digestLetters (finalDigest digest (bytes password.toList) (bytes (effectiveSalt salt.toList)))) := by
  rw [hashWith, String.toList_ofList, List.append_assoc]

/-- Hashing a password again with its hash for the salt gives the hash, by whatever digest. A hash is the mark, the salt that counts, a dollar sign, and letters that stand for one digest only. -/
theorem hashWith_verifies (digest : List UInt8 → Vector UInt8 16) (password salt : String) :
    let effective := effectiveSalt salt.toList
    let final := finalDigest digest (bytes password.toList) (bytes effective)
    hashWith digest password (hashWith digest password salt) = hashWith digest password salt ∧
      (∃ back, (hashWith digest password salt).toList = "$1$".toList ++ (effective ++ '$' :: back) ∧
        effective.length ≤ 8 ∧ '$' ∉ effective ∧ back.length = 22 ∧ (∀ c ∈ back, c ∈ alphabet) ∧
        ∀ d, digestLetters d = back ↔ d = final) := by
  intro effective final
  refine ⟨?_, digestLetters final, toList_hashWith digest password salt, length_effectiveSalt_le _,
    not_mem_effectiveSalt _, length_digestLetters final, fun c => mem_alphabet_of_mem_digestLetters,
    fun d => digestLetters_injective.eq_iff⟩
  have hsalt : effectiveSalt (hashWith digest password salt).toList = effective := by
    rw [toList_hashWith, effectiveSalt_hash]
  rw [hashWith, hsalt]
  rfl

end Password

end ApplianceConfig
