/-
The bytes of a text beside its characters. A character of one byte is that byte, and the bytes of all others are from
128 on. So where there is a byte below 128 in a text a character starts and ends (`exists_of_getElem?_encoded`), and a
text has as many of it as bytes and as characters (`count_encoded`).
-/
import Lox.Token.Reader

namespace Lox

/-! ## Encoded characters -/

/-- The bytes of characters, each as the character of the same number. -/
def encoded (cs : List Char) : List Char := (cs.flatMap String.utf8EncodeChar).map Char.ofUInt8

@[simp] theorem encoded_nil : encoded [] = [] := rfl

@[simp] theorem encoded_append (cs cs' : List Char) : encoded (cs ++ cs') = encoded cs ++ encoded cs' := by
  simp [encoded]

theorem encoded_cons (c : Char) (cs : List Char) : encoded (c :: cs) = encoded [c] ++ encoded cs :=
  encoded_append [c] cs

theorem length_encoded_singleton (c : Char) : (encoded [c]).length = c.utf8Size := by simp [encoded]

theorem length_encoded (cs : List Char) : (encoded cs).length = (String.ofList cs).utf8ByteSize := by
  rw [← String.size_toByteArray]
  simp [List.utf8Encode, encoded]

theorem length_encoded_toList (source : String) : (encoded source.toList).length = source.utf8ByteSize := by
  rw [length_encoded, String.ofList_toList]

theorem map_ofUInt8 (source : String) : source.toByteArray.data.toList.map Char.ofUInt8 = encoded source.toList := by
  unfold encoded
  rw [← String.utf8Encode_toList]
  simp [List.utf8Encode]

theorem byte?_eq (source : String) (i : Nat) : byte? source i = (encoded source.toList)[i]? := by
  rw [← map_ofUInt8, List.getElem?_map, Array.getElem?_toList]
  rfl

theorem toNat_ofUInt8 (b : UInt8) : (Char.ofUInt8 b).toNat = b.toNat := rfl

/-- A character of one byte is that byte. -/
theorem encoded_singleton {c : Char} (h : c.toNat < 128) : encoded [c] = [c] := by
  have one : c.utf8Size = 1 := Char.utf8Size_eq_one_iff.2 (UInt32.le_iff_toNat_le.2 (Nat.lt_succ_iff.1 h))
  have same : Char.ofUInt8 c.val.toUInt8 = c := by
    refine Char.ext (UInt32.toNat_inj.1 ?_)
    exact (UInt32.toNat_toUInt8 c.val).trans (Nat.mod_eq_of_lt (Nat.lt_trans h (by decide)))
  rw [encoded, List.flatMap_singleton, String.utf8EncodeChar_eq_singleton one, List.map_singleton, same]

/-- The bytes of a character of several bytes are from 128 on. -/
theorem le_of_mem_encoded {c b : Char} (h : 128 ≤ c.toNat) (hb : b ∈ encoded [c]) : 128 ≤ b.toNat := by
  have long : ¬ c.val.toNat ≤ 127 := Nat.not_le.2 h
  rw [encoded, List.flatMap_singleton, String.utf8EncodeChar, if_neg long, List.mem_map] at hb
  obtain ⟨n, hn, rfl⟩ := hb
  rw [toNat_ofUInt8]
  -- a character has two, three or four bytes
  split at hn
  · simp only [List.mem_cons, List.not_mem_nil, or_false] at hn
    rcases hn with rfl | rfl <;> rw [UInt8.toNat_ofNat'] <;> omega
  split at hn
  · simp only [List.mem_cons, List.not_mem_nil, or_false] at hn
    rcases hn with rfl | rfl | rfl <;> rw [UInt8.toNat_ofNat'] <;> omega
  · simp only [List.mem_cons, List.not_mem_nil, or_false] at hn
    rcases hn with rfl | rfl | rfl | rfl <;> rw [UInt8.toNat_ofNat'] <;> omega

/-! ## Characters of one byte -/

/-- A character of one byte is among the bytes of another only if it is that character. -/
theorem not_mem_encoded_singleton {b c : Char} (h : b.toNat < 128) (ne : b ≠ c) : b ∉ encoded [c] := by
  intro mem
  by_cases small : c.toNat < 128
  · rw [encoded_singleton small] at mem
    exact ne (List.mem_singleton.1 mem)
  · exact absurd (le_of_mem_encoded (Nat.not_lt.1 small) mem) (Nat.not_le.2 h)

/-- A text has as many of a character of one byte among its bytes as among its characters. -/
theorem count_encoded {b : Char} (h : b.toNat < 128) (cs : List Char) : (encoded cs).count b = cs.count b := by
  induction cs with
  | nil => rfl
  | cons c cs ih =>
    have one : (encoded [c]).count b = [c].count b := by
      by_cases same : b = c
      · rw [← same, encoded_singleton h]
      · rw [List.count_eq_zero.2 (not_mem_encoded_singleton h same), List.count_eq_zero.2 (by simpa using same)]
    rw [encoded_cons, List.count_append, one, ih, ← List.count_append, List.singleton_append]

theorem mem_encoded_iff {b : Char} (h : b.toNat < 128) {cs : List Char} : b ∈ encoded cs ↔ b ∈ cs := by
  rw [← List.count_pos_iff, count_encoded h, List.count_pos_iff]

/-- Where a character of one byte is among the bytes, it is among the characters. -/
theorem exists_of_getElem?_encoded {b : Char} (h : b.toNat < 128) {cs : List Char} {i : Nat}
    (found : (encoded cs)[i]? = some b) : ∃ pre post, cs = pre ++ b :: post ∧ i = (encoded pre).length := by
  induction cs generalizing i with
  | nil => cases found
  | cons c cs ih =>
    rw [encoded_cons] at found
    by_cases inside : i < (encoded [c]).length
    · rw [List.getElem?_append_left inside] at found
      have mem := List.mem_of_getElem? found
      have same : b = c := Decidable.byContradiction fun ne => not_mem_encoded_singleton h ne mem
      rw [← same, encoded_singleton h] at inside
      exact ⟨[], cs, by rw [same]; rfl, Nat.lt_one_iff.1 inside⟩
    · rw [List.getElem?_append_right (Nat.not_lt.1 inside)] at found
      obtain ⟨pre, post, split, place⟩ := ih found
      refine ⟨c :: pre, post, by rw [split]; rfl, ?_⟩
      rw [encoded_cons, List.length_append, ← place]
      omega

/-- A class of characters of one byte. -/
def Plain (p : Char → Bool) : Prop := ∀ c, p c = true → c.toNat < 128

/-- The first byte of a text is in such a class if its first character is. -/
theorem Plain.any_head? {p : Char → Bool} (h : Plain p) (cs : List Char) :
    (encoded cs).head?.any p = cs.head?.any p := by
  cases cs with
  | nil => rfl
  | cons c cs =>
    rw [encoded_cons]
    by_cases small : c.toNat < 128
    · rw [encoded_singleton small]
      rfl
    · have none : ∀ b ∈ encoded [c], p b = false := fun b hb =>
        Bool.eq_false_iff.2 fun hp => absurd (le_of_mem_encoded (Nat.not_lt.1 small) hb) (Nat.not_le.2 (h b hp))
      have alone : p c = false := Bool.eq_false_iff.2 fun hp => small (h c hp)
      have isLong : encoded [c] ≠ [] := List.ne_nil_of_length_pos (length_encoded_singleton c ▸ c.utf8Size_pos)
      obtain ⟨b, more, split⟩ := List.exists_cons_of_ne_nil isLong
      rw [split] at none ⊢
      simp [none b List.mem_cons_self, alone]

/-! ## Classes of characters of one byte -/

theorem plain_eq {b : Char} (h : b.toNat < 128) : Plain (· == b) := fun _ hc => eq_of_beq hc ▸ h

theorem plain_isBlank : Plain Piece.isBlank := by
  intro c h
  simp only [Piece.isBlank, Bool.or_eq_true, beq_iff_eq] at h
  obtain ((rfl | rfl) | rfl) | rfl := h
  all_goals decide

theorem plain_isDigit : Plain Char.isDigit := by
  intro c h
  obtain ⟨-, le⟩ := Bool.and_eq_true_iff.1 h
  exact Nat.lt_of_le_of_lt (UInt32.le_iff_toNat_le.1 (of_decide_eq_true le)) (by decide)

theorem plain_isAlpha : Plain Char.isAlpha := by
  intro c h
  obtain upper | lower := Bool.or_eq_true_iff.1 h
  · obtain ⟨-, le⟩ := of_decide_eq_true upper
    exact Nat.lt_of_le_of_lt (UInt32.le_iff_toNat_le.1 le) (by decide)
  · obtain ⟨-, le⟩ := Bool.and_eq_true_iff.1 lower
    exact Nat.lt_of_le_of_lt (UInt32.le_iff_toNat_le.1 (of_decide_eq_true le)) (by decide)

theorem plain_startsWord : Plain Piece.startsWord := by
  intro c h
  obtain h | h := Bool.or_eq_true_iff.1 h
  · exact plain_isAlpha c h
  · exact plain_eq (by decide) c h

theorem plain_continuesWord : Plain Piece.continuesWord := by
  intro c h
  obtain h | h := Bool.or_eq_true_iff.1 h
  · obtain h | h := Bool.or_eq_true_iff.1 h
    · exact plain_isAlpha c h
    · exact plain_isDigit c h
  · exact plain_eq (by decide) c h

theorem lt_of_mark? {c : Char} {kind : Kind} (h : Piece.mark? c = some kind) : c.toNat < 128 := by
  unfold Piece.mark? at h
  split at h
  all_goals first | decide | cases h

theorem lt_of_comparison? {c : Char} {kinds : Kind × Kind} (h : Piece.comparison? c = some kinds) : c.toNat < 128 := by
  unfold Piece.comparison? at h
  split at h
  all_goals first | decide | cases h

end Lox
