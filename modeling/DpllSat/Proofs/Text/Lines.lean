import DpllSat.Text.Blank
import DpllSat.Text.Encoding
import Mathlib.Data.List.Basic

/-! The bytes of a text, and its lines. -/
namespace DpllSat
namespace Text

theorem encode_append (cs ds : List Char) : encode (cs ++ ds) = encode cs ++ encode ds :=
  List.flatMap_append

theorem toByteArray_encode (cs : List Char) : (encode cs).toByteArray = cs.utf8Encode := rfl

theorem toList_loop (bytes : ByteArray) (i : Nat) (r : List UInt8) :
    ByteArray.toList.loop bytes i r = r.reverse ++ bytes.data.toList.drop i := by
  fun_induction ByteArray.toList.loop bytes i r with
  | case1 i r hi ih =>
    have hlt : i < bytes.data.toList.length := hi
    rw [ih, List.drop_eq_getElem_cons hlt, List.reverse_cons, List.append_assoc]
    simp [ByteArray.get!, getElem!_pos bytes.data i hi]
  | case2 i r hi =>
    have hle : bytes.data.toList.length ≤ i := Nat.le_of_not_lt hi
    rw [List.drop_eq_nil_of_le hle, List.append_nil]

theorem toList_eq (bytes : ByteArray) : bytes.toList = bytes.data.toList := by
  rw [ByteArray.toList, toList_loop, List.reverse_nil, List.nil_append, List.drop_zero]

theorem toList_toUTF8_ofList (cs : List Char) : (String.ofList cs).toUTF8.toList = encode cs := by
  have h : (String.ofList cs).toUTF8 = (encode cs).toByteArray := String.toByteArray_ofList
  rw [h, toList_eq, List.toList_data_toByteArray]

theorem length_toList_toUTF8 (text : String) : text.toUTF8.toList.length = text.utf8ByteSize := by
  rw [toList_eq, Array.length_toList, ByteArray.size_data]
  exact String.size_toByteArray

theorem decode?_eq_some_iff {bytes : List UInt8} {cs : List Char} :
    decode? bytes = some cs ↔ encode cs = bytes := by
  have hb : (⟨bytes.toArray⟩ : ByteArray) = bytes.toByteArray :=
    ByteArray.ext List.data_toByteArray.symm
  have hinj {bs : List UInt8} (h : bs.toByteArray = bytes.toByteArray) : bs = bytes := by
    simpa using congrArg (fun b => b.data.toList) h
  rw [decode?, hb, String.fromUTF8?]
  constructor
  · intro h
    obtain ⟨s, hs, rfl⟩ := Option.map_eq_some_iff.1 h
    split at hs
    · cases hs
      refine hinj ?_
      rw [toByteArray_encode, ← String.toByteArray_ofList, String.ofList_toList]
      rfl
    · cases hs
  · rintro rfl
    have hv : (encode cs).toByteArray.IsValidUTF8 := ⟨cs, toByteArray_encode cs⟩
    have hs : String.fromUTF8 _ hv = String.ofList cs :=
      String.toByteArray_inj.1 String.toByteArray_ofList.symm
    rw [dif_pos hv, hs, Option.map_some, String.toList_ofList]

@[simp] theorem decode?_encode (cs : List Char) : decode? (encode cs) = some cs :=
  decode?_eq_some_iff.2 rfl

theorem encode_injective {cs ds : List Char} (h : encode cs = encode ds) : cs = ds :=
  Option.some.inj ((decode?_encode cs).symm.trans (decode?_eq_some_iff.2 h.symm))

theorem ten_eq_ofNat_iff {n : Nat} : 10 = UInt8.ofNat n ↔ n % 256 = 10 := by
  rw [← UInt8.toNat_inj, UInt8.toNat_ofNat', eq_comm]
  rfl

/-- The byte of the line feed is in no other character. -/
theorem eq_of_mem_utf8EncodeChar {c : Char} (h : 10 ∈ String.utf8EncodeChar c) : c = '\n' := by
  have hc : c.val.toNat = 10 := by
    unfold String.utf8EncodeChar at h
    dsimp only at h
    -- The bytes of a character of more than one byte are all above 127.
    split_ifs at h <;>
      simp only [List.mem_cons, List.not_mem_nil, or_false, ten_eq_ofNat_iff] at h <;> omega
  exact Char.toNat_inj.1 hc

theorem ten_mem_encode_iff {cs : List Char} : 10 ∈ encode cs ↔ '\n' ∈ cs := by
  rw [encode, List.mem_flatMap]
  constructor
  · rintro ⟨c, hc, h⟩
    exact eq_of_mem_utf8EncodeChar h ▸ hc
  · exact fun h => ⟨'\n', h, by decide⟩

theorem lines_flatMap {ls : List (List UInt8)} (h : ∀ l ∈ ls, 10 ∉ l) :
    lines (ls.flatMap (· ++ [10])) = ls := by
  have hs : (ls.flatMap (· ++ [10])).splitOn 10 = ls ++ [[]] := by
    induction ls with
    | nil => rfl
    | cons l ls ih =>
      obtain ⟨hl, hls⟩ := List.forall_mem_cons.1 h
      rw [List.flatMap_cons, List.append_assoc, List.singleton_append,
        List.splitOn_append_cons_self_of_not_mem hl, ih hls, List.cons_append]
  simp [lines, hs]

/-- The lines of a text that consists of lines without a line feed of their own. -/
theorem lines_encode {ls : List (List Char)} (h : ∀ cs ∈ ls, '\n' ∉ cs) :
    lines (encode (ls.flatMap (· ++ ['\n']))) = ls.map encode := by
  have hb : encode (ls.flatMap (· ++ ['\n'])) = (ls.map encode).flatMap (· ++ [10]) := by
    rw [encode, List.flatMap_assoc, List.flatMap_map]
    exact List.flatMap_congr fun cs _ => encode_append cs ['\n']
  have hl : ∀ line ∈ ls.map encode, 10 ∉ line :=
    List.forall_mem_map.2 fun cs hcs => ten_mem_encode_iff.not.2 (h cs hcs)
  rw [hb, lines_flatMap hl]

/-- Splitting at the line feeds gives the lines, and perhaps an empty piece after them. -/
theorem splitOn_eq_lines (bytes : List UInt8) :
    bytes.splitOn 10 = lines bytes ∨ bytes.splitOn 10 = lines bytes ++ [[]] := by
  simp only [lines]
  split
  · rename_i h
    exact Or.inr (List.dropLast_append_getLast? [] h).symm
  · exact Or.inl rfl

theorem lines_append (p q : List UInt8) : lines (p ++ 10 :: q) = p.splitOn 10 ++ lines q := by
  have hs : (p ++ 10 :: q).splitOn 10 = p.splitOn 10 ++ q.splitOn 10 :=
    List.splitOn_append_cons_self p q
  have hq : q.splitOn 10 ≠ [] := List.splitOn_ne_nil 10 q
  simp only [lines, hs, List.getLast?_append_of_ne_nil _ hq, List.dropLast_append_of_ne_nil hq]
  split <;> rfl

theorem length_splitOn (bytes : List UInt8) :
    (bytes.splitOn 10).length = bytes.count 10 + 1 := by
  induction bytes with
  | nil => simp
  | cons b bytes ih =>
    rw [List.splitOn_cons_eq_if_modifyHead, List.count_cons]
    split <;> simp_all

theorem length_lines_le (bytes : List UInt8) : (lines bytes).length ≤ bytes.length + 1 := by
  have hs : (bytes.splitOn 10).length ≤ bytes.length + 1 := by
    rw [length_splitOn]
    exact Nat.succ_le_succ List.count_le_length
  rcases splitOn_eq_lines bytes with h | h <;> rw [h] at hs
  · exact hs
  · rw [List.length_append] at hs
    omega

end Text
end DpllSat
